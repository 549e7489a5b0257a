import HM4.General.Footprint

/-!
# Binary trees with parent pointers

A node knows its two children and its parent. A tree whose nodes carry their
addresses tells what must stand in the heap, and so does what is left of a tree
when a subtree is taken out: the frames on the way from the hole to the root. Both
are pieces of the heap. A pointer to a child or to a parent is changed by one
write, and the piece it belongs to changes accordingly.
-/

namespace HM4.LinkedTree

open Footprint

/-- The two sides of a node. -/
inductive Dir where
  | left
  | right
  deriving DecidableEq

/-- The other side. -/
def Dir.flip : Dir → Dir
  | .left => .right
  | .right => .left

/-- A node in the heap. -/
structure Node (α : Type*) where
  /-- The left child. -/
  l : Option ℕ
  /-- The right child. -/
  r : Option ℕ
  /-- The parent. -/
  p : Option ℕ
  /-- What the node holds. -/
  val : α

namespace Node

variable {α : Type*}

/-- The child on a side. -/
def child (n : Node α) : Dir → Option ℕ
  | .left => n.l
  | .right => n.r

/-- The node with another child on a side. -/
def setChild (n : Node α) : Dir → Option ℕ → Node α
  | .left, x => { n with l := x }
  | .right, x => { n with r := x }

/-- The node with another parent. -/
def setP (n : Node α) (x : Option ℕ) : Node α := { n with p := x }

/-- A node given by its child on a side and the other one. -/
def mk' (d : Dir) (x y p : Option ℕ) (v : α) : Node α :=
  match d with
  | .left => ⟨x, y, p, v⟩
  | .right => ⟨y, x, p, v⟩

variable (d : Dir) (x y z p q : Option ℕ) (v w : α)

@[simp] theorem child_mk' : (mk' d x y p v).child d = x := by cases d <;> rfl

@[simp] theorem child_flip_mk' : (mk' d x y p v).child d.flip = y := by cases d <;> rfl

@[simp] theorem p_mk' : (mk' d x y p v).p = p := by cases d <;> rfl

@[simp] theorem val_mk' : (mk' d x y p v).val = v := by cases d <;> rfl

@[simp] theorem setChild_mk' : (mk' d x y p v).setChild d z = mk' d z y p v := by cases d <;> rfl

@[simp] theorem setChild_flip_mk' : (mk' d x y p v).setChild d.flip z = mk' d x z p v := by
  cases d <;> rfl

@[simp] theorem setP_mk' : (mk' d x y p v).setP q = mk' d x y q v := by cases d <;> rfl

@[simp] theorem withVal_mk' : { mk' d x y p v with val := w } = mk' d x y p w := by
  cases d <;> rfl

theorem mk'_flip : mk' d.flip x y p v = mk' d y x p v := by cases d <;> rfl

end Node

/-- Nodes by address, and the address of the root. -/
structure Links (α : Type*) where
  /-- The nodes. -/
  heap : Heap (Node α)
  /-- The root. -/
  root : Option ℕ

namespace Links

variable {α : Type*}

/-- The node at an address that is followed. -/
def get (s : Links α) (x : Option ℕ) : Option (Node α) := x.bind s.heap

/-- The node at an address is changed. -/
def write (s : Links α) (x : Option ℕ) (f : Node α → Node α) : Option (Links α) :=
  match x with
  | none => none
  | some i =>
    match s.heap i with
    | none => none
    | some n => some { s with heap := Function.update s.heap i (some (f n)) }

/-- `if (child) child->setP(x)`. -/
def setParent (s : Links α) (child x : Option ℕ) : Option (Links α) :=
  match child with
  | none => some s
  | some i => s.write (some i) (fun n => n.setP x)

end Links

/-- A tree whose nodes carry their addresses. -/
inductive LTree (α : Type*) where
  | nil
  | node (i : ℕ) (v : α) (l r : LTree α)

namespace LTree

variable {α : Type*}

/-- The address of the root. -/
def addr : LTree α → Option ℕ
  | nil => none
  | node i _ _ _ => some i

/-- All addresses. -/
def ids : LTree α → List ℕ
  | nil => []
  | node i _ l r => i :: (l.ids ++ r.ids)

/-- The addresses and what the nodes hold, in order. -/
def entries : LTree α → List (ℕ × α)
  | nil => []
  | node i v l r => l.entries ++ (i, v) :: r.entries

/-- The tree of a node with its subtree on a side and the other one. -/
def join (d : Dir) (i : ℕ) (v : α) (x y : LTree α) : LTree α :=
  match d with
  | .left => node i v x y
  | .right => node i v y x

@[simp] theorem addr_join (d : Dir) (i : ℕ) (v : α) (x y : LTree α) :
    (join d i v x y).addr = some i := by cases d <;> rfl

theorem join_flip (d : Dir) (i : ℕ) (v : α) (x y : LTree α) :
    join d.flip i v x y = join d i v y x := by cases d <;> rfl

theorem ids_join (d : Dir) (i : ℕ) (v : α) (x y : LTree α) :
    (join d i v x y).ids.Perm (i :: (x.ids ++ y.ids)) := by
  cases d with
  | left => exact List.Perm.refl _
  | right => exact List.perm_append_comm.cons i

theorem addr_mem {t : LTree α} {i : ℕ} (h : t.addr = some i) : i ∈ t.ids := by
  cases t with
  | nil => exact absurd h.symm (Option.some_ne_none i)
  | node j v l r =>
    rw [addr, Option.some_inj] at h
    exact h ▸ List.mem_cons_self

theorem addr_eq_none {t : LTree α} : t.addr = none ↔ t = nil := by
  cases t with
  | nil => exact ⟨fun _ => rfl, fun _ => rfl⟩
  | node i v l r =>
    refine ⟨fun h => absurd h (Option.some_ne_none i), fun h => ?_⟩
    rw [h]
    rfl

/-- The tree stands in the heap, its root below a parent. -/
def Linked (h : Heap (Node α)) : Option ℕ → LTree α → Prop
  | _, nil => True
  | p, node i v l r => h i = some ⟨l.addr, r.addr, p, v⟩ ∧ Linked h (some i) l ∧ Linked h (some i) r

theorem linked_join {h : Heap (Node α)} {p : Option ℕ} {d : Dir} {i : ℕ} {v : α} {x y : LTree α} :
    Linked h p (join d i v x y) ↔
      h i = some (Node.mk' d x.addr y.addr p v) ∧ Linked h (some i) x ∧ Linked h (some i) y := by
  cases d with
  | left => exact Iff.rfl
  | right => exact ⟨fun ⟨h1, h2, h3⟩ => ⟨h1, h3, h2⟩, fun ⟨h1, h2, h3⟩ => ⟨h1, h3, h2⟩⟩

/-- The addresses are those of the entries. -/
theorem ids_perm_entries (t : LTree α) : t.ids.Perm (t.entries.map Prod.fst) := by
  induction t with
  | nil => exact List.Perm.refl _
  | node i v l r ihl ihr =>
    rw [ids, entries, List.map_append, List.map_cons]
    exact ((ihl.append ihr).cons i).trans List.perm_middle.symm

theorem Linked.frame {h h' : Heap (Node α)} {p : Option ℕ} {t : LTree α}
    (hag : ∀ i ∈ t.ids, h' i = h i) (ht : Linked h p t) : Linked h' p t := by
  induction t generalizing p with
  | nil => trivial
  | node i v l r ihl ihr =>
    obtain ⟨hi, hl, hr⟩ := ht
    rw [ids] at hag
    refine ⟨(hag i List.mem_cons_self).trans hi, ihl (fun j hj => ?_) hl, ihr (fun j hj => ?_) hr⟩
    · exact hag j (List.mem_cons_of_mem i (List.mem_append_left _ hj))
    · exact hag j (List.mem_cons_of_mem i (List.mem_append_right _ hj))

/-- A tree below a parent, as a piece of the heap. -/
def piece (p : Option ℕ) (t : LTree α) : Piece (Node α) where
  ids := t.ids
  holds h := Linked h p t
  frame hag ht := ht.frame hag

/-- The height. -/
def height : LTree α → ℕ
  | nil => 0
  | node _ _ l r => max l.height r.height + 1

theorem height_join (d : Dir) (i : ℕ) (v : α) (x y : LTree α) :
    (join d i v x y).height = max x.height y.height + 1 := by
  cases d with
  | left => rfl
  | right => rw [join, height, Nat.max_comm]

theorem height_le_ids (t : LTree α) : t.height ≤ t.ids.length := by
  induction t with
  | nil => exact Nat.le_refl _
  | node i v l r ihl ihr =>
    rw [height, ids, List.length_cons, List.length_append]
    omega

end LTree

/-- A node on the way to a hole: the side on which the hole is, and the other subtree. -/
structure Frame (α : Type*) where
  /-- The side of the hole. -/
  dir : Dir
  /-- The address of the node. -/
  id : ℕ
  /-- What it holds. -/
  val : α
  /-- The subtree on the other side. -/
  sib : LTree α

/-- The frames from a hole up. -/
abbrev Ctx (α : Type*) := List (Frame α)

namespace Ctx

open LTree

variable {α : Type*}

/-- The tree with a subtree put in the hole. -/
def plug : Ctx α → LTree α → LTree α
  | [], t => t
  | f :: c, t => plug c (join f.dir f.id f.val t f.sib)

/-- The address of the parent of the hole, if the outermost frame is below a parent. -/
def parent (top : Option ℕ) : Ctx α → Option ℕ
  | [] => top
  | f :: _ => some f.id

@[simp] theorem parent_nil (top : Option ℕ) : parent top ([] : Ctx α) = top := rfl

@[simp] theorem parent_cons (top : Option ℕ) (f : Frame α) (c : Ctx α) :
    parent top (f :: c) = some f.id := rfl

/-- The address of the root, for a hole with something at an address. -/
def rootAddr : Ctx α → Option ℕ → Option ℕ
  | [], a => a
  | f :: c, _ => rootAddr c (some f.id)

/-- All addresses. -/
def ids : Ctx α → List ℕ
  | [] => []
  | f :: c => f.id :: (f.sib.ids ++ ids c)

/-- What comes before the hole in order. -/
def before : Ctx α → List (ℕ × α)
  | [] => []
  | f :: c =>
    match f.dir with
    | .left => before c
    | .right => before c ++ (f.sib.entries ++ [(f.id, f.val)])

/-- What comes behind the hole in order. -/
def after : Ctx α → List (ℕ × α)
  | [] => []
  | f :: c =>
    match f.dir with
    | .left => (f.id, f.val) :: f.sib.entries ++ after c
    | .right => after c

/-- The frames stand in the heap below a parent, with something at an address in the
hole. -/
def Linked (h : Heap (Node α)) (top : Option ℕ) : Ctx α → Option ℕ → Prop
  | [], _ => True
  | f :: c, a => h f.id = some (Node.mk' f.dir a f.sib.addr (parent top c) f.val) ∧
      LTree.Linked h (some f.id) f.sib ∧ Linked h top c (some f.id)

section Equations

variable (f : Frame α) (c : Ctx α) (t : LTree α) (a : Option ℕ)

theorem plug_cons : plug (f :: c) t = plug c (join f.dir f.id f.val t f.sib) := rfl

theorem rootAddr_cons : rootAddr (f :: c) a = rootAddr c (some f.id) := rfl

theorem ids_cons : ids (f :: c) = f.id :: (f.sib.ids ++ ids c) := rfl

theorem linked_cons (h : Heap (Node α)) (top : Option ℕ) : Linked h top (f :: c) a ↔
    h f.id = some (Node.mk' f.dir a f.sib.addr (parent top c) f.val) ∧
      LTree.Linked h (some f.id) f.sib ∧ Linked h top c (some f.id) := Iff.rfl

end Equations

theorem Linked.frame {h h' : Heap (Node α)} {top : Option ℕ} {c : Ctx α} {a : Option ℕ}
    (hag : ∀ i ∈ ids c, h' i = h i) (hc : Linked h top c a) : Linked h' top c a := by
  induction c generalizing a with
  | nil => trivial
  | cons f c ih =>
    obtain ⟨hi, hs, hc⟩ := hc
    rw [ids_cons] at hag
    refine ⟨(hag _ List.mem_cons_self).trans hi, hs.frame fun j hj => ?_, ih (fun j hj => ?_) hc⟩
    · exact hag j (List.mem_cons_of_mem _ (List.mem_append_left _ hj))
    · exact hag j (List.mem_cons_of_mem _ (List.mem_append_right _ hj))

/-- Frames below a parent around a hole with something at an address, as a piece of the
heap. -/
def piece (top : Option ℕ) (c : Ctx α) (a : Option ℕ) : Piece (Node α) where
  ids := ids c
  holds h := Linked h top c a
  frame hag hc := hc.frame hag

theorem entries_plug (c : Ctx α) (t : LTree α) :
    (plug c t).entries = before c ++ (t.entries ++ after c) := by
  induction c generalizing t with
  | nil => exact (List.append_nil _).symm
  | cons f c ih =>
    rw [plug_cons, ih, before, after]
    cases f.dir with
    | left => simp only [join, LTree.entries, List.append_assoc, List.cons_append]
    | right => simp only [join, LTree.entries, List.append_assoc, List.cons_append,
        List.nil_append]

theorem addr_plug (c : Ctx α) (t : LTree α) : (plug c t).addr = rootAddr c t.addr := by
  induction c generalizing t with
  | nil => rfl
  | cons f c ih => rw [plug_cons, ih, addr_join, rootAddr_cons]

theorem ids_plug (c : Ctx α) (t : LTree α) : (plug c t).ids.Perm (ids c ++ t.ids) := by
  induction c generalizing t with
  | nil => exact List.Perm.refl _
  | cons f c ih =>
    rw [plug_cons]
    refine (ih _).trans ?_
    refine ((ids_join f.dir f.id f.val t f.sib).append_left _).trans ?_
    rw [ids_cons]
    refine List.perm_middle.trans ?_
    rw [List.cons_append]
    refine List.Perm.cons _ ?_
    rw [List.append_assoc]
    refine (List.perm_append_comm.append_left (ids c)).trans ?_
    rw [← List.append_assoc]
    refine (List.perm_append_comm.append_right t.ids).trans ?_
    rw [List.append_assoc]

theorem linked_plug {h : Heap (Node α)} {top : Option ℕ} {c : Ctx α} {t : LTree α} :
    LTree.Linked h top (plug c t) ↔ Linked h top c t.addr ∧ LTree.Linked h (parent top c) t := by
  induction c generalizing t with
  | nil => exact ⟨fun ht => ⟨trivial, ht⟩, fun ht => ht.2⟩
  | cons f c ih =>
    rw [plug_cons, ih, addr_join, linked_join, linked_cons, parent_cons]
    constructor
    · rintro ⟨hc, hi, ht, hs⟩
      exact ⟨⟨hi, hs, hc⟩, ht⟩
    · rintro ⟨⟨hi, hs, hc⟩, ht⟩
      exact ⟨hc, hi, ht, hs⟩

theorem plug_append (c1 c2 : Ctx α) (t : LTree α) : plug (c1 ++ c2) t = plug c2 (plug c1 t) := by
  induction c1 generalizing t with
  | nil => rfl
  | cons f c1 ih => rw [List.cons_append, plug_cons, ih, plug_cons]

theorem ids_append (c1 c2 : Ctx α) : ids (c1 ++ c2) = ids c1 ++ ids c2 := by
  induction c1 with
  | nil => rfl
  | cons f c1 ih => simp only [List.cons_append, ids_cons, ih, List.append_assoc]

theorem rootAddr_append (c1 c2 : Ctx α) (a : Option ℕ) :
    rootAddr (c1 ++ c2) a = rootAddr c2 (rootAddr c1 a) := by
  induction c1 generalizing a with
  | nil => rfl
  | cons f c1 ih => rw [List.cons_append, rootAddr_cons, ih, rootAddr_cons]

theorem rootAddr_of_ne_nil {c : Ctx α} (h : c ≠ []) (a b : Option ℕ) :
    rootAddr c a = rootAddr c b := by
  cases c with
  | nil => exact absurd rfl h
  | cons f c => rfl

theorem parent_of_ne_nil {c : Ctx α} (h : c ≠ []) (p q : Option ℕ) : parent p c = parent q c := by
  cases c with
  | nil => exact absurd rfl h
  | cons f c => rfl

theorem parent_append (top : Option ℕ) (c1 c2 : Ctx α) :
    parent top (c1 ++ c2) = parent (parent top c2) c1 := by
  cases c1 <;> rfl

theorem linked_append {h : Heap (Node α)} {top : Option ℕ} {c1 c2 : Ctx α} {a : Option ℕ} :
    Linked h top (c1 ++ c2) a ↔
      Linked h (parent top c2) c1 a ∧ Linked h top c2 (rootAddr c1 a) := by
  induction c1 generalizing a with
  | nil => exact ⟨fun hc => ⟨trivial, hc⟩, fun hc => hc.2⟩
  | cons f c1 ih =>
    rw [List.cons_append, linked_cons, ih, linked_cons, parent_append, rootAddr_cons, and_assoc,
      and_assoc]

theorem length_le_ids (c : Ctx α) : c.length ≤ (ids c).length := by
  induction c with
  | nil => exact Nat.le_refl _
  | cons f c ih =>
    rw [ids_cons, List.length_cons, List.length_cons, List.length_append]
    omega

/-- Neither a way up nor a way down in a tree is longer than the number of its nodes. -/
theorem ways_le {c : Ctx α} {t : LTree α} {k : ℕ} (hk : (plug c t).ids.length ≤ k) :
    c.length ≤ k ∧ t.height ≤ k := by
  have hc := length_le_ids c
  have ht := height_le_ids t
  rw [(ids_plug c t).length_eq, List.length_append] at hk
  omega

end Ctx

/-! ## Pieces of a tree -/

section Pieces

variable {α : Type*} {h : Heap (Node α)}

open LTree Ctx

/-- A tree is its root and its two subtrees. -/
theorem same_join (p : Option ℕ) (d : Dir) (i : ℕ) (v : α) (x y : LTree α) :
    Same [LTree.piece p (join d i v x y)]
      [cell i (Node.mk' d x.addr y.addr p v), LTree.piece (some i) x, LTree.piece (some i) y] where
  ids := by
    have hx : idsOf [LTree.piece p (join d i v x y)] = (join d i v x y).ids := List.append_nil _
    have hy : idsOf [cell i (Node.mk' d x.addr y.addr p v), LTree.piece (some i) x,
        LTree.piece (some i) y] = i :: (x.ids ++ y.ids) := by
      simp only [idsOf_cons, idsOf_nil, List.append_nil]
      rfl
    rw [hx, hy]
    exact (ids_join d i v x y).symm
  holds h := by
    rw [holds_one, holds_three]
    exact linked_join

/-- An empty tree speaks about nothing. -/
theorem same_nil (p : Option ℕ) : Same [LTree.piece p (nil : LTree α)] [] :=
  ⟨List.Perm.refl _, fun _ => ⟨fun _ _ hx => absurd hx List.not_mem_nil,
    fun _ => holds_one.mpr trivial⟩⟩

/-- A tree of one node is its cell. -/
theorem same_leaf (p : Option ℕ) (i : ℕ) (v : α) :
    Same [LTree.piece p (node i v nil nil)] [cell i ⟨none, none, p, v⟩] where
  ids := List.Perm.refl _
  holds h := by
    rw [holds_one, holds_one]
    exact ⟨fun hi => hi.1, fun hi => ⟨hi, trivial, trivial⟩⟩

/-- A tree is what surrounds a hole and what is in it. -/
theorem same_plug (top : Option ℕ) (c : Ctx α) (t : LTree α) :
    Same [LTree.piece top (plug c t)] [Ctx.piece top c t.addr, LTree.piece (parent top c) t] where
  ids := by
    have hx : idsOf [LTree.piece top (plug c t)] = (plug c t).ids := List.append_nil _
    have hy : idsOf [Ctx.piece top c t.addr, LTree.piece (parent top c) t] = Ctx.ids c ++ t.ids := by
      simp only [idsOf_cons, idsOf_nil, List.append_nil]
      rfl
    rw [hx, hy]
    exact (ids_plug c t).symm
  holds h := by
    rw [holds_one, holds_two]
    exact linked_plug

/-- The frames around a hole are the innermost node, its other subtree and the rest. -/
theorem same_frame (top : Option ℕ) (f : Frame α) (c : Ctx α) (a : Option ℕ) :
    Same [Ctx.piece top (f :: c) a]
      [cell f.id (Node.mk' f.dir a f.sib.addr (parent top c) f.val),
        LTree.piece (some f.id) f.sib, Ctx.piece top c (some f.id)] where
  ids := by
    simp only [idsOf_cons, idsOf_nil, List.append_nil]
    exact List.Perm.refl _
  holds h := by
    rw [holds_one, holds_three]
    exact Iff.rfl

/-- Frames fall into two parts. -/
theorem same_append (top : Option ℕ) (c1 c2 : Ctx α) (a : Option ℕ) :
    Same [Ctx.piece top (c1 ++ c2) a]
      [Ctx.piece (parent top c2) c1 a, Ctx.piece top c2 (rootAddr c1 a)] where
  ids := by
    have hx : idsOf [Ctx.piece top (c1 ++ c2) a] = Ctx.ids (c1 ++ c2) := List.append_nil _
    have hy : idsOf [Ctx.piece (parent top c2) c1 a, Ctx.piece top c2 (rootAddr c1 a)] =
        Ctx.ids c1 ++ Ctx.ids c2 := by
      simp only [idsOf_cons, idsOf_nil, List.append_nil]
      rfl
    rw [hx, hy, ids_append]
  holds h := by
    rw [holds_one, holds_two]
    exact linked_append

end Pieces

/-! ## Changing pointers -/

namespace Links

variable {α : Type*} {s : Links α} {qs : List (Piece (Node α))}

open LTree Ctx

/-- The node of a cell is read. -/
theorem get_eq {i : ℕ} {n : Node α} (ps : List (Piece (Node α)))
    (h : Holds s.heap (ps ++ (cell i n :: qs))) : s.get (some i) = some n := h.read ps

/-- The node of a cell is changed. -/
theorem write_spec {i : ℕ} {n : Node α} (ps : List (Piece (Node α)))
    (h : Holds s.heap (ps ++ (cell i n :: qs))) (f : Node α → Node α) :
    ∃ s', s.write (some i) f = some s' ∧ s'.root = s.root ∧
      Holds s'.heap (ps ++ (cell i (f n) :: qs)) := by
  refine ⟨⟨Function.update s.heap i (some (f n)), s.root⟩, ?_, rfl, h.write ps (f n)⟩
  rw [write, h.read ps]

/-- The parent of a tree is changed. -/
theorem setParent_spec {p : Option ℕ} {t : LTree α} (ps : List (Piece (Node α)))
    (h : Holds s.heap (ps ++ (LTree.piece p t :: qs))) (q : Option ℕ) :
    ∃ s', s.setParent t.addr q = some s' ∧ s'.root = s.root ∧
      Holds s'.heap (ps ++ (LTree.piece q t :: qs)) := by
  cases t with
  | nil =>
    have he : Same [LTree.piece p (nil : LTree α)] [LTree.piece q nil] :=
      ⟨List.Perm.refl _, fun _ => Iff.rfl⟩
    have h1 := h.same ps qs he
    exact ⟨s, rfl, rfl, h1⟩
  | node i v l r =>
    have h1 := h.same ps qs (same_join p .left i v l r)
    obtain ⟨s', hw, hroot, h2⟩ := write_spec ps h1 (fun n => n.setP q)
    exact ⟨s', hw, hroot, h2.same ps qs (same_join q .left i v l r).symm⟩

/-- The parent above some frames is changed. -/
theorem setParent_ctx_spec {p : Option ℕ} {c : Ctx α} {a : Option ℕ} (hc : c ≠ [])
    (ps : List (Piece (Node α))) (h : Holds s.heap (ps ++ (Ctx.piece p c a :: qs)))
    (q : Option ℕ) :
    ∃ s', s.setParent (rootAddr c a) q = some s' ∧ s'.root = s.root ∧
      Holds s'.heap (ps ++ (Ctx.piece q c a :: qs)) := by
  obtain ⟨c, f, rfl⟩ := (List.eq_nil_or_concat c).resolve_left hc
  rw [List.concat_eq_append] at h ⊢
  have hempty : ∀ x, Same [Ctx.piece p ([] : Ctx α) x] [Ctx.piece q ([] : Ctx α) x] := fun _ =>
    ⟨List.Perm.refl _, fun _ => Iff.rfl⟩
  have h1 := h.same ps qs (same_append p c [f] a)
  have h2 : Holds s.heap ((ps ++ [Ctx.piece (some f.id) c a]) ++
      ([Ctx.piece p [f] (rootAddr c a)] ++ qs)) := by
    rw [List.append_assoc]
    exact h1
  have h3 := h2.same _ qs (same_frame p f [] (rootAddr c a))
  obtain ⟨s', hw, hroot, h4⟩ := write_spec _ h3 (fun n => n.setP q)
  rw [Node.setP_mk'] at h4
  have h5 : Holds s'.heap ((ps ++ [Ctx.piece (some f.id) c a, cell f.id (Node.mk' f.dir
      (rootAddr c a) f.sib.addr q f.val), LTree.piece (some f.id) f.sib]) ++
      ([Ctx.piece p [] (some f.id)] ++ qs)) := by
    rw [List.append_assoc] at h4 ⊢
    exact h4
  have h6 := h5.same _ qs (hempty _)
  have h7 : Holds s'.heap ((ps ++ [Ctx.piece (some f.id) c a]) ++
      ([cell f.id (Node.mk' f.dir (rootAddr c a) f.sib.addr q f.val),
        LTree.piece (some f.id) f.sib, Ctx.piece q [] (some f.id)] ++ qs)) := by
    rw [List.append_assoc] at h6 ⊢
    exact h6
  have h8 := h7.same _ qs (same_frame q f [] (rootAddr c a)).symm
  rw [List.append_assoc] at h8
  refine ⟨s', ?_, hroot, h8.same ps qs (same_append q c [f] a).symm⟩
  rw [rootAddr_append]
  exact hw

/-- `parent->l` or `parent->r`, whichever was the original child, becomes another one; the
root if there is no parent. -/
def replaceChild (s : Links α) (parent : Option ℕ) (original node : ℕ) : Option (Links α) :=
  match parent with
  | none => some { s with root := some node }
  | some p => s.write (some p) fun n =>
    if n.l = some original then n.setChild .left (some node) else n.setChild .right (some node)

/-- What is in the hole of some frames is exchanged. -/
theorem replaceChild_ctx_spec {top : Option ℕ} {c : Ctx α} {x y : ℕ} (hc : c ≠ [])
    (ps : List (Piece (Node α))) (h : Holds s.heap (ps ++ (Ctx.piece top c (some x) :: qs)))
    (hx : x ∉ Ctx.ids c) :
    ∃ s', s.replaceChild (parent top c) x y = some s' ∧ s'.root = s.root ∧
      Holds s'.heap (ps ++ (Ctx.piece top c (some y) :: qs)) := by
  obtain ⟨f, c, rfl⟩ := List.exists_cons_of_ne_nil hc
  have hsib : f.sib.addr ≠ some x := fun he =>
    hx (List.mem_cons_of_mem _ (List.mem_append_left _ (addr_mem he)))
  have h1 := h.same ps qs (same_frame top f c (some x))
  obtain ⟨s', hw, hroot, h2⟩ := write_spec ps h1 fun n =>
    if n.l = some x then n.setChild .left (some y) else n.setChild .right (some y)
  have hnode : (if (Node.mk' f.dir (some x) f.sib.addr (parent top c) f.val).l = some x then
        (Node.mk' f.dir (some x) f.sib.addr (parent top c) f.val).setChild .left (some y)
      else (Node.mk' f.dir (some x) f.sib.addr (parent top c) f.val).setChild .right (some y)) =
      Node.mk' f.dir (some y) f.sib.addr (parent top c) f.val := by
    cases f.dir with
    | left => exact if_pos rfl
    | right => exact if_neg hsib
  rw [hnode] at h2
  have h3 := h2.same ps qs (same_frame top f c (some y)).symm
  exact ⟨s', hw, hroot, h3⟩

/-- What is in a hole of a whole tree is exchanged. -/
theorem replaceChild_spec {c : Ctx α} {x y : ℕ} (ps : List (Piece (Node α)))
    (h : Holds s.heap (ps ++ (Ctx.piece none c (some x) :: qs))) (hx : x ∉ Ctx.ids c)
    (hroot : s.root = rootAddr c (some x)) :
    ∃ s', s.replaceChild (parent none c) x y = some s' ∧ s'.root = rootAddr c (some y) ∧
      Holds s'.heap (ps ++ (Ctx.piece none c (some y) :: qs)) := by
  cases c with
  | nil =>
    have he : Same [Ctx.piece none ([] : Ctx α) (some x)] [Ctx.piece none [] (some y)] :=
      ⟨List.Perm.refl _, fun _ => Iff.rfl⟩
    have h1 := h.same ps qs he
    exact ⟨{ s with root := some y }, rfl, rfl, h1⟩
  | cons f c =>
    obtain ⟨s', e, hr, h'⟩ := replaceChild_ctx_spec (y := y) (List.cons_ne_nil f c) ps h hx
    exact ⟨s', e, hr.trans hroot, h'⟩

/-- The links of a whole tree, and no other node matters. -/
structure Stands (s : Links α) (t : LTree α) : Prop where
  root_eq : s.root = t.addr
  holds : Holds s.heap [LTree.piece none t]

/-- No address is used twice. -/
theorem Stands.nodup {s : Links α} {t : LTree α} (h : s.Stands t) : t.ids.Nodup := by
  have hnd := h.holds.nodup
  rwa [idsOf_cons, idsOf_nil, List.append_nil] at hnd

/-- No address in a tree is the address of a frame above it. -/
theorem Stands.disjoint {s : Links α} {c : Ctx α} {t : LTree α} (h : s.Stands (plug c t)) {i j : ℕ}
    (hi : i ∈ Ctx.ids c) (hj : j ∈ t.ids) : i ≠ j := by
  have hnd := (ids_plug c t).nodup_iff.mp h.nodup
  exact (List.nodup_append.mp hnd).2.2 i hi j hj

/-- A tree with a node in focus: the frames above it and its two subtrees. -/
theorem Stands.focus {s : Links α} {c : Ctx α} {d : Dir} {i : ℕ} {v : α} {x y : LTree α}
    (h : s.Stands (plug c (join d i v x y))) :
    s.root = rootAddr c (some i) ∧ Holds s.heap [Ctx.piece none c (some i),
      cell i (Node.mk' d x.addr y.addr (parent none c) v), LTree.piece (some i) x,
      LTree.piece (some i) y] := by
  have h1 := h.holds.same [] [] (same_plug none c (join d i v x y))
  have h2 := Holds.same [Ctx.piece none c (join d i v x y).addr] [] h1
    (same_join (parent none c) d i v x y)
  have hr := h.root_eq
  rw [addr_plug, addr_join] at hr
  rw [addr_join] at h2
  exact ⟨hr, h2⟩

/-- The pieces around a node in focus make a tree. -/
theorem Stands.of_focus {s : Links α} {c : Ctx α} {d : Dir} {i : ℕ} {v : α} {x y : LTree α}
    (hroot : s.root = rootAddr c (some i))
    (h : Holds s.heap [Ctx.piece none c (some i),
      cell i (Node.mk' d x.addr y.addr (parent none c) v), LTree.piece (some i) x,
      LTree.piece (some i) y]) : s.Stands (plug c (join d i v x y)) := by
  have h1 := Holds.same [Ctx.piece none c (some i)] [] h
    (same_join (parent none c) d i v x y).symm
  refine ⟨by rw [addr_plug, addr_join, hroot], ?_⟩
  rw [← addr_join d i v x y] at h1
  exact Holds.same [] [] h1 (same_plug none c (join d i v x y)).symm

/-- The node in focus is read. -/
theorem Stands.get_eq {s : Links α} {c : Ctx α} {d : Dir} {i : ℕ} {v : α} {x y : LTree α}
    (h : s.Stands (plug c (join d i v x y))) :
    s.get (some i) = some (Node.mk' d x.addr y.addr (parent none c) v) :=
  Links.get_eq [_] h.focus.2

/-- What the node in focus holds is changed. -/
theorem Stands.write_val {s : Links α} {c : Ctx α} {d : Dir} {i : ℕ} {v : α} {x y : LTree α}
    (h : s.Stands (plug c (join d i v x y))) (f : α → α) :
    ∃ s', s.write (some i) (fun n => { n with val := f n.val }) = some s' ∧
      s'.Stands (plug c (join d i (f v) x y)) := by
  obtain ⟨hroot, hf⟩ := h.focus
  obtain ⟨s', hw, hr, h'⟩ := write_spec [_] hf (fun n => { n with val := f n.val })
  rw [Node.withVal_mk', Node.val_mk'] at h'
  exact ⟨s', hw, Stands.of_focus (hr.trans hroot) h'⟩

/-- The address in a hole is not the address of a frame. -/
theorem not_mem_ids {h : Heap (Node α)} {c : Ctx α} {a : Option ℕ} {i : ℕ} {n : Node α}
    {qs : List (Piece (Node α))} (hold : Holds h (Ctx.piece none c a :: cell i n :: qs)) :
    i ∉ Ctx.ids c := by
  intro hi
  have hnd := hold.nodup
  rw [idsOf_cons, idsOf_cons] at hnd
  exact (List.nodup_append.mp hnd).2.2 i hi i
    (List.mem_append_left _ (List.mem_singleton.mpr rfl)) rfl

end Links

end HM4.LinkedTree
