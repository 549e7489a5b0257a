import HM4.AVLLinks

/-!
# Rebalancing

Every stored balance is the difference of the heights of the two subtrees and at
most one. On the way up from a subtree that has grown or shrunk by one the frames
still expect the old height; each step restores one node and either ends or hands
the difference on.
-/

namespace HM4.AVLBalance

open LinkedTree LinkedTree.LTree LinkedTree.Ctx LinkedTree.Links AVLList AVLLinks

/-- Stored balances are right and at most one. -/
def Avl : LTree Item → Prop
  | nil => True
  | node _ v l r => v.balance = (r.height : ℤ) - l.height ∧ -1 ≤ v.balance ∧ v.balance ≤ 1 ∧
      Avl l ∧ Avl r

/-- Stored balances of the frames are right and at most one, with a subtree of some
height in the hole. -/
def CtxAvl : Ctx Item → ℕ → Prop
  | [], _ => True
  | f :: c, k => f.val.balance = sign f.dir * ((k : ℤ) - f.sib.height) ∧ -1 ≤ f.val.balance ∧
      f.val.balance ≤ 1 ∧ Avl f.sib ∧ CtxAvl c (max k f.sib.height + 1)

/-- The balance stored at the root. -/
def rootBalance : LTree Item → ℤ
  | nil => 0
  | node _ v _ _ => v.balance

/-- The nodes and their pairs in order. -/
def cells (t : LTree Item) : List (ℕ × Pairs.Pair) := t.entries.map fun e => (e.1, e.2.data)

theorem avl_join {d : Dir} {i : ℕ} {v : Item} {x y : LTree Item} :
    Avl (join d i v x y) ↔ v.balance = sign d * ((x.height : ℤ) - y.height) ∧ -1 ≤ v.balance ∧
      v.balance ≤ 1 ∧ Avl x ∧ Avl y := by
  cases d with
  | left =>
    rw [join, Avl, sign]
    have he : -1 * ((x.height : ℤ) - y.height) = (y.height : ℤ) - x.height := by omega
    rw [he]
  | right =>
    rw [join, Avl, sign, one_mul]
    tauto

theorem rootBalance_join (d : Dir) (i : ℕ) (v : Item) (x y : LTree Item) :
    rootBalance (join d i v x y) = v.balance := by cases d <;> rfl

/-- A tree that is not empty has a root. -/
theorem exists_join (d : Dir) {t : LTree Item} (h : 0 < t.height) :
    ∃ i v x y, t = join d i v x y := by
  cases t with
  | nil => exact absurd h (lt_irrefl 0)
  | node i v l r =>
    cases d with
    | left => exact ⟨i, v, l, r, rfl⟩
    | right => exact ⟨i, v, r, l, rfl⟩

theorem exists_join_of_addr {t : LTree Item} {i : ℕ} (h : t.addr = some i) :
    ∃ v x y, t = join .left i v x y := by
  cases t with
  | nil => exact absurd h.symm (Option.some_ne_none i)
  | node j v l r =>
    obtain rfl := Option.some_inj.mp h
    exact ⟨v, l, r, rfl⟩

theorem avl_plug {c : Ctx Item} {t : LTree Item} :
    Avl (plug c t) ↔ Avl t ∧ CtxAvl c t.height := by
  induction c generalizing t with
  | nil => exact ⟨fun h => ⟨h, trivial⟩, fun h => h.1⟩
  | cons f c ih =>
    rw [plug, ih, avl_join, height_join, CtxAvl]
    tauto

theorem cells_plug (c : Ctx Item) (t : LTree Item) :
    cells (plug c t) = (before c).map (fun e => (e.1, e.2.data)) ++
      (cells t ++ (after c).map (fun e => (e.1, e.2.data))) := by
  rw [cells, entries_plug, List.map_append, List.map_append]
  rfl

theorem cells_plug_congr {c : Ctx Item} {t t' : LTree Item} (h : cells t = cells t') :
    cells (plug c t) = cells (plug c t') := by rw [cells_plug, cells_plug, h]

/-- The order of a node with a child on a side does not depend on which of the two is on
top. -/
theorem cells_rotate (d : Dir) {n r : ℕ} {v v' w w' : Item} {C T A : LTree Item}
    (hv : v'.data = v.data) (hw : w'.data = w.data) :
    cells (join d r w' C (join d n v' T A)) = cells (join d n v (join d r w C T) A) := by
  cases d <;> simp [cells, join, entries, hv, hw]

theorem cells_rotateTwice (d : Dir) {n r g : ℕ} {v v' w w' u u' : Item} {C X Y A : LTree Item}
    (hv : v'.data = v.data) (hw : w'.data = w.data) (hu : u'.data = u.data) :
    cells (join d g u' (join d r w' C X) (join d n v' Y A)) =
      cells (join d n v (join d r w C (join d g u X Y)) A) := by
  cases d <;> simp [cells, join, entries, hv, hw, hu]

/-- A node hangs below the root of a tree. -/
def Below (s : Links Item) (n : ℕ) (t : LTree Item) : Prop :=
  ∃ i m, t.addr = some i ∧ s.get (some n) = some m ∧ m.p = some i

theorem below_join {s : Links Item} {c : Ctx Item} {d : Dir} {i n : ℕ} {u v : Item}
    {Z x y : LTree Item} (h : s.Stands (plug c (join d i u Z (join d n v x y)))) :
    Below s n (join d i u Z (join d n v x y)) := by
  have h1 : s.Stands (plug (⟨d.flip, i, u, Z⟩ :: c) (join d n v x y)) := by
    rw [plug, join_flip]
    exact h
  exact ⟨i, _, addr_join d i u _ _, h1.get_eq, Node.p_mk' _ _ _ _ _⟩

/-- A node whose child on a side is two higher and leans to the other side is repaired by a
double rotation. -/
theorem heavyTwice {d : Dir} {s : Links Item} {c : Ctx Item} {n r : ℕ} {v w : Item}
    {C T A : LTree Item} (h : s.Stands (plug c (join d n v (join d r w C T) A)))
    (hC : Avl C) (hT : Avl T) (hA : Avl A) (hCA : C.height = A.height)
    (hTA : T.height = A.height + 1) :
    ∃ s' t', rebalanceTwice d s n = some s' ∧ s'.Stands (plug c t') ∧ Avl t' ∧
      t'.height = A.height + 2 ∧ cells t' = cells (join d n v (join d r w C T) A) ∧
      Below s' n t' := by
  obtain ⟨g, u, X, Y, rfl⟩ := exists_join d (t := T) (by omega)
  obtain ⟨s', e, h'⟩ := rebalanceTwice_spec h
  obtain ⟨hu, hlo, hhi, hX, hY⟩ := avl_join.mp hT
  rw [height_join] at hTA
  refine ⟨s', _, e, h', ?_, ?_, cells_rotateTwice d rfl rfl rfl, below_join h'⟩
  · rw [avl_join, avl_join, avl_join, height_join, height_join]
    simp only [withBalance_balance]
    cases d with
    | left =>
      simp only [sign] at hu ⊢
      refine ⟨?_, ?_, ?_, ⟨?_, ?_, ?_, hC, hX⟩, ?_, ?_, ?_, hY, hA⟩ <;> omega
    | right =>
      simp only [sign] at hu ⊢
      refine ⟨?_, ?_, ?_, ⟨?_, ?_, ?_, hC, hX⟩, ?_, ?_, ?_, hY, hA⟩ <;> omega
  · rw [height_join, height_join, height_join]
    cases d with
    | left =>
      simp only [sign] at hu
      omega
    | right =>
      simp only [sign] at hu
      omega

/-- The two balances that a single rotation needs, set before it. -/
theorem rotate_balanced {d : Dir} {s : Links Item} {c : Ctx Item} {n r : ℕ} {v w : Item}
    {C T A : LTree Item} (h : s.Stands (plug c (join d n v (join d r w C T) A))) (a b : ℤ) :
    ∃ s1 s2 s', setBalance s (some n) a = some s1 ∧ setBalance s1 (some r) b = some s2 ∧
      rotate d s2 n = some s' ∧
      s'.Stands (plug c (join d r (withBalance w b) C (join d n (withBalance v a) T A))) := by
  obtain ⟨s1, e1, h1⟩ := setBalance_spec h a
  have h1' : s1.Stands (plug (⟨d, n, withBalance v a, A⟩ :: c) (join d r w C T)) := h1
  obtain ⟨s2, e2, h2⟩ := setBalance_spec h1' b
  have h2' : s2.Stands (plug c (join d n (withBalance v a) (join d r (withBalance w b) C T) A)) := h2
  obtain ⟨s', e3, h3⟩ := rotate_spec h2'
  exact ⟨s1, s2, s', e1, e2, e3, h3⟩

/-- The child on a side is read through the node. -/
theorem child_balance {d : Dir} {s : Links Item} {c : Ctx Item} {n r : ℕ} {v w : Item}
    {C T A : LTree Item} (h : s.Stands (plug c (join d n v (join d r w C T) A))) :
    s.get (some n) = some (Node.mk' d (some r) A.addr (parent none c) v) ∧
      getBalance s (some r) = some w.balance := by
  have gn := h.get_eq
  rw [addr_join] at gn
  have hr : s.Stands (plug (⟨d, n, v, A⟩ :: c) (join d r w C T)) := h
  exact ⟨gn, getBalance_spec hr⟩

theorem sign_cases {d : Dir} {b : ℤ} (h1 : -1 ≤ b) (h2 : b ≤ 1) :
    b = sign d ∨ b = 0 ∨ b = -sign d := by
  cases d <;> simp only [sign] <;> omega

/-- After an insert a node that is too heavy is repaired and has the height it had before. -/
theorem rebalanceHeavyInsert_spec {d : Dir} {s : Links Item} {c : Ctx Item} {n : ℕ} {v : Item}
    {x A : LTree Item} (h : s.Stands (plug c (join d n v x A))) (hx : Avl x) (hA : Avl A)
    (hheight : x.height = A.height + 2) (hne : rootBalance x ≠ 0) :
    ∃ s' t', rebalanceHeavyInsert d s n = some s' ∧ s'.Stands (plug c t') ∧ Avl t' ∧
      t'.height = A.height + 2 ∧ cells t' = cells (join d n v x A) := by
  obtain ⟨r, w, C, T, rfl⟩ := exists_join d (t := x) (by omega)
  obtain ⟨gn, gr⟩ := child_balance h
  obtain ⟨hw, hlo, hhi, hC, hT⟩ := avl_join.mp hx
  rw [rootBalance_join] at hne
  rw [height_join] at hheight
  rcases sign_cases (d := d) hlo hhi with hs | hs | hs
  · obtain ⟨s1, s2, s', e1, e2, e3, h'⟩ := rotate_balanced h 0 0
    refine ⟨s', _, ?_, h', ?_, ?_, cells_rotate d rfl rfl⟩
    · simp only [rebalanceHeavyInsert, gn, gr, Node.child_mk', hs, if_true, e1, e2, e3,
        Option.bind_eq_bind, Option.bind_some]
    · rw [avl_join, avl_join, height_join]
      simp only [withBalance_balance]
      cases d with
      | left =>
        simp only [sign] at hw hs ⊢
        refine ⟨?_, ?_, ?_, hC, ?_, ?_, ?_, hT, hA⟩ <;> omega
      | right =>
        simp only [sign] at hw hs ⊢
        refine ⟨?_, ?_, ?_, hC, ?_, ?_, ?_, hT, hA⟩ <;> omega
    · rw [height_join, height_join]
      cases d <;> simp only [sign] at hw hs <;> omega
  · exact absurd hs hne
  · have hne' : w.balance ≠ sign d := hs ▸ (sign_ne_neg d).symm
    obtain ⟨s', t', e, h', ht', hh, hc, _⟩ := heavyTwice h hC hT hA
      (by cases d <;> simp only [sign] at hw hs <;> omega)
      (by cases d <;> simp only [sign] at hw hs <;> omega)
    refine ⟨s', t', ?_, h', ht', hh, hc⟩
    simp only [rebalanceHeavyInsert, gn, gr, Node.child_mk', if_neg hne', e,
      Option.bind_eq_bind, Option.bind_some]

/-- After an erase a node that is too heavy is repaired; it keeps its height exactly if its
child was even. -/
theorem rebalanceHeavyErase_spec {d : Dir} {s : Links Item} {c : Ctx Item} {n : ℕ} {v : Item}
    {x A : LTree Item} (h : s.Stands (plug c (join d n v x A))) (hx : Avl x) (hA : Avl A)
    (hheight : x.height = A.height + 2) :
    ∃ s' t' done, rebalanceHeavyErase d s n = some (s', done) ∧ s'.Stands (plug c t') ∧ Avl t' ∧
      t'.height = A.height + (if done then 3 else 2) ∧ cells t' = cells (join d n v x A) ∧
      Below s' n t' := by
  obtain ⟨r, w, C, T, rfl⟩ := exists_join d (t := x) (by omega)
  obtain ⟨gn, gr⟩ := child_balance h
  obtain ⟨hw, hlo, hhi, hC, hT⟩ := avl_join.mp hx
  rw [height_join] at hheight
  rcases sign_cases (d := d) hlo hhi with hs | hs | hs
  · obtain ⟨s1, s2, s', e1, e2, e3, h'⟩ := rotate_balanced h 0 0
    refine ⟨s', _, false, ?_, h', ?_, ?_, cells_rotate d rfl rfl, below_join h'⟩
    · simp only [rebalanceHeavyErase, gn, gr, Node.child_mk', hs, if_true, e1, e2, e3,
        Option.bind_eq_bind, Option.bind_some, Option.pure_def]
    · rw [avl_join, avl_join, height_join]
      simp only [withBalance_balance]
      cases d with
      | left =>
        simp only [sign] at hw hs ⊢
        refine ⟨?_, ?_, ?_, hC, ?_, ?_, ?_, hT, hA⟩ <;> omega
      | right =>
        simp only [sign] at hw hs ⊢
        refine ⟨?_, ?_, ?_, hC, ?_, ?_, ?_, hT, hA⟩ <;> omega
    · rw [height_join, height_join, if_neg Bool.false_ne_true]
      cases d <;> simp only [sign] at hw hs <;> omega
  · have hne : (0 : ℤ) ≠ sign d := by cases d <;> decide
    obtain ⟨s1, s2, s', e1, e2, e3, h'⟩ := rotate_balanced h (sign d) (-sign d)
    refine ⟨s', _, true, ?_, h', ?_, ?_, cells_rotate d rfl rfl, below_join h'⟩
    · simp only [rebalanceHeavyErase, gn, gr, Node.child_mk', hs, if_neg hne, if_true, e1, e2, e3,
        Option.bind_eq_bind, Option.bind_some, Option.pure_def]
    · rw [avl_join, avl_join, height_join]
      simp only [withBalance_balance]
      cases d with
      | left =>
        simp only [sign] at hw hs ⊢
        refine ⟨?_, ?_, ?_, hC, ?_, ?_, ?_, hT, hA⟩ <;> omega
      | right =>
        simp only [sign] at hw hs ⊢
        refine ⟨?_, ?_, ?_, hC, ?_, ?_, ?_, hT, hA⟩ <;> omega
    · rw [height_join, height_join, if_pos rfl]
      cases d <;> simp only [sign] at hw hs <;> omega
  · have hne : w.balance ≠ sign d := hs ▸ (sign_ne_neg d).symm
    have hne0 : w.balance ≠ 0 := by cases d <;> simp only [sign] at hs <;> omega
    obtain ⟨s', t', e, h', ht', hh, hc, hb⟩ := heavyTwice h hC hT hA
      (by cases d <;> simp only [sign] at hw hs <;> omega)
      (by cases d <;> simp only [sign] at hw hs <;> omega)
    refine ⟨s', t', false, ?_, h', ht', hh, hc, hb⟩
    simp only [rebalanceHeavyErase, gn, gr, Node.child_mk', if_neg hne, if_neg hne0, e,
      Option.bind_eq_bind, Option.bind_some, Option.pure_def]

/-! ## The loops -/

theorem cells_join_congr {d : Dir} {i : ℕ} {v v' : Item} {x x' y : LTree Item}
    (hv : v'.data = v.data) (hx : cells x' = cells x) :
    cells (join d i v' x' y) = cells (join d i v x y) := by
  unfold cells at hx ⊢
  cases d <;> simp [join, entries, hv, hx]

/-- The parent's left link tells on which side a subtree is. -/
theorem parent_l_iff {s : Links Item} {f : Frame Item} {c : Ctx Item} {t : LTree Item} {n : ℕ}
    (h : s.Stands (plug (f :: c) t)) (ht : t.addr = some n) :
    (Node.mk' f.dir (some n) f.sib.addr (parent none c) f.val).l = some n ↔ f.dir = .left := by
  cases hd : f.dir with
  | left => exact iff_of_true rfl rfl
  | right =>
    refine iff_of_false (fun he => ?_) (by decide)
    have hs : n ∈ Ctx.ids (f :: c) :=
      List.mem_cons_of_mem _ (List.mem_append_left _ (addr_mem he))
    exact h.disjoint hs (addr_mem ht) rfl

/-- A node whose balance was changed because the subtree on one side has grown, where a
subtree of height `k` used to be. -/
structure Grown (k : ℕ) (d : Dir) (v : Item) (x y : LTree Item) : Prop where
  avl_x : Avl x
  avl_y : Avl y
  balance : v.balance = sign d * ((x.height : ℤ) - y.height)
  shape : v.balance = 0 ∧ max x.height y.height + 1 = k ∨
    (v.balance = 1 ∨ v.balance = -1) ∧ max x.height y.height = k ∨
    x.height = y.height + 2 ∧ rootBalance x ≠ 0 ∧ x.height = k

/-- The node above a subtree that leans to one side has grown. -/
theorem Grown.parent {k : ℕ} {d : Dir} {n : ℕ} {v : Item} {x y : LTree Item} {f : Frame Item}
    {c : Ctx Item} (hg : Grown k d v x y) (hb : v.balance = 1 ∨ v.balance = -1)
    (hc : CtxAvl (f :: c) k) :
    Grown (max k f.sib.height + 1) f.dir (withBalance f.val (f.val.balance + sign f.dir))
      (join d n v x y) f.sib where
  avl_x := by
    refine avl_join.mpr ⟨hg.balance, ?_, ?_, hg.avl_x, hg.avl_y⟩ <;> omega
  avl_y := hc.2.2.2.1
  balance := by
    obtain ⟨hf, _⟩ := hc
    have hk := hg.shape
    have hbal := hg.balance
    rw [withBalance_balance, height_join]
    cases hd : f.dir <;> cases d <;> simp only [hd, sign] at hf hbal ⊢ <;> omega
  shape := by
    obtain ⟨hf, hlo, hhi, _⟩ := hc
    have hk := hg.shape
    have hbal := hg.balance
    rw [withBalance_balance, height_join, rootBalance_join]
    cases hd : f.dir <;> cases d <;> simp only [hd, sign] at hf hbal ⊢ <;> omega

/-- A node that does not lean by one ends the loop. -/
theorem rebalanceAfterInsert_here {c : Ctx Item} (fuel : ℕ) {s : Links Item} {d : Dir} {n k : ℕ}
    {v : Item} {x y : LTree Item} (h : s.Stands (plug c (join d n v x y))) (hg : Grown k d v x y)
    (hc : CtxAvl c k) (hv : ¬(v.balance = 1 ∨ v.balance = -1)) :
    ∃ s' t', rebalanceAfterInsert (fuel + 1) s n = some s' ∧ s'.Stands t' ∧ Avl t' ∧
      cells t' = cells (plug c (join d n v x y)) := by
  have hbal := getBalance_spec h
  have hdiff := hg.balance
  rcases hg.shape with ⟨h0, hk⟩ | ⟨h1, _⟩ | ⟨hxy, hroot, hk⟩
  · refine ⟨s, _, ?_, h, avl_plug.mpr ⟨avl_join.mpr ⟨hdiff, ?_, ?_, hg.avl_x, hg.avl_y⟩, ?_⟩, rfl⟩
    · simp only [rebalanceAfterInsert, hbal, h0, if_true, Option.bind_eq_bind, Option.bind_some]
    · omega
    · omega
    · rwa [height_join, hk]
  · exact absurd h1 hv
  · obtain ⟨s', t', e, h', ht', hh, hcells⟩ :=
      rebalanceHeavyInsert_spec h hg.avl_x hg.avl_y hxy hroot
    refine ⟨s', plug c t', ?_, h', avl_plug.mpr ⟨ht', ?_⟩, cells_plug_congr hcells⟩
    · have h2 : v.balance = 2 * sign d := by
        cases d <;> simp only [sign] at hdiff ⊢ <;> omega
      cases d with
      | left =>
        have hb : v.balance = -2 := h2
        have hn0 : (-2 : ℤ) ≠ 0 := by decide
        have hn2 : (-2 : ℤ) ≠ 2 := by decide
        simp only [rebalanceAfterInsert, hbal, hb, if_neg hn0, if_neg hn2, if_true, e,
          Option.bind_eq_bind, Option.bind_some]
      | right =>
        have hb : v.balance = 2 := h2
        have hn0 : (2 : ℤ) ≠ 0 := by decide
        simp only [rebalanceAfterInsert, hbal, hb, if_neg hn0, if_true, e, Option.bind_eq_bind,
          Option.bind_some]
    · rwa [hh, ← hxy, hk]

/-- Rebalancing after an insert restores the tree around a subtree that has grown. -/
theorem rebalanceAfterInsert_spec {c : Ctx Item} {fuel : ℕ} (hfuel : c.length < fuel)
    {s : Links Item} {d : Dir} {n k : ℕ} {v : Item} {x y : LTree Item}
    (h : s.Stands (plug c (join d n v x y))) (hg : Grown k d v x y) (hc : CtxAvl c k) :
    ∃ s' t', rebalanceAfterInsert fuel s n = some s' ∧ s'.Stands t' ∧ Avl t' ∧
      cells t' = cells (plug c (join d n v x y)) := by
  obtain ⟨fuel, rfl⟩ : ∃ m, fuel = m + 1 := ⟨fuel - 1, by omega⟩
  induction c generalizing fuel s d n k v x y with
  | nil =>
    by_cases hv : v.balance = 1 ∨ v.balance = -1
    · have hbal := getBalance_spec h
      have hget := h.get_eq
      have hn0 : v.balance ≠ 0 := by omega
      have hn2 : v.balance ≠ 2 := by omega
      have hn2' : v.balance ≠ -2 := by omega
      refine ⟨s, _, ?_, h, avl_join.mpr ⟨hg.balance, ?_, ?_, hg.avl_x, hg.avl_y⟩, rfl⟩
      · simp only [rebalanceAfterInsert, hbal, hget, if_neg hn0, if_neg hn2, if_neg hn2',
          Node.p_mk', parent_nil, Option.bind_eq_bind, Option.bind_some]
      · omega
      · omega
    · exact rebalanceAfterInsert_here fuel h hg hc hv
  | cons f c ih =>
    by_cases hv : v.balance = 1 ∨ v.balance = -1
    · have hbal := getBalance_spec h
      have hget := h.get_eq
      have hn0 : v.balance ≠ 0 := by omega
      have hn2 : v.balance ≠ 2 := by omega
      have hn2' : v.balance ≠ -2 := by omega
      have hl := parent_l_iff h (addr_join d n v x y)
      have h1 : s.Stands (plug c (join f.dir f.id f.val (join d n v x y) f.sib)) := h
      have hpget := h1.get_eq
      rw [addr_join] at hpget
      obtain ⟨fuel, rfl⟩ : ∃ m, fuel = m + 1 := ⟨fuel - 1, by rw [List.length_cons] at hfuel; omega⟩
      rw [List.length_cons] at hfuel
      have hup : ∃ s1, (if (Node.mk' f.dir (some n) f.sib.addr (parent none c) f.val).l = some n
          then decBalance s (some f.id) else incBalance s (some f.id)) = some s1 ∧
          s1.Stands (plug c (join f.dir f.id (withBalance f.val (f.val.balance + sign f.dir))
            (join d n v x y) f.sib)) := by
        cases hd : f.dir with
        | left =>
          rw [hd] at hl
          rw [if_pos (hl.mpr rfl)]
          rw [hd] at h1
          exact decBalance_spec h1
        | right =>
          rw [hd] at hl
          rw [if_neg fun he => absurd (hl.mp he) (by decide)]
          rw [hd] at h1
          exact incBalance_spec h1
      obtain ⟨s1, e1, h2⟩ := hup
      obtain ⟨s', t', e, h', ht', hcells⟩ :=
        ih h2 (hg.parent hv hc) hc.2.2.2.2 fuel (by omega)
      refine ⟨s', t', ?_, h', ht', ?_⟩
      · rw [rebalanceAfterInsert]
        simp only [hbal, hget, hpget, if_neg hn0, if_neg hn2, if_neg hn2', Node.p_mk', parent_cons,
          Option.bind_eq_bind, Option.bind_some]
        split_ifs at e1 ⊢
        · rw [e1, Option.bind_some, e]
        · rw [e1, Option.bind_some, e]
      · rw [hcells]
        exact cells_plug_congr (cells_join_congr rfl rfl)
    · exact rebalanceAfterInsert_here fuel h hg hc hv

/-- A node whose balance was changed because the subtree on one side has shrunk, where a
subtree of height `k` used to be. -/
structure Shrunk (k : ℕ) (d : Dir) (v : Item) (x y : LTree Item) : Prop where
  avl_x : Avl x
  avl_y : Avl y
  balance : v.balance = sign d * ((x.height : ℤ) - y.height)
  shape : v.balance = 0 ∧ max x.height y.height + 2 = k ∨
    x.height = y.height + 2 ∧ x.height + 1 = k

/-- One node is repaired, and its subtree has the height it had before or one less. -/
theorem rebalanceNodeErase_spec {c : Ctx Item} {s : Links Item} {d : Dir} {n k : ℕ}
    {v : Item} {x y : LTree Item} (h : s.Stands (plug c (join d n v x y))) (hg : Shrunk k d v x y) :
    ∃ s' t' i done, rebalanceNodeErase s n = some (s', some i, done) ∧ t'.addr = some i ∧
      s'.Stands (plug c t') ∧ Avl t' ∧ t'.height + (if done then 0 else 1) = k ∧
      cells t' = cells (join d n v x y) := by
  have hbal := getBalance_spec h
  have hdiff := hg.balance
  rcases hg.shape with ⟨h0, hk⟩ | ⟨hxy, hk⟩
  · have hn2 : (0 : ℤ) ≠ 2 := by decide
    have hn2' : (0 : ℤ) ≠ -2 := by decide
    refine ⟨s, _, n, false, ?_, addr_join d n v x y, h, ?_, ?_, rfl⟩
    · simp only [rebalanceNodeErase, hbal, h0, if_neg hn2, if_neg hn2', Option.bind_eq_bind,
        Option.bind_some, Option.pure_def]
    · refine avl_join.mpr ⟨hdiff, ?_, ?_, hg.avl_x, hg.avl_y⟩ <;> omega
    · rw [height_join, if_neg Bool.false_ne_true]
      omega
  · obtain ⟨s', t', done, e, h', ht', hh, hcells, i, m, ha, hm, hp⟩ :=
      rebalanceHeavyErase_spec h hg.avl_x hg.avl_y hxy
    refine ⟨s', t', i, done, ?_, ha, h', ht', ?_, hcells⟩
    · have h2 : v.balance = 2 * sign d := by
        cases d <;> simp only [sign] at hdiff ⊢ <;> omega
      cases d with
      | left =>
        have hb : v.balance = -2 := h2
        have hn2 : (-2 : ℤ) ≠ 2 := by decide
        simp only [rebalanceNodeErase, hbal, hb, if_neg hn2, if_true, e, hm, hp,
          Option.bind_eq_bind, Option.bind_some, Option.pure_def]
      | right =>
        have hb : v.balance = 2 := h2
        simp only [rebalanceNodeErase, hbal, hb, if_true, e, hm, hp, Option.bind_eq_bind,
          Option.bind_some, Option.pure_def]
    · cases done with
      | false =>
        rw [if_neg Bool.false_ne_true] at hh ⊢
        omega
      | true =>
        rw [if_pos rfl] at hh ⊢
        omega

/-- The node above a subtree that has shrunk leans by one, or has shrunk or become too heavy
itself. -/
theorem shrunk_parent {k : ℕ} {f : Frame Item} {c : Ctx Item} {t : LTree Item} (ht : Avl t)
    (hk : t.height + 1 = k) (hc : CtxAvl (f :: c) k)
    (hb : f.val.balance - sign f.dir ≠ -sign f.dir) :
    ∃ d x y, join d f.id (withBalance f.val (f.val.balance - sign f.dir)) x y =
        join f.dir f.id (withBalance f.val (f.val.balance - sign f.dir)) t f.sib ∧
      Shrunk (max k f.sib.height + 1) d (withBalance f.val (f.val.balance - sign f.dir)) x y := by
  obtain ⟨hf, hlo, hhi, hs, _⟩ := hc
  by_cases h0 : f.val.balance - sign f.dir = 0
  · refine ⟨f.dir, t, f.sib, rfl, ht, hs, ?_, .inl ⟨h0, ?_⟩⟩
    · rw [withBalance_balance]
      cases hd : f.dir <;> simp only [hd, sign] at hf ⊢ <;> omega
    · cases hd : f.dir <;> simp only [hd, sign] at hf h0 <;> omega
  · refine ⟨f.dir.flip, f.sib, t, join_flip _ _ _ _ _, hs, ht, ?_, .inr ⟨?_, ?_⟩⟩
    · rw [withBalance_balance]
      cases hd : f.dir <;> simp only [hd, sign, Dir.flip] at hf ⊢ <;> omega
    · cases hd : f.dir <;> simp only [hd, sign] at hf h0 hb <;> omega
    · cases hd : f.dir <;> simp only [hd, sign] at hf h0 hb <;> omega

/-- A node that was in balance above a subtree that has shrunk has the height it had. -/
theorem shrunk_stays {k : ℕ} {f : Frame Item} {c : Ctx Item} {t : LTree Item} (ht : Avl t)
    (hk : t.height + 1 = k) (hc : CtxAvl (f :: c) k)
    (hb : f.val.balance - sign f.dir = -sign f.dir) :
    Avl (plug c (join f.dir f.id (withBalance f.val (f.val.balance - sign f.dir)) t f.sib)) := by
  obtain ⟨hf, _, _, hs, hc'⟩ := hc
  rw [avl_plug, avl_join, withBalance_balance, height_join]
  refine ⟨⟨?_, ?_, ?_, ht, hs⟩, ?_⟩
  · cases hd : f.dir <;> simp only [hd, sign] at hf ⊢ <;> omega
  · cases hd : f.dir <;> simp only [hd, sign] at hb ⊢ <;> omega
  · cases hd : f.dir <;> simp only [hd, sign] at hb ⊢ <;> omega
  · have hh : max t.height f.sib.height + 1 = max k f.sib.height + 1 := by
      cases hd : f.dir <;> simp only [hd, sign] at hf hb <;> omega
    rw [hh]
    exact hc'

/-- Rebalancing after an erase restores the tree around a subtree that has shrunk. -/
theorem rebalanceAfterErase_spec {c : Ctx Item} {fuel : ℕ} (hfuel : c.length < fuel)
    {s : Links Item} {d : Dir} {n k : ℕ} {v : Item} {x y : LTree Item}
    (h : s.Stands (plug c (join d n v x y))) (hg : Shrunk k d v x y) (hc : CtxAvl c k) :
    ∃ s' t', rebalanceAfterErase fuel s n = some s' ∧ s'.Stands t' ∧ Avl t' ∧
      cells t' = cells (plug c (join d n v x y)) := by
  obtain ⟨fuel, rfl⟩ : ∃ m, fuel = m + 1 := ⟨fuel - 1, by omega⟩
  induction c generalizing fuel s d n k v x y with
  | nil =>
    obtain ⟨s1, t1, i, done, e1, ha, h1, ht1, _, hcells⟩ := rebalanceNodeErase_spec h hg
    obtain ⟨w, C, T, rfl⟩ := exists_join_of_addr ha
    refine ⟨s1, _, ?_, h1, ht1, hcells⟩
    have hget := h1.get_eq
    cases done with
    | true => simp only [rebalanceAfterErase, e1, if_true, Option.bind_eq_bind, Option.bind_some]
    | false =>
      simp only [rebalanceAfterErase, e1, hget, if_neg Bool.false_ne_true, Node.p_mk', parent_nil,
        Option.bind_eq_bind, Option.bind_some]
  | cons f c ih =>
    obtain ⟨s1, t1, i, done, e1, ha, h1, ht1, hk, hcells⟩ := rebalanceNodeErase_spec h hg
    have hall : cells (plug (f :: c) t1) = cells (plug (f :: c) (join d n v x y)) :=
      cells_plug_congr hcells
    cases done with
    | true =>
      rw [if_pos rfl, Nat.add_zero] at hk
      refine ⟨s1, _, ?_, h1, avl_plug.mpr ⟨ht1, hk ▸ hc⟩, hall⟩
      simp only [rebalanceAfterErase, e1, if_true, Option.bind_eq_bind, Option.bind_some]
    | false =>
      rw [if_neg Bool.false_ne_true] at hk
      have hl := parent_l_iff h1 ha
      have hp : s1.Stands (plug c (join f.dir f.id f.val t1 f.sib)) := h1
      have hpget := hp.get_eq
      rw [ha] at hpget
      have higet : ∃ m, s1.get (some i) = some m ∧ m.p = some f.id := by
        obtain ⟨w, C, T, rfl⟩ := exists_join_of_addr ha
        exact ⟨_, h1.get_eq, Node.p_mk' _ _ _ _ _⟩
      obtain ⟨m, hm, hmp⟩ := higet
      obtain ⟨fuel, rfl⟩ : ∃ m, fuel = m + 1 := ⟨fuel - 1, by rw [List.length_cons] at hfuel; omega⟩
      rw [List.length_cons] at hfuel
      -- the parent's balance moves away from the side that has shrunk
      have hup : ∃ s2, (if some i = (Node.mk' f.dir (some i) f.sib.addr (parent none c) f.val).l
          then incBalance s1 (some f.id) else decBalance s1 (some f.id)) = some s2 ∧
          s2.Stands (plug c (join f.dir f.id (withBalance f.val (f.val.balance - sign f.dir))
            t1 f.sib)) := by
        cases hd : f.dir with
        | left =>
          rw [hd] at hl hp
          rw [if_pos (hl.mpr rfl).symm]
          exact incBalance_spec hp
        | right =>
          rw [hd] at hl hp
          rw [if_neg fun he => absurd (hl.mp he.symm) (by decide)]
          exact decBalance_spec hp
      obtain ⟨s2, e2, h2⟩ := hup
      have hbal := getBalance_spec h2
      have hcells2 : cells (plug c (join f.dir f.id (withBalance f.val (f.val.balance - sign f.dir))
          t1 f.sib)) = cells (plug (f :: c) (join d n v x y)) := by
        rw [← hall]
        exact cells_plug_congr (cells_join_congr rfl rfl)
      have hrun : rebalanceAfterErase (fuel + 1 + 1) s n =
          if f.val.balance - sign f.dir = -sign f.dir then some s2
          else rebalanceAfterErase (fuel + 1) s2 f.id := by
        rw [rebalanceAfterErase]
        simp only [e1, hm, hmp, hpget, if_neg Bool.false_ne_true, Option.bind_eq_bind,
          Option.bind_some]
        cases hd : f.dir with
        | left =>
          rw [hd] at hl e2 hbal
          have hl' := hl.mpr rfl
          rw [if_pos hl'.symm] at e2 ⊢
          rw [e2, Option.bind_some, hbal, Option.bind_some]
          rfl
        | right =>
          rw [hd] at hl e2 hbal
          have hl' : ¬some i = (Node.mk' .right (some i) f.sib.addr (parent none c) f.val).l :=
            fun he => absurd (hl.mp he.symm) (by decide)
          rw [if_neg hl'] at e2 ⊢
          rw [e2, Option.bind_some, hbal, Option.bind_some]
          rfl
      by_cases hb : f.val.balance - sign f.dir = -sign f.dir
      · refine ⟨s2, _, ?_, h2, shrunk_stays ht1 hk hc hb, hcells2⟩
        rw [hrun, if_pos hb]
      · obtain ⟨d', x', y', heq, hs'⟩ := shrunk_parent ht1 hk hc hb
        rw [← heq] at h2 hcells2
        obtain ⟨s', t', e, h', ht', hcells'⟩ := ih h2 hs' hc.2.2.2.2 fuel (by omega)
        refine ⟨s', t', ?_, h', ht', hcells'.trans hcells2⟩
        rw [hrun, if_neg hb, e]

end HM4.AVLBalance
