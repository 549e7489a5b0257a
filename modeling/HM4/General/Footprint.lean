import Mathlib.Data.List.Basic
import Mathlib.Data.List.Nodup
import Mathlib.Logic.Function.Basic

/-!
# Disjoint pieces of a heap

A heap maps addresses to cells. A piece is a statement about the cells at some
addresses, its footprint. Some pieces hold together when each of them holds and
no address is in two of their footprints. A program that changes cells of a few
pieces leaves the others as they are, so only the few have to be looked at.
-/

namespace HM4.Footprint

variable {β : Type*}

/-- Cells by address; a freed or unused address has none. -/
abbrev Heap (β : Type*) := ℕ → Option β

/-- A statement about the cells at some addresses. -/
structure Piece (β : Type*) where
  /-- The addresses it speaks about. -/
  ids : List ℕ
  /-- What it says. -/
  holds : Heap β → Prop
  frame : ∀ {h h' : Heap β}, (∀ i ∈ ids, h' i = h i) → holds h → holds h'

/-- The addresses of some pieces. -/
def idsOf (ps : List (Piece β)) : List ℕ := ps.flatMap Piece.ids

/-- The pieces hold, at different addresses. -/
structure Holds (h : Heap β) (ps : List (Piece β)) : Prop where
  all : ∀ x ∈ ps, x.holds h
  nodup : (idsOf ps).Nodup

/-- One cell. -/
def cell (i : ℕ) (n : β) : Piece β where
  ids := [i]
  holds h := h i = some n
  frame hag hi := (hag _ (List.mem_singleton.mpr rfl)).trans hi

/-- One address, with a cell or without one. -/
def slot (i : ℕ) (x : Option β) : Piece β where
  ids := [i]
  holds h := h i = x
  frame hag hi := (hag _ (List.mem_singleton.mpr rfl)).trans hi

theorem idsOf_nil : idsOf ([] : List (Piece β)) = [] := rfl

theorem idsOf_cons (x : Piece β) (ps : List (Piece β)) : idsOf (x :: ps) = x.ids ++ idsOf ps := rfl

theorem idsOf_append (ps qs : List (Piece β)) : idsOf (ps ++ qs) = idsOf ps ++ idsOf qs :=
  List.flatMap_append

theorem mem_idsOf {ps : List (Piece β)} {x : Piece β} (hx : x ∈ ps) {i : ℕ} (hi : i ∈ x.ids) :
    i ∈ idsOf ps := List.mem_flatMap.mpr ⟨x, hx, hi⟩

/-- Some pieces in the middle change into others at the same addresses. -/
theorem Holds.change {h h' : Heap β} {xs ys : List (Piece β)} (ps qs : List (Piece β))
    (hold : Holds h (ps ++ (xs ++ qs))) (hids : (idsOf ys).Perm (idsOf xs))
    (hout : ∀ i ∉ idsOf xs, h' i = h i) (hys : ∀ y ∈ ys, y.holds h') :
    Holds h' (ps ++ (ys ++ qs)) where
  all x hx := by
    have hnd := hold.nodup
    rw [idsOf_append, idsOf_append] at hnd
    rcases List.mem_append.mp hx with hp | hx
    · refine x.frame (fun i hi => hout i fun hxs => ?_) (hold.all x (List.mem_append_left _ hp))
      exact (List.nodup_append.mp hnd).2.2 i (mem_idsOf hp hi) i (List.mem_append_left _ hxs) rfl
    · rcases List.mem_append.mp hx with hy | hq
      · exact hys x hy
      · refine x.frame (fun i hi => hout i fun hxs => ?_)
          (hold.all x (List.mem_append_right _ (List.mem_append_right _ hq)))
        have hnd' := (List.nodup_append.mp hnd).2.1
        exact (List.nodup_append.mp hnd').2.2 i hxs i (mem_idsOf hq hi) rfl
  nodup := by
    have hnd := hold.nodup
    rw [idsOf_append, idsOf_append] at hnd ⊢
    exact ((hids.append_right _).append_left _).nodup_iff.mpr hnd

/-- Pieces that say the same about the same addresses. -/
structure Same (xs ys : List (Piece β)) : Prop where
  ids : (idsOf ys).Perm (idsOf xs)
  holds : ∀ h, (∀ x ∈ xs, x.holds h) ↔ ∀ y ∈ ys, y.holds h

theorem Same.symm {xs ys : List (Piece β)} (h : Same xs ys) : Same ys xs :=
  ⟨h.ids.symm, fun heap => (h.holds heap).symm⟩

theorem holds_one {h : Heap β} {x : Piece β} : (∀ z ∈ [x], z.holds h) ↔ x.holds h :=
  List.forall_mem_singleton

theorem holds_two {h : Heap β} {x y : Piece β} :
    (∀ z ∈ [x, y], z.holds h) ↔ x.holds h ∧ y.holds h := by
  rw [List.forall_mem_cons, holds_one]

theorem holds_three {h : Heap β} {x y w : Piece β} :
    (∀ z ∈ [x, y, w], z.holds h) ↔ x.holds h ∧ y.holds h ∧ w.holds h := by
  rw [List.forall_mem_cons, holds_two]

/-- The same heap seen as other pieces. -/
theorem Holds.same {h : Heap β} {xs ys : List (Piece β)} (ps qs : List (Piece β))
    (hold : Holds h (ps ++ (xs ++ qs))) (hs : Same xs ys) : Holds h (ps ++ (ys ++ qs)) :=
  hold.change ps qs hs.ids (fun _ _ => rfl) ((hs.holds h).mp fun x hx =>
    hold.all x (List.mem_append_right _ (List.mem_append_left _ hx)))

/-- The order of the pieces does not matter. -/
theorem Holds.perm {h : Heap β} {ps qs : List (Piece β)} (hold : Holds h ps) (hp : qs.Perm ps) :
    Holds h qs where
  all x hx := hold.all x (hp.mem_iff.mp hx)
  nodup := (hp.flatMap_right _).nodup_iff.mpr hold.nodup

/-- A piece is moved to the front of some others. -/
theorem Holds.forth {h : Heap β} {x : Piece β} {rs : List (Piece β)} (ps qs : List (Piece β))
    (hold : Holds h (ps ++ (qs ++ x :: rs))) : Holds h (ps ++ x :: (qs ++ rs)) :=
  hold.perm (List.perm_middle.symm.append_left ps)

/-- A piece is moved behind some others. -/
theorem Holds.back {h : Heap β} {x : Piece β} {rs : List (Piece β)} (ps qs : List (Piece β))
    (hold : Holds h (ps ++ x :: (qs ++ rs))) : Holds h (ps ++ (qs ++ x :: rs)) :=
  hold.perm (List.perm_middle.append_left ps)

theorem Holds.of_append {h : Heap β} {qs : List (Piece β)} (ps : List (Piece β))
    (hold : Holds h (ps ++ qs)) : Holds h qs where
  all x hx := hold.all x (List.mem_append_right _ hx)
  nodup := by
    have hnd := hold.nodup
    rw [idsOf_append] at hnd
    exact (List.nodup_append.mp hnd).2.1

/-- A cell that is there is read. -/
theorem Holds.read {h : Heap β} {i : ℕ} {n : β} {qs : List (Piece β)} (ps : List (Piece β))
    (hold : Holds h (ps ++ (cell i n :: qs))) : h i = some n :=
  hold.all (cell i n) (List.mem_append_right _ List.mem_cons_self)

/-- A cell that is there is written. -/
theorem Holds.write {h : Heap β} {i : ℕ} {n : β} {qs : List (Piece β)} (ps : List (Piece β))
    (hold : Holds h (ps ++ (cell i n :: qs))) (n' : β) :
    Holds (Function.update h i (some n')) (ps ++ (cell i n' :: qs)) := by
  have hids : (idsOf [cell i n']).Perm (idsOf [cell i n]) := List.Perm.refl _
  refine Holds.change ps qs hold hids ?_ ?_
  · intro j hj
    refine Function.update_of_ne ?_ _ _
    rintro rfl
    exact hj (List.mem_singleton.mpr rfl)
  · intro y hy
    rw [List.mem_singleton.mp hy]
    exact Function.update_self _ _ _

/-- A cell at a new address. -/
theorem Holds.alloc {h : Heap β} {i : ℕ} {ps : List (Piece β)} (hold : Holds h ps)
    (hi : i ∉ idsOf ps) (n : β) : Holds (Function.update h i (some n)) (cell i n :: ps) where
  all x hx := by
    rcases List.mem_cons.mp hx with rfl | hx
    · exact Function.update_self _ _ _
    · refine x.frame (fun j hj => Function.update_of_ne ?_ _ _) (hold.all x hx)
      exact fun hji => hi (hji ▸ mem_idsOf hx hj)
  nodup := List.nodup_cons.mpr ⟨hi, hold.nodup⟩

/-- A cell that nobody speaks about any more may go. -/
theorem Holds.free {h h' : Heap β} {i : ℕ} {n : β} {ps : List (Piece β)}
    (hold : Holds h (cell i n :: ps)) (hout : ∀ j, j ≠ i → h' j = h j) : Holds h' ps where
  all x hx := by
    have hnd := List.nodup_cons.mp hold.nodup
    refine x.frame (fun j hj => hout j ?_) (hold.all x (List.mem_cons_of_mem _ hx))
    exact fun hji => hnd.1 (hji ▸ mem_idsOf hx hj)
  nodup := (List.nodup_cons.mp hold.nodup).2

/-- A cell that goes leaves its address without one. -/
theorem Holds.freed {h : Heap β} {i : ℕ} {n : β} {ps : List (Piece β)}
    (hold : Holds h (cell i n :: ps)) :
    Holds (Function.update h i none) (slot i none :: ps) := by
  have hids : (idsOf [slot i (none : Option β)]).Perm (idsOf [cell i n]) := List.Perm.refl _
  refine Holds.change [] ps hold hids (fun j hj => ?_) fun y hy => ?_
  · refine Function.update_of_ne ?_ _ _
    rintro rfl
    exact hj (List.mem_singleton.mpr rfl)
  · rw [List.mem_singleton.mp hy]
    exact Function.update_self _ _ _

end HM4.Footprint
