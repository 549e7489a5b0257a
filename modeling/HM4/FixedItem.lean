import HM4.Bytes

/-!
# Items of fixed size

The heavy hitters, the Misra-Gries sketch and the ring buffer keep strings in slots of a fixed
number of octets, with the size of the string in front.
-/

namespace HM4.FixedItem

open Bytes

/-- The parameters of `Item_`. -/
structure ItemType where
  /-- The octets of `SizeType`. -/
  sizeBytes : ℕ
  MaxItemSize : ℕ
  one_le : 1 ≤ MaxItemSize
  fits : MaxItemSize < 256 ^ sizeBytes

/-- `size` and `item` of a slot. -/
structure Text where
  size : ℕ
  item : Key

variable (M : ItemType)

/-- `isItemValid`. -/
def ItemType.isItemValid (sv : Key) : Prop := 1 ≤ sv.length ∧ sv.length ≤ M.MaxItemSize

instance (sv : Key) : Decidable (M.isItemValid sv) := inferInstanceAs (Decidable (_ ∧ _))

/-- `getItem`. -/
def ItemType.getItem (x : Text) : Key :=
  if x.size ≤ M.MaxItemSize then x.item.take x.size else []

/-- `setItem`: the octets behind the string stay. -/
def ItemType.setItem (x : Text) (sv : Key) : Text :=
  ⟨sv.length % 256 ^ M.sizeBytes, sv ++ x.item.drop sv.length⟩

/-- A slot of zeros. -/
def ItemType.zeros : Text := ⟨0, List.replicate M.MaxItemSize 0⟩

variable {M}

theorem size_setItem (x : Text) {sv : Key} (h : M.isItemValid sv) :
    (M.setItem x sv).size = sv.length := Nat.mod_eq_of_lt (h.2.trans_lt M.fits)

/-- A slot gives back what was put into it. -/
theorem getItem_setItem (x : Text) {sv : Key} (h : M.isItemValid sv) :
    M.getItem (M.setItem x sv) = sv := by
  unfold ItemType.getItem
  rw [size_setItem x h, if_pos h.2]
  exact List.take_left' rfl

/-- A slot with a string is not free. -/
theorem size_setItem_ne_zero (x : Text) {sv : Key} (h : M.isItemValid sv) :
    (M.setItem x sv).size ≠ 0 := by
  rw [size_setItem x h]
  exact Nat.one_le_iff_ne_zero.mp h.1

theorem raw16_one_le : 1 ≤ 15 := by decide

theorem raw16_fits : 15 < 256 ^ 1 := by decide

/-- Slots of sixteen octets, with one for the size. -/
def raw16 : ItemType := ⟨1, 15, raw16_one_le, raw16_fits⟩

end HM4.FixedItem
