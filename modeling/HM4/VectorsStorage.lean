import HM4.VectorsBit
import HM4.General.Patch

/-!
# Stored vectors

A vector is stored with its size and, unless it is made of bits, its magnitude, and with one
element for each component behind them. The room for it is computed from a size that is given
beforehand, but the elements are written for the vector that is handed over.
-/

namespace HM4.VectorsStorage

open Bytes VectorsBit Patch

/-! ## Elements -/

/-- The types of elements. -/
inductive Element
  | float
  | int16_t
  | int8_t
  | bool
  deriving DecidableEq

/-- `sizeof` of an element; bits are stored in octets. -/
def Element.sizeof : Element → ℕ
  | float => 4
  | int16_t => 2
  | int8_t => 1
  | bool => 1

/-- The arithmetic of the type `float`. -/
structure Arithmetic (F : Type*) where
  /-- A number of four octets in memory. -/
  ofOctets : Key → F
  /-- The bits of a number. -/
  bits : F → ℕ
  getMagnitude : List F → F
  /-- `ZERO`, the smallest magnitude that is not taken for zero. -/
  ZERO : F
  /-- `1.0f / magnitude`. -/
  fix : F → F
  mul : F → F → F
  /-- `quantizeComponent<int16_t>`, as bits. -/
  quantizeI16 : F → ℕ
  /-- `quantizeComponent<int8_t>`, as bits. -/
  quantizeI8 : F → ℕ
  /-- A component of `randomProjection`. -/
  projection : List F → ℕ → F

variable {F : Type*} [Zero F] [LT F] [DecidableLT F] (A : Arithmetic F)

/-- `quantizeComponent`, as bits; a bit is `bitVectorQuantizeComponent`. -/
def quantizeComponent : Element → F → ℕ
  | .float, v => A.bits v
  | .int16_t, v => A.quantizeI16 v
  | .int8_t, v => A.quantizeI8 v
  | .bool, v => bitVectorQuantizeComponent v

/-- `normalizeF`: the values for the components, and the magnitude. -/
def normalizeF (vector : List F) : List F × F :=
  let magnitude := A.getMagnitude vector
  if magnitude < A.ZERO then (vector.map fun _ => 0, 0)
  else (vector.map fun v => A.mul v (A.fix magnitude), magnitude)

/-! ## A stored vector -/

/-- The place of `sizeBE`. -/
def sizeOffset : Element → ℕ
  | .bool => 0
  | _ => 4

/-- The place of `vdata`. -/
def vdata : Element → ℕ
  | .bool => 4
  | _ => 8

/-- `StoredVector::bytes`. -/
def bytes : Element → ℕ → ℕ
  | .bool, size => vdata .bool + VectorsBit.bytes size
  | T, size => vdata T + size * T.sizeof

/-- The writes of the elements. -/
def elementWrites : Element → List F → List (ℕ × Key)
  | .bool, vector => [(vdata .bool, bitVectorQuantize vector)]
  | T, vector => vector.zipIdx.map fun v =>
    (vdata T + v.2 * T.sizeof, storeBE T.sizeof (quantizeComponent A T v.1))

/-- The writes of `createInRawMemory`. -/
def createInRawMemory (T : Element) (vector : List F) : List (ℕ × Key) :=
  let sizeBE := (sizeOffset T, storeBE 4 (vector.length % 2 ^ 32))
  match T with
  | .bool => sizeBE :: elementWrites A .bool vector
  | T =>
    let (values, magnitude) := normalizeF A vector
    sizeBE :: (elementWrites A T values ++ [(0, storeBE 4 (A.bits magnitude))])

/-- `StoredVector::size`. -/
def size (T : Element) (sv : Key) : ℕ := loadBE 4 (slice sv (sizeOffset T) 4)

/-- `toStoredVector`. -/
def toStoredVector (T : Element) (sv : Key) (dim : ℕ) : Option Key :=
  if sv.length ≠ bytes T dim then none else if size T sv ≠ dim then none else some sv

/-! ## What is written -/

theorem toStoredVector_eq_some_iff {T : Element} {sv : Key} {dim : ℕ} :
    toStoredVector T sv dim = some sv ↔ sv.length = bytes T dim ∧ size T sv = dim := by
  unfold toStoredVector
  split
  · next h => exact ⟨fun heq => absurd heq.symm (Option.some_ne_none _), fun heq => absurd heq.1 h⟩
  · next h =>
    split
    · next h' =>
      exact ⟨fun heq => absurd heq.symm (Option.some_ne_none _), fun heq => absurd heq.2 h'⟩
    · next h' => exact ⟨fun _ => ⟨not_not.mp h, not_not.mp h'⟩, fun _ => rfl⟩

theorem vdata_le_bytes (T : Element) (n : ℕ) : vdata T ≤ bytes T n := by
  cases T <;> exact Nat.le_add_right _ _

theorem length_normalizeF (vector : List F) : (normalizeF A vector).1.length = vector.length := by
  unfold normalizeF
  dsimp only
  split <;> exact List.length_map _

/-- All elements are written behind the size and the magnitude, inside the octets for so many. -/
theorem elementWrites_inside (T : Element) (vector : List F) :
    ∀ w ∈ elementWrites A T vector,
      vdata T ≤ w.1 ∧ w.1 + w.2.length ≤ bytes T vector.length := by
  have hmany : ∀ T : Element, T ≠ .bool →
      ∀ w ∈ vector.zipIdx.map (fun v =>
        (vdata T + v.2 * T.sizeof, storeBE T.sizeof (quantizeComponent A T v.1))),
      vdata T ≤ w.1 ∧ w.1 + w.2.length ≤ vdata T + vector.length * T.sizeof := by
    intro T _ w hw
    obtain ⟨v, hv, rfl⟩ := List.mem_map.mp hw
    have hlt : v.2 < vector.length := List.snd_lt_of_mem_zipIdx hv
    refine ⟨Nat.le_add_right _ _, ?_⟩
    rw [storeBE_length, Nat.add_assoc, ← Nat.succ_mul]
    exact Nat.add_le_add_left (Nat.mul_le_mul_right _ hlt) _
  cases T with
  | float => exact hmany .float (by decide)
  | int16_t => exact hmany .int16_t (by decide)
  | int8_t => exact hmany .int8_t (by decide)
  | bool =>
    intro w hw
    obtain rfl := List.mem_singleton.mp hw
    refine ⟨le_rfl, ?_⟩
    rw [bitVectorQuantize, List.length_map, List.length_range]
    exact le_rfl

/-- A vector is written inside the octets for its components, and its size is not written over. -/
theorem createInRawMemory_inside (T : Element) (vector : List F) :
    ∃ writes, createInRawMemory A T vector =
        (sizeOffset T, storeBE 4 (vector.length % 2 ^ 32)) :: writes ∧
      ∀ w ∈ writes, (sizeOffset T + 4 ≤ w.1 ∨ w.1 + w.2.length ≤ sizeOffset T) ∧
        w.1 + w.2.length ≤ bytes T vector.length := by
  have hmany : ∀ T : Element, sizeOffset T = 4 → vdata T = 8 →
      ∀ w ∈ elementWrites A T (normalizeF A vector).1 ++
          [(0, storeBE 4 (A.bits (normalizeF A vector).2))],
        (sizeOffset T + 4 ≤ w.1 ∨ w.1 + w.2.length ≤ sizeOffset T) ∧
          w.1 + w.2.length ≤ bytes T vector.length := by
    intro T hoff hdata w hw
    rcases List.mem_append.mp hw with hw | hw
    · obtain ⟨hle, hin⟩ := elementWrites_inside A T _ w hw
      rw [length_normalizeF] at hin
      exact ⟨.inl (by omega), hin⟩
    · obtain rfl := List.mem_singleton.mp hw
      have hbytes := vdata_le_bytes T vector.length
      rw [storeBE_length, hoff]
      exact ⟨.inr (by omega), by omega⟩
  cases T with
  | float => exact ⟨_, rfl, hmany .float rfl rfl⟩
  | int16_t => exact ⟨_, rfl, hmany .int16_t rfl rfl⟩
  | int8_t => exact ⟨_, rfl, hmany .int8_t rfl rfl⟩
  | bool =>
    refine ⟨_, rfl, fun w hw => ?_⟩
    obtain ⟨hle, hin⟩ := elementWrites_inside A .bool vector w hw
    exact ⟨.inl hle, hin⟩

/-- With room for its components a vector is stored, and its size is read back. -/
theorem exists_created (T : Element) (vector : List F) {mem : Key}
    (hroom : bytes T vector.length ≤ mem.length) :
    ∃ value, puts mem (createInRawMemory A T vector) = some value ∧
      value.length = mem.length ∧ size T value = vector.length % 2 ^ 32 := by
  obtain ⟨writes, hwrites, hinside⟩ := createInRawMemory_inside A T vector
  have hsize : sizeOffset T + 4 ≤ vdata T := by cases T <;> exact le_rfl
  have hvdata := vdata_le_bytes T vector.length
  obtain ⟨value1, hput⟩ := exists_put_iff.mpr (show
    sizeOffset T + (storeBE 4 (vector.length % 2 ^ 32)).length ≤ mem.length by
      rw [storeBE_length]
      omega)
  have hlen1 := length_put hput
  obtain ⟨value, hputs, hlen, hframe⟩ := exists_puts value1 fun w hw => by
    rw [hlen1]
    exact (hinside w hw).2.trans hroom
  refine ⟨value, ?_, hlen.trans hlen1, ?_⟩
  · rw [hwrites, puts_cons, hput]
    exact hputs
  · have hread := slice_put hput
    rw [storeBE_length] at hread
    rw [size, hframe _ _ fun w hw => (hinside w hw).1, hread]
    exact loadBE_storeBE (Nat.mod_lt _ (Nat.two_pow_pos 32))

end HM4.VectorsStorage
