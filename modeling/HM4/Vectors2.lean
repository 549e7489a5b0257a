import HM4.VectorsStorage
import HM4.RSet

/-!
# Vectors that are added

`VADD` gets vectors of one dimension and stores them with a smaller one. Vectors that have to be
made smaller are projected, but not onto one dimension.
-/

namespace HM4.Vectors2

open Bytes Database IndexToken VectorsStorage Patch
open RSet (inPairs)

/-! ## Parameters -/

/-- `MaxDimensions`. -/
def MaxDimensions : ℕ := 1024 * 8

/-- `translateQType`, with the type of the elements. -/
def translateQType (s : Key) : Option Element :=
  match s with
  | [c] =>
    if c = 102 ∨ c = 70 then some .float
    else if c = 115 ∨ c = 83 then some .int16_t
    else if c = 105 ∨ c = 73 then some .int8_t
    else if c = 98 ∨ c = 66 then some .bool
    else none
  | _ => none

/-- `VType`. -/
inductive VType
  | BINARY_LE
  | BINARY_BE
  | HEX_LE
  | HEX_BE
  deriving DecidableEq

/-- `translateVType`. -/
def translateVType (s : Key) : Option VType :=
  match s with
  | [c] =>
    if c = 98 then some .BINARY_LE
    else if c = 66 then some .BINARY_BE
    else if c = 104 then some .HEX_LE
    else if c = 72 then some .HEX_BE
    else none
  | _ => none

/-- `translateVTypeToSizeM`. -/
def translateVTypeToSizeM : VType → ℕ
  | .BINARY_LE | .BINARY_BE => 1
  | .HEX_LE | .HEX_BE => 2

/-- `validBlobSizeF`. -/
def validBlobSizeF (size dim : ℕ) : Prop := size = dim * 4

instance (size dim : ℕ) : Decidable (validBlobSizeF size dim) := inferInstanceAs (Decidable (_ = _))

/-- What `VADD` reads of its parameters. -/
structure AddArgs where
  keyN : Key
  dim_ve : ℕ
  dim_ix : ℕ
  T : Element
  vtype : VType
  /-- Names and vectors. -/
  items : List (Key × Key)

/-- The check of a name and its vector. -/
def checkItem (keyN : Key) (dim_ve : ℕ) (vtype : VType) (item : Key × Key) : Option ErrorMessage :=
  if item.1 = [] then some .EMPTY_KEY
  else if ¬(valid keyN ∧ valid item.1) then some .INVALID_KEY_SIZE
  else if ¬validBlobSizeF item.2.length (dim_ve * translateVTypeToSizeM vtype) then
    some .INVALID_PARAMETERS
  else none

/-- What `VADD` checks. -/
def readAdd (p : List Key) : Except ErrorMessage AddArgs :=
  if p.length < 6 + 2 ∨ (p.length - 6) % 2 ≠ 0 then .error .NEED_GROUP_PARAMS_6
  else
    let keyN := p.getD 1 []
    if keyN = [] then .error .EMPTY_KEY
    else
      let dim_ve := fromString 32 (p.getD 2 []) 0
      if dim_ve < 1 ∨ MaxDimensions < dim_ve then .error .INVALID_PARAMETERS
      else
        let dim_ix := fromString 32 (p.getD 3 []) 0
        if dim_ix < 1 ∨ dim_ve < dim_ix then .error .INVALID_PARAMETERS
        else
          match translateQType (p.getD 4 []), translateVType (p.getD 5 []) with
          | some T, some vtype =>
            match (inPairs (p.drop 6)).findSome? (checkItem keyN dim_ve vtype) with
            | some message => .error message
            | none => .ok ⟨keyN, dim_ve, dim_ix, T, vtype, inPairs (p.drop 6)⟩
          | _, _ => .error .INVALID_PARAMETERS

/-! ## The vector -/

/-- A digit of `fromHex`; what is none counts as zero. -/
def fromHexDigit (c : Byte) : ℕ :=
  if 48 ≤ c.val ∧ c.val ≤ 57 then c.val - 48
  else if 65 ≤ c.val ∧ c.val ≤ 70 then c.val - 55
  else if 97 ≤ c.val ∧ c.val ≤ 102 then c.val - 87
  else 0

/-- `fromHexBytes` of an even number of digits. -/
def fromHexBytes : Key → Key
  | a :: b :: hex => Fin.ofNat 256 (fromHexDigit a * 16 + fromHexDigit b) :: fromHexBytes hex
  | _ => []

/-- `decodeToFloat`: the octets of each number. -/
def decodeToFloat (type : VType) (dim : ℕ) (fdata : Key) : List Key :=
  let buffer := match type with
    | .BINARY_LE | .BINARY_BE => fdata
    | .HEX_LE | .HEX_BE => fromHexBytes fdata
  (List.range dim).map fun i => slice buffer (4 * i) 4

/-- `fixHostOrder`. -/
def fixHostOrder (type : VType) (vector : List Key) : List Key :=
  match type with
  | .BINARY_LE | .HEX_LE => vector
  | .BINARY_BE | .HEX_BE => vector.map List.reverse

section Create

variable {F : Type*} (A : Arithmetic F)

/-- `randomProjection` onto so many components. -/
def randomProjection (vector : List F) (size : ℕ) : List F :=
  (List.range size).map (A.projection vector)

/-- `CreateFloatVector`. -/
def createFloatVector (vtype : VType) (fdata : Key) (dim_ve dim_ix : ℕ) : List F :=
  let vector := (fixHostOrder vtype (decodeToFloat vtype dim_ve fdata)).map A.ofOctets
  let needsToBeProjected := 1 < dim_ix ∧ dim_ix < dim_ve
  if needsToBeProjected then randomProjection A vector dim_ix else vector

variable [Zero F] [LT F] [DecidableLT F]

/-- What `VADD` is for, for one vector: it writes as many components as the index has dimensions,
all inside the new value, which is accepted with this dimension afterwards. -/
def WritesItsBlob (a : AddArgs) (fdata mem : Key) : Prop :=
  let vector := createFloatVector A a.vtype fdata a.dim_ve a.dim_ix
  vector.length = a.dim_ix ∧
    ∃ value, puts mem (createInRawMemory A a.T vector) = some value ∧
      toStoredVector a.T value a.dim_ix = some value

end Create

/-! ## What is written -/

theorem checkItem_eq_none_iff {keyN : Key} {dim_ve : ℕ} {vtype : VType} {item : Key × Key} :
    checkItem keyN dim_ve vtype item = none ↔ item.1 ≠ [] ∧ (valid keyN ∧ valid item.1) ∧
      validBlobSizeF item.2.length (dim_ve * translateVTypeToSizeM vtype) := by
  unfold checkItem
  split_ifs <;> simp_all

/-- What `VADD` accepts. -/
theorem readAdd_accepted {p : List Key} {a : AddArgs} (h : readAdd p = .ok a) :
    1 ≤ a.dim_ix ∧ a.dim_ix ≤ a.dim_ve ∧ a.dim_ve ≤ MaxDimensions ∧
      ∀ item ∈ a.items, checkItem a.keyN a.dim_ve a.vtype item = none := by
  unfold readAdd at h
  dsimp only at h
  split_ifs at h with _ _ hve hix
  split at h
  · split at h
    · exact absurd h (by simp)
    · next hfind =>
      obtain rfl := Except.ok.inj h
      obtain ⟨hve1, hve2⟩ := not_or.mp hve
      obtain ⟨hix1, hix2⟩ := not_or.mp hix
      exact ⟨not_lt.mp hix1, not_lt.mp hix2, not_lt.mp hve2, List.findSome?_eq_none_iff.mp hfind⟩
  · exact absurd h (by simp)

section Create

variable {F : Type*} (A : Arithmetic F)

theorem createFloatVector_length (vtype : VType) (fdata : Key) (dim_ve dim_ix : ℕ) :
    (createFloatVector A vtype fdata dim_ve dim_ix).length =
      if 1 < dim_ix ∧ dim_ix < dim_ve then dim_ix else dim_ve := by
  have hfix : ∀ v, (fixHostOrder vtype v).length = v.length := fun v => by
    cases vtype <;> first | rfl | exact List.length_map _
  unfold createFloatVector
  dsimp only
  split
  · rw [randomProjection, List.length_map, List.length_range]
  · have hdecode : (decodeToFloat vtype dim_ve fdata).length = dim_ve := by
      unfold decodeToFloat
      dsimp only
      rw [List.length_map, List.length_range]
    rw [List.length_map, hfix, hdecode]

/-- A vector that is projected, or not made smaller, has the dimension of the index. -/
theorem createFloatVector_dim {p : List Key} {a : AddArgs} (h : readAdd p = .ok a) (fdata : Key) :
    (createFloatVector A a.vtype fdata a.dim_ve a.dim_ix).length = a.dim_ix ↔
      a.dim_ix ≠ 1 ∨ a.dim_ve = 1 := by
  obtain ⟨hpos, hle, -, -⟩ := readAdd_accepted h
  rw [createFloatVector_length A a.vtype fdata a.dim_ve a.dim_ix]
  split <;> omega

variable [Zero F] [LT F] [DecidableLT F]

/-- A vector of the dimension of the index is stored and accepted. -/
theorem exists_stored (T : Element) {vector : List F} {dim : ℕ} (hlen : vector.length = dim)
    (hdim : dim ≤ MaxDimensions) {mem : Key} (hmem : mem.length = bytes T dim) :
    ∃ value, puts mem (createInRawMemory A T vector) = some value ∧
      toStoredVector T value dim = some value := by
  obtain ⟨value, hvalue, hvlen, hsize⟩ := exists_created A T vector (hlen.symm ▸ hmem.ge)
  rw [hlen, Nat.mod_eq_of_lt (hdim.trans_lt (by decide))] at hsize
  exact ⟨value, hvalue, toStoredVector_eq_some_iff.mpr ⟨hvlen.trans hmem, hsize⟩⟩

/-- A vector is written as it should be unless it is to be made smaller to one dimension. -/
theorem writesItsBlob_iff {p : List Key} {a : AddArgs} (h : readAdd p = .ok a) (fdata : Key)
    {mem : Key} (hmem : mem.length = bytes a.T a.dim_ix) :
    WritesItsBlob A a fdata mem ↔ a.dim_ix ≠ 1 ∨ a.dim_ve = 1 := by
  obtain ⟨-, hle, hmax, -⟩ := readAdd_accepted h
  rw [← createFloatVector_dim A h fdata]
  exact ⟨fun hwrites => hwrites.1,
    fun hlen => ⟨hlen, exists_stored A a.T hlen (hle.trans hmax) hmem⟩⟩

end Create

/-- An arithmetic in which a number is its bits, as it is for zeros. -/
def zeros : Arithmetic ℕ where
  ofOctets := leValue
  bits v := v
  getMagnitude := List.sum
  ZERO := 1
  fix v := v
  mul := (· * ·)
  quantizeI16 v := v
  quantizeI8 v := v
  projection _ _ := 0

/-- `VADD` of zeros: the set, the name, and so many dimensions of the vector. -/
def addZeros (dim_ve : Byte) : List Key :=
  [[], [107], [dim_ve], [49], [102], [98], [115], List.replicate (4 * (dim_ve.val - 48)) 0]

/-- What is read of it. -/
def zerosArgs (dim_ve : ℕ) : AddArgs :=
  ⟨[107], dim_ve, 1, .float, .BINARY_LE, [([115], List.replicate (4 * dim_ve) 0)]⟩

theorem writesItsBlob_one_dimension :
    WritesItsBlob zeros (zerosArgs 1) (List.replicate 4 0) (List.replicate 12 0) :=
  (writesItsBlob_iff zeros (show readAdd (addZeros 49) = .ok (zerosArgs 1) by rfl)
    (List.replicate 4 0) (by decide)).mpr (.inr rfl)

/-- A vector of two dimensions is written past the room for one. -/
theorem writes_past_its_blob : readAdd (addZeros 50) = .ok (zerosArgs 2) ∧
    ¬WritesItsBlob zeros (zerosArgs 2) (List.replicate 8 0) (List.replicate 12 0) ∧
      puts (List.replicate 12 0) (createInRawMemory zeros .float
        (createFloatVector zeros .BINARY_LE (List.replicate 8 0) 2 1)) = none :=
  ⟨by rfl, fun h => absurd h.1 (by decide), by decide⟩

end HM4.Vectors2
