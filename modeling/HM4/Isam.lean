import HM4.Database
import HM4.General.Consecutive
import HM4.General.Patch
import HM4.General.Separated
import Mathlib.Data.List.DropRight
import Mathlib.Data.List.Induction

/-!
# Records with fixed fields

A schema such as `3:id,10:name,2:country` cuts a value into fields one behind the other. A shorter
value is padded in its field, and a longer one is cut.
-/

namespace HM4.Isam

open Bytes Database RedisProtocol Separated Patch

/-! ## The code -/

/-- `config::DELIMITER1`, a comma. -/
def DELIMITER1 : Byte := 44

/-- `config::DELIMITER2`, a colon. -/
def DELIMITER2 : Byte := 58

/-- `config::PADDING`, a blank. -/
def PADDING : Byte := 32

/-- `config::CONTAINER_SIZE`. -/
def CONTAINER_SIZE : ℕ := 250

/-- `config::EMPTY_FIELD_NAME`, which is `__FIELD_NAME__`. -/
def EMPTY_FIELD_NAME : Key := [95, 95, 70, 73, 69, 76, 68, 95, 78, 65, 77, 69, 95, 95]

/-- The largest `size_t`. -/
def MAX : ℕ := 2 ^ 64 - 1

/-- `trim`. -/
def trim (s : Key) : Key := s.rdropWhile (· = PADDING)

/-- `Field`. -/
structure Field where
  /-- Where the field starts. -/
  off : ℕ
  /-- The octets that it takes. -/
  size : ℕ
  /-- What it is called. -/
  name : Key
  deriving DecidableEq

/-- `Field::store`: the value and the padding behind it. -/
def Field.store (field : Field) (storage value : Key) : Option Key :=
  let size_value := min field.size value.length
  let size_pad := field.size - size_value
  (put storage field.off (value.take size_value)).bind fun storage =>
    put storage (field.off + size_value) (List.replicate size_pad PADDING)

/-- `Field::load`. -/
def Field.load (field : Field) (storage : Key) : Option Key :=
  if field.off + field.size ≤ storage.length then some (trim (slice storage field.off field.size))
  else none

/-- `Field::bytes`. -/
def Field.bytes (field : Field) : ℕ := field.off + field.size

/-- The loop of `iterateSchema` over the tokens from an offset on. -/
def iterateTokens {σ : Type*} (f : σ → Field → σ × Bool) : List Key → ℕ → σ → Bool × σ
  | [], _, st => (true, st)
  | s :: tokens, off, st =>
    let tok := pieces DELIMITER2 s
    let size := fromString 64 (tok.getD 0 []) 0
    if size = 0 then (false, st)
    else if MAX - size ≤ off then (false, st)
    else
      let name := tok.getD 1 []
      let r := f st ⟨off, size, if name ≠ [] then name else EMPTY_FIELD_NAME⟩
      if r.2 = true then (true, r.1) else iterateTokens f tokens (off + size) r.1

/-- `iterateSchema`. -/
def iterateSchema {σ : Type*} (f : σ → Field → σ × Bool) (schema : Key) (st : σ) : Bool × σ :=
  iterateTokens f (pieces DELIMITER1 schema) 0 st

/-- What the constructor of `ISAM` does with a field: a full container is cleared. -/
def push (container : List Field) (field : Field) : List Field × Bool :=
  if container.length = CONTAINER_SIZE then ([], true) else (container ++ [field], false)

/-- The octets of a record. -/
def bytesOf (container : List Field) : ℕ :=
  match container.getLast? with
  | none => 0
  | some field => field.bytes

/-! ## The layout -/

/-- Fields one behind the other, none of them empty, in a record that `size_t` can count. -/
structure IsLayout (container : List Field) : Prop where
  consecutive : Consecutive.From Field.off Field.size 0 container
  positive : ∀ field ∈ container, 0 < field.size
  bounded : Consecutive.total Field.size container < MAX
  fits : container.length ≤ CONTAINER_SIZE

theorem isLayout_nil : IsLayout [] where
  consecutive := trivial
  positive := fun _ h => absurd h List.not_mem_nil
  bounded := by decide
  fits := Nat.zero_le _

variable {container : List Field} {field : Field}

theorem IsLayout.concat (h : IsLayout container) (hlen : container.length ≠ CONTAINER_SIZE)
    (hoff : field.off = Consecutive.total Field.size container) (hsize : field.size ≠ 0)
    (hmax : field.off < MAX - field.size) : IsLayout (container ++ [field]) where
  consecutive := h.consecutive.concat (by rw [hoff, Nat.zero_add])
  positive := fun g hg => by
    rcases List.mem_append.mp hg with hg | hg
    · exact h.positive g hg
    · rw [List.mem_singleton.mp hg]
      exact Nat.pos_of_ne_zero hsize
  bounded := by
    rw [Consecutive.total_concat]
    omega
  fits := by
    have hfits := h.fits
    rw [List.length_append, List.length_singleton]
    omega

/-- A record ends where its last field ends. -/
theorem IsLayout.bytes_eq (h : IsLayout container) :
    bytesOf container = Consecutive.total Field.size container := by
  cases container using List.reverseRecOn with
  | nil => rfl
  | append_singleton container field =>
    have hoff := h.consecutive.off_eq (i := container.length) (x := field) (by simp)
    rw [List.take_left' rfl, Nat.zero_add] at hoff
    rw [bytesOf, List.getLast?_concat, Consecutive.total_concat]
    change field.off + field.size = _
    rw [hoff]

/-- The loop goes on from a layout to a layout. -/
theorem IsLayout.iterate (tokens : List Key) (h : IsLayout container) :
    IsLayout (iterateTokens push tokens (Consecutive.total Field.size container) container).2 := by
  induction tokens generalizing container with
  | nil => exact h
  | cons s tokens ih =>
    unfold iterateTokens
    dsimp only
    split
    · exact h
    · next hsize =>
      split
      · exact h
      · next hmax =>
        unfold push
        by_cases hlen : container.length = CONTAINER_SIZE
        · rw [if_pos hlen]
          exact isLayout_nil
        · rw [if_neg hlen, if_neg Bool.false_ne_true]
          have hnext := @IsLayout.concat container ⟨_, _, if (pieces DELIMITER2 s).getD 1 [] ≠ [] then
            (pieces DELIMITER2 s).getD 1 [] else EMPTY_FIELD_NAME⟩ h hlen rfl hsize
            (Nat.lt_of_not_le hmax)
          have hrest := ih hnext
          rw [Consecutive.total_concat] at hrest
          exact hrest

/-- The fields of a schema. -/
def fieldsOf (schema : Key) : List Field := (iterateSchema push schema []).2

theorem fieldsOf_isLayout (schema : Key) : IsLayout (fieldsOf schema) :=
  isLayout_nil.iterate (pieces DELIMITER1 schema)

/-- `ISAM`: a container of fields, which always lie one behind the other. -/
structure ISAM where
  container : List Field
  isLayout : IsLayout container

namespace ISAM

/-- The constructor of `ISAM` from a schema. -/
def ofSchema (schema : Key) : ISAM := ⟨fieldsOf schema, fieldsOf_isLayout schema⟩

/-- `ISAM::size`. -/
def size (isam : ISAM) : ℕ := isam.container.length

/-- `ISAM::bytes`. -/
def bytes (isam : ISAM) : ℕ := bytesOf isam.container

/-- `ISAM::store` of the field with a number. -/
def store (isam : ISAM) (storage : Key) (id : ℕ) (value : Key) : Option Key :=
  isam.container[id]?.bind fun field => field.store storage value

/-- `ISAM::load` of the field with a number. -/
def load (isam : ISAM) (storage : Key) (id : ℕ) : Option Key :=
  isam.container[id]?.bind fun field => field.load storage

end ISAM

/-! ## Padding -/

theorem trim_concat (s : Key) : trim (s ++ [PADDING]) = trim s :=
  List.rdropWhile_concat_pos _ _ _ (decide_eq_true rfl)

/-- Padding is trimmed. -/
theorem trim_append (s : Key) (n : ℕ) : trim (s ++ List.replicate n PADDING) = trim s := by
  induction n with
  | zero => rw [List.replicate_zero, List.append_nil]
  | succ n ih => rw [List.replicate_succ', ← List.append_assoc, trim_concat, ih]

/-- What a field of a size holds after a store. -/
def padded (size : ℕ) (value : Key) : Key :=
  value.take size ++ List.replicate (size - value.length) PADDING

theorem length_padded (size : ℕ) (value : Key) : (padded size value).length = size := by
  rw [padded, List.length_append, List.length_take, List.length_replicate]
  omega

/-- The two writes of a store are one. -/
theorem Field.store_eq (field : Field) (storage value : Key) :
    field.store storage value = put storage field.off (padded field.size value) := by
  have htake : value.take (min field.size value.length) = value.take field.size := by
    rw [← List.take_take, List.take_length]
  have hlen : (value.take field.size).length = min field.size value.length := List.length_take
  have hpad : field.size - min field.size value.length = field.size - value.length := by omega
  unfold Field.store padded
  dsimp only
  rw [htake, hpad, ← put_append, hlen]

/-- A store in a record keeps everything beside the field, and the value is loaded back as far as
the field holds it. -/
theorem Field.store_spec (field : Field) {storage : Key}
    (h : field.off + field.size ≤ storage.length) (value : Key) :
    ∃ storage', field.store storage value = some storage' ∧ storage'.length = storage.length ∧
      field.load storage' = some (trim (value.take field.size)) ∧
      ∀ i n, i + n ≤ field.off ∨ field.off + field.size ≤ i →
        slice storage' i n = slice storage i n := by
  have hlen := length_padded field.size value
  obtain ⟨storage', hput⟩ := exists_put_iff.mpr (show field.off + (padded field.size value).length ≤
    storage.length from hlen.symm ▸ h)
  have hsize := length_put hput
  have hread := slice_put hput
  rw [hlen] at hread
  refine ⟨storage', (field.store_eq storage value).trans hput, hsize, ?_, fun i n hin => ?_⟩
  · rw [Field.load, if_pos (hsize.symm ▸ h), hread, padded, trim_append]
  · exact slice_put_of_disjoint hput (hlen.symm ▸ hin)

/-! ## Schemas -/

/-- The text of one field in a schema. -/
def fieldText (f : ℕ × Key) : Key := numeral f.1 ++ DELIMITER2 :: f.2

/-- The text of a schema with fields of these sizes and names. -/
def schemaText (fields : List (ℕ × Key)) : Key :=
  List.intercalate [DELIMITER1] (fields.map fieldText)

/-- The name of a field, which must not be empty. -/
def nameOf (name : Key) : Key := if name ≠ [] then name else EMPTY_FIELD_NAME

/-- The fields of these sizes and names from an offset on. -/
def fieldsFrom : ℕ → List (ℕ × Key) → List Field
  | _, [] => []
  | off, f :: fields => ⟨off, f.1, nameOf f.2⟩ :: fieldsFrom (off + f.1) fields

theorem notMem_numeral {c : Byte} (h : isDigit c = false) (n : ℕ) : c ∉ numeral n := fun hc =>
  Bool.false_ne_true (h.symm.trans (isDigit_numeral n c hc))

/-- The pieces of one field's text are its size and its name. -/
theorem pieces_fieldText {f : ℕ × Key} (hname : DELIMITER2 ∉ f.2) :
    (pieces DELIMITER2 (fieldText f)).getD 0 [] = numeral f.1 ∧
      (pieces DELIMITER2 (fieldText f)).getD 1 [] = f.2 := by
  rw [fieldText, pieces_append (notMem_numeral (by decide) f.1)]
  refine ⟨rfl, ?_⟩
  rw [List.getD_cons_succ]
  by_cases hne : f.2 = []
  · rw [hne]
    rfl
  · rw [pieces_of_notMem hname hne]
    rfl

/-- The loop reads the fields that are written in the tokens. -/
theorem iterateTokens_fieldText {fields : List (ℕ × Key)} (container : List Field) {off : ℕ}
    (hsize : ∀ f ∈ fields, 0 < f.1) (hname : ∀ f ∈ fields, DELIMITER2 ∉ f.2)
    (hlen : container.length + fields.length ≤ CONTAINER_SIZE)
    (hmax : off + Consecutive.total Prod.fst fields < MAX) :
    iterateTokens push (fields.map fieldText) off container =
      (true, container ++ fieldsFrom off fields) := by
  induction fields generalizing container off with
  | nil => rw [fieldsFrom, List.append_nil]; rfl
  | cons f fields ih =>
    rw [Consecutive.total_cons] at hmax
    rw [List.length_cons] at hlen
    obtain ⟨hf, hfs⟩ := List.forall_mem_cons.mp hsize
    obtain ⟨hn, hns⟩ := List.forall_mem_cons.mp hname
    obtain ⟨hfirst, hsecond⟩ := pieces_fieldText hn
    have hlt : f.1 < 2 ^ 64 := by
      unfold MAX at hmax
      omega
    have hpush : ∀ field, push container field = (container ++ [field], false) := fun field => by
      rw [push, if_neg (by omega)]
    have hrest : iterateTokens push (fields.map fieldText) (off + f.1)
        (container ++ [⟨off, f.1, nameOf f.2⟩]) = _ :=
      ih _ hfs hns (by rw [List.length_append, List.length_singleton]; omega) (by omega)
    rw [List.map_cons, iterateTokens]
    dsimp only
    rw [hfirst, hsecond, fromString_numeral hlt, if_neg (Nat.ne_of_gt hf), if_neg (by omega), hpush,
      if_neg Bool.false_ne_true]
    exact hrest.trans (by rw [List.append_assoc]; rfl)

/-- What a schema's text describes is what is read. -/
theorem fieldsOf_schemaText {fields : List (ℕ × Key)} (hsize : ∀ f ∈ fields, 0 < f.1)
    (hname : ∀ f ∈ fields, DELIMITER1 ∉ f.2 ∧ DELIMITER2 ∉ f.2)
    (hlen : fields.length ≤ CONTAINER_SIZE) (hmax : Consecutive.total Prod.fst fields < MAX) :
    fieldsOf (schemaText fields) = fieldsFrom 0 fields := by
  have htokens : pieces DELIMITER1 (schemaText fields) = fields.map fieldText := by
    refine pieces_intercalate fun t ht => ?_
    obtain ⟨f, hf, rfl⟩ := List.mem_map.mp ht
    refine ⟨fun hmem => ?_, List.append_ne_nil_of_left_ne_nil (numeral_ne_nil _) _⟩
    rcases List.mem_append.mp hmem with hmem | hmem
    · exact notMem_numeral (by decide) _ hmem
    · rcases List.mem_cons.mp hmem with heq | hmem
      · exact absurd heq (by decide)
      · exact (hname f hf).1 hmem
  have hrun : iterateTokens push (fields.map fieldText) 0 [] = _ :=
    iterateTokens_fieldText [] hsize (fun f hf => (hname f hf).2)
      (by rw [List.length_nil]; omega) (by omega)
  rw [fieldsOf, iterateSchema, htokens, hrun]
  rfl

theorem fieldsFrom_names (off : ℕ) (fields : List (ℕ × Key)) :
    (fieldsFrom off fields).map (fun field => (field.size, field.name)) =
      fields.map fun f => (f.1, nameOf f.2) := by
  induction fields generalizing off with
  | nil => rfl
  | cons f fields ih => rw [fieldsFrom, List.map_cons, List.map_cons, ih]

/-! ## Records -/

/-- A field of a record that has all its octets can be stored; the value is loaded back as far as
the field holds it, and the other fields are as before. -/
theorem ISAM.store_spec (isam : ISAM) {storage : Key} (h : isam.bytes ≤ storage.length)
    {id : ℕ} {field : Field} (hid : isam.container[id]? = some field) (value : Key) :
    ∃ storage', isam.store storage id value = some storage' ∧ storage'.length = storage.length ∧
      isam.load storage' id = some (trim (value.take field.size)) ∧
      ∀ j other, j ≠ id → isam.container[j]? = some other →
        slice storage' other.off other.size = slice storage other.off other.size := by
  have hend := isam.isLayout.consecutive.end_le_total hid
  rw [Nat.zero_add, ← isam.isLayout.bytes_eq] at hend
  obtain ⟨storage', hstore, hlen, hload, hframe⟩ := field.store_spec (hend.trans h) value
  refine ⟨storage', ?_, hlen, ?_, fun j other hj hother => ?_⟩
  · rw [ISAM.store, hid]
    exact hstore
  · rw [ISAM.load, hid]
    exact hload
  · exact hframe _ _ (isam.isLayout.consecutive.beside hother hid hj)

/-- The record of a schema: its fields start one behind the other and each place of the record
belongs to exactly one of them, a store changes its own field only, and a load gives the stored
value, cut to the field and without the padding at its end. If the schema lists sizes and names,
these are the sizes and names of the fields. -/
theorem record_layout (schema : Key) :
    (∀ (i : ℕ) (field : Field), (ISAM.ofSchema schema).container[i]? = some field →
      0 < field.size ∧ field.off =
        Consecutive.total Field.size ((ISAM.ofSchema schema).container.take i)) ∧
    (ISAM.ofSchema schema).bytes =
      Consecutive.total Field.size (ISAM.ofSchema schema).container ∧
    (∀ k < (ISAM.ofSchema schema).bytes, ∃! i : ℕ, ∃ field : Field,
      (ISAM.ofSchema schema).container[i]? = some field ∧ field.off ≤ k ∧
        k < field.off + field.size) ∧
    (∀ (storage value : Key) (id : ℕ) (field : Field),
      (ISAM.ofSchema schema).bytes ≤ storage.length →
      (ISAM.ofSchema schema).container[id]? = some field →
      ∃ storage', (ISAM.ofSchema schema).store storage id value = some storage' ∧
        storage'.length = storage.length ∧
        (ISAM.ofSchema schema).load storage' id = some (trim (value.take field.size)) ∧
        ∀ (j : ℕ) (other : Field), j ≠ id → (ISAM.ofSchema schema).container[j]? = some other →
          slice storage' other.off other.size = slice storage other.off other.size) ∧
    (∀ fields : List (ℕ × Key), schema = schemaText fields → (∀ f ∈ fields, 0 < f.1) →
      (∀ f ∈ fields, DELIMITER1 ∉ f.2 ∧ DELIMITER2 ∉ f.2) → fields.length ≤ CONTAINER_SIZE →
      Consecutive.total Prod.fst fields < MAX →
      (ISAM.ofSchema schema).container.map (fun field => (field.size, field.name)) =
        fields.map fun f => (f.1, nameOf f.2)) := by
  have hlayout := (ISAM.ofSchema schema).isLayout
  have hbytes : (ISAM.ofSchema schema).bytes = _ := hlayout.bytes_eq
  refine ⟨fun i field hi => ⟨hlayout.positive field (List.mem_of_getElem? hi), ?_⟩, hbytes,
    fun k hk => ?_, fun storage value id field h hid => ?_, fun fields heq hsize hname hlen hmax => ?_⟩
  · rw [hlayout.consecutive.off_eq hi, Nat.zero_add]
  · exact hlayout.consecutive.existsUnique (Nat.zero_le k) (by rw [Nat.zero_add, ← hbytes]; exact hk)
  · exact (ISAM.ofSchema schema).store_spec h hid value
  · rw [heq]
    exact (congrArg _ (fieldsOf_schemaText hsize hname hlen hmax)).trans (fieldsFrom_names 0 fields)

/-- The schema `2:a,3:b`, and a value that is cut. -/
theorem record_layout_two_fields :
    ∃ storage, (ISAM.ofSchema (schemaText [(2, [97]), (3, [98])])).store
        [32, 32, 120, 121, 122] 0 [99, 100, 101] = some storage ∧ storage.length = 5 ∧
      (ISAM.ofSchema (schemaText [(2, [97]), (3, [98])])).load storage 0 =
        some (trim (List.take 2 [99, 100, 101])) ∧
      slice storage 2 3 = [120, 121, 122] := by
  have hfields : (ISAM.ofSchema (schemaText [(2, [97]), (3, [98])])).container =
      [⟨0, 2, [97]⟩, ⟨2, 3, [98]⟩] := by decide +kernel
  have hbytes : (ISAM.ofSchema (schemaText [(2, [97]), (3, [98])])).bytes = 5 := by
    rw [ISAM.bytes, hfields]
    rfl
  obtain ⟨storage, hstore, hlen, hload, hframe⟩ :=
    (record_layout (schemaText [(2, [97]), (3, [98])])).2.2.2.1 [32, 32, 120, 121, 122]
      [99, 100, 101] 0 ⟨0, 2, [97]⟩ (by rw [hbytes]; rfl) (by rw [hfields]; rfl)
  exact ⟨storage, hstore, hlen, hload, hframe 1 ⟨2, 3, [98]⟩ (by decide) (by rw [hfields]; rfl)⟩

end HM4.Isam
