import HM4.Vectors2
import HM4.RSetRuns

/-!
# The index of vectors

A vector has a key for each of the bands of its hash. A vector that is stored over another one
erases the keys of the old one, which are computed again from its octets with the type and the
dimension of the new one. Where these are not the old ones the keys stay behind.
-/

namespace HM4.VectorIndex

open LexPrefix Bytes Pairs PairFactory MemList KeyedList Database IndexToken RecordIndex
open VectorsStorage Vectors2 Patch
open ZSet (Env)
open RSet (makeKeyCtrl makeKeyData removeKeys insertKeys makeHashKeySort toHex hexDigit)

/-! ## Bands -/

/-- `MAX_BANDS`. -/
def MAX_BANDS : ℕ := 256

/-- `MIN_BITS`. -/
def MIN_BITS : ℕ := 12

/-- `MAX_BITS`. -/
def MAX_BITS : ℕ := 16

/-- `fixBits`. -/
def fixBits (bits : ℕ) : ℕ := if bits = 0 then MAX_BITS else min (max bits MIN_BITS) MAX_BITS

/-- `fixBands`. -/
def fixBands (bands : ℕ) : ℕ := if bands = 0 then MAX_BANDS else min (max bands 1) MAX_BANDS

/-- A bit of `hashEncode`. -/
def binDigit (val i : ℕ) : Byte := if val.testBit i = true then 49 else 48

/-- `hashEncode`: three hexadecimal digits, a dot and four bits. -/
def hashEncode (val : ℕ) : Key :=
  [hexDigit (val / 16 ^ 3 % 16), hexDigit (val / 16 ^ 2 % 16), hexDigit (val / 16 % 16), 46,
    binDigit val 3, binDigit val 2, binDigit val 1, binDigit val 0]

/-- The text of a band of a hash, without the bits that are skipped. -/
def bandText (bits id hash : ℕ) : Key :=
  (toHex 2 id ++ 46 :: hashEncode hash).take (2 + 1 + 8 - (MAX_BITS - bits))

section Decoder

variable (simhash : Element → Key → ℕ → ℕ)

/-- `Decoder`: the texts of the first bands of a stored vector, whose hashes are computed from its
octets. -/
def decoder (bands bits : ℕ) (T : Element) (dim_ix : ℕ) (data : Key) : Option (List Key) :=
  (toStoredVector T data dim_ix).map fun sv =>
    (List.range bands).map fun id => bandText bits id (simhash T sv id)

/-- `getPairPtrWithSize`. -/
def getPairPtrWithSize (now : UInt64) (key : Key) (size : ℕ) (db : Db) : Option Pair :=
  (getPairPtr now key db).filter fun p => p.val.length = size

/-- `getIndexes`. -/
def getIndexes (check : UInt64) (T : Element) (dim_ix : ℕ) (keyCtrl : Key) (db : Db) :
    Option (List Key) :=
  let pair :=
    if bytes T dim_ix ≠ 0 then getPairPtrWithSize check keyCtrl (bytes T dim_ix) db
    else getPairPtr check keyCtrl db
  pair.bind fun pair => decoder simhash (fixBands 0) (fixBits 0) T dim_ix pair.val

end Decoder

/-! ## Operations -/

theorem key_valid {key value : Key} (h : decide (isKeyValid key ∧ isValValid value) = true) :
    isKeyValid key := (of_decide_eq_true h).1

theorem value_valid {key value : Key} (h : decide (isKeyValid key ∧ isValValid value) = true) :
    isValValid value := (of_decide_eq_true h).2

/-- `VADD_Factory`, for what it writes into the value. -/
def vADD_Factory (key value : Key) : Factory where
  getKey := key
  getCreated := 0
  bytes := sizeofPair + key.length + value.length
  valid := isKeyValid key ∧ isValValid value
  create h now := full key value 0 now (key_valid h) (value_valid h)
  createHint h now old := VFactory.withValue old value now (value_valid h)
  valid_key h := key_valid h
  create_key _ _ := rfl
  create_bytes _ _ := rfl
  createHint_key _ _ _ hold := hold

/-- In place of a pair of the key the factory leaves what it would write. -/
theorem vADD_Factory_createHint {key value : Key} (h : (vADD_Factory key value).valid = true)
    (now : UInt64) {old : Pair} (hold : old.key = key) :
    (vADD_Factory key value).createHint h now old = (vADD_Factory key value).create h now := by
  subst hold
  rfl

section Operations

variable {F : Type*} [Zero F] [LT F] [DecidableLT F] (A : Arithmetic F)
  (simhash : Element → Key → ℕ → ℕ) (murmur_hash64a : Key → UInt64)

/-- What is written into the value of a vector, over what is in its memory; nothing if a write lies
outside. -/
def valueOf (raw : ℕ → Byte) (T : Element) (dim_ix : ℕ) (vector : List F) : Option Key :=
  puts ((List.range (bytes T dim_ix)).map raw) (createInRawMemory A T vector)

/-- `rset::add` of a vector. -/
def add (env : Env) (raw : ℕ → Byte) (T : Element) (dim_ix : ℕ) (keyN keySub : Key)
    (vector : List F) (db : Db) : Option Db :=
  let keySort := makeHashKeySort murmur_hash64a keySub []
  let keyCtrl := makeKeyCtrl keyN keySub
  let old := getIndexes simhash env.check T dim_ix keyCtrl db
  let db1 := old.elim db fun old => removeKeys env.erase old keyN keySub keySort db
  (valueOf A raw T dim_ix vector).map fun value =>
    let db2 := insertF env.ctrl.owned (vADD_Factory keyCtrl value) env.ctrl.now db1
    let indexes := (decoder simhash (fixBands 0) (fixBits 0) T dim_ix value).getD []
    insertKeys env.insert indexes keyN keySub keySort db2

/-- `rset::rem` of a vector. -/
def rem (env : Env) (T : Element) (dim_ix : ℕ) (keyN keySub : Key) (db : Db) : Db :=
  let keySort := makeHashKeySort murmur_hash64a keySub []
  let keyCtrl := makeKeyCtrl keyN keySub
  (getIndexes simhash env.check T dim_ix keyCtrl db).elim db fun old =>
    Database.erase env.ctrl keyCtrl (removeKeys env.erase old keyN keySub keySort db)

/-- `VADD`. -/
def vadd (env : ℕ → Env) (raw : ℕ → ℕ → Byte) (p : List Key) (db : Db) : Option (Reply × Db) :=
  match readAdd p with
  | .error message => some (.error message, db)
  | .ok a =>
    (a.items.zipIdx.foldlM (fun db x =>
      add A simhash murmur_hash64a (env x.2) (raw x.2) a.T a.dim_ix a.keyN x.1.1
        (createFloatVector A a.vtype x.1.2 a.dim_ve a.dim_ix) db) db).map fun db => (.ok, db)

/-- What `VREM` reads of its parameters. -/
structure RemArgs where
  keyN : Key
  dim_ix : ℕ
  T : Element
  keySubs : List Key

/-- What `VREM` checks. -/
def readRem (p : List Key) : Except ErrorMessage RemArgs :=
  if p.length < 5 then .error .NEED_GROUP_PARAMS_5
  else
    let keyN := p.getD 1 []
    if keyN = [] then .error .EMPTY_KEY
    else
      let dim_ix := fromString 32 (p.getD 2 []) 0
      if dim_ix < 1 ∨ MaxDimensions < dim_ix then .error .INVALID_PARAMETERS
      else
        match translateQType (p.getD 3 []) with
        | none => .error .INVALID_PARAMETERS
        | some T =>
          if ∃ keySub ∈ p.drop 4, ¬(valid keyN ∧ valid keySub) then .error .INVALID_KEY_SIZE
          else .ok ⟨keyN, dim_ix, T, p.drop 4⟩

/-- `VREM`. -/
def vrem (env : ℕ → Env) (p : List Key) (db : Db) : Reply × Db :=
  match readRem p with
  | .error message => (.error message, db)
  | .ok a =>
    (.bool true, a.keySubs.zipIdx.foldl (fun db x =>
      rem simhash murmur_hash64a (env x.2) a.T a.dim_ix a.keyN x.1 db) db)

end Operations

/-! ## Texts -/

theorem hexDigit_ne_separator : ∀ n < 16, hexDigit n ≠ separator := by decide

theorem binDigit_ne_separator (val i : ℕ) : binDigit val i ≠ separator := by
  unfold binDigit
  split <;> decide

/-- The text of a band is a valid token without separators. -/
theorem bandText_valid (bits id hash : ℕ) (hbits : MIN_BITS ≤ bits) :
    valid (bandText bits id hash) ∧ separator ∉ bandText bits id hash := by
  have hlen : (toHex 2 id ++ 46 :: hashEncode hash).length = 11 := by
    rw [List.length_append, toHex, List.length_map, List.length_range]
    rfl
  have hclear : separator ∉ toHex 2 id ++ 46 :: hashEncode hash := by
    intro hmem
    have hhex (n : ℕ) : hexDigit (n % 16) ≠ separator :=
      hexDigit_ne_separator _ (Nat.mod_lt _ (by decide))
    rcases List.mem_append.mp hmem with hmem | hmem
    · obtain ⟨i, -, hi⟩ := List.mem_map.mp hmem
      exact hhex _ hi
    · simp only [hashEncode, List.mem_cons, List.not_mem_nil, or_false] at hmem
      rcases hmem with h | h | h | h | h | h | h | h | h
      · exact absurd h (by decide)
      · exact hhex _ h.symm
      · exact hhex _ h.symm
      · exact hhex _ h.symm
      · exact absurd h (by decide)
      all_goals exact binDigit_ne_separator _ _ h.symm
  unfold bandText
  unfold MIN_BITS at hbits
  unfold MAX_BITS
  refine ⟨⟨fun hnil => ?_, ?_⟩, fun hmem => hclear (List.mem_of_mem_take hmem)⟩
  · have hzero := congrArg List.length hnil
    rw [List.length_take, hlen, List.length_nil] at hzero
    omega
  · rw [List.length_take, hlen]
    unfold INDEX_TOKEN_SIZE
    omega

theorem valid_keySort (murmur_hash64a : Key → UInt64) (keySub : Key) :
    valid (makeHashKeySort murmur_hash64a keySub []) ∧
      separator ∉ makeHashKeySort murmur_hash64a keySub [] := by
  have hlen : (toHex 16 (murmur_hash64a keySub).toNat).length = 16 := by
    rw [toHex, List.length_map, List.length_range]
  unfold makeHashKeySort
  rw [if_pos rfl]
  refine ⟨⟨fun hnil => ?_, by rw [hlen]; decide⟩, fun hmem => ?_⟩
  · rw [hnil] at hlen
    exact absurd hlen (by decide)
  · obtain ⟨i, -, hi⟩ := List.mem_map.mp hmem
    exact hexDigit_ne_separator _ (Nat.mod_lt _ (by decide)) hi

/-! ## Versions -/

/-- A vector as it is stored. -/
structure Version where
  T : Element
  dim : ℕ
  blob : Key

section Scheme

variable (simhash : Element → Key → ℕ → ℕ) (murmur_hash64a : Key → UInt64)

/-- The texts of all bands of a vector. -/
def texts (T : Element) (blob : Key) : List Key :=
  (List.range MAX_BANDS).map fun id => bandText MAX_BITS id (simhash T blob id)

/-- The key of a text. -/
def textKey (i : Key × Key) (text : Key) : Key :=
  makeKeyData i.1 i.2 (makeHashKeySort murmur_hash64a i.2 []) text

/-- All keys of vectors. -/
def scheme : Scheme (Key × Key) Version Key Key where
  ctrl i := makeKeyCtrl i.1 i.2
  keys i r := (texts simhash r.T r.blob).map (textKey murmur_hash64a i)
  encode r := r.blob

/-- Names of sets of vectors that have no separators in them, and of vectors in these. -/
def Named (sets : Key → Prop) (i : Key × Key) : Prop :=
  (sets i.1 ∧ separator ∉ i.1) ∧ valid i.1 ∧ valid i.2

variable {simhash murmur_hash64a} {sets : Key → Prop} {i : Key × Key}

theorem texts_valid {T : Element} {blob text : Key} (h : text ∈ texts simhash T blob) :
    valid text ∧ separator ∉ text := by
  obtain ⟨id, -, rfl⟩ := List.mem_map.mp h
  exact bandText_valid MAX_BITS id _ (by decide)

/-- The keys of a vector as they are written. -/
theorem textKey_eq (hi : Named sets i) {text : Key} (htext : valid text) :
    textKey murmur_hash64a i text = i.1 ++ separator :: (Separated.terminated separator
      [text, makeHashKeySort murmur_hash64a i.2 []] ++ i.2) ∧
      isKeyValid (textKey murmur_hash64a i text) :=
  RSet.makeKeyData_eq hi.2.1 hi.2.2 (valid_keySort murmur_hash64a i.2).1 htext

theorem dataKey_textKey (hi : Named sets i) {text : Key} (htext : valid text)
    (hclear : separator ∉ text) : DataKey 1 i.1 i.2 (textKey murmur_hash64a i text) := by
  refine ⟨text, _, (textKey_eq hi htext).1, htext.1, rfl, fun u hu => ?_⟩
  rcases List.mem_cons.mp hu with rfl | hu
  · exact hclear
  · rw [List.mem_singleton.mp hu]
    exact (valid_keySort murmur_hash64a i.2).2

/-- Different texts have different keys. -/
theorem textKey_inj (hi : Named sets i) {text text' : Key} (htext : valid text)
    (htext' : valid text') (h : textKey murmur_hash64a i text = textKey murmur_hash64a i text') :
    text = text' := by
  rw [(textKey_eq hi htext).1, (textKey_eq hi htext').1, List.append_cancel_left_eq,
    List.cons.injEq] at h
  have hcancel := List.append_cancel_right h.2
  rw [Separated.terminated_cons text, Separated.terminated_cons text'] at hcancel
  exact List.append_cancel_right hcancel

theorem mem_keys_iff (hi : Named sets i) {text : Key} (htext : valid text) {r : Version} :
    textKey murmur_hash64a i text ∈ (scheme simhash murmur_hash64a).keys i r ↔
      text ∈ texts simhash r.T r.blob := by
  refine ⟨fun h => ?_, fun h => List.mem_map_of_mem h⟩
  obtain ⟨text', hmem, heq⟩ := List.mem_map.mp h
  exact textKey_inj hi (texts_valid hmem).1 htext heq ▸ hmem

theorem dataKey_of_mem (hi : Named sets i) {r : Version} {k : Key}
    (hk : k ∈ (scheme simhash murmur_hash64a).keys i r) : DataKey 1 i.1 i.2 k ∧ isKeyValid k := by
  obtain ⟨text, hmem, rfl⟩ := List.mem_map.mp hk
  obtain ⟨htext, hclear⟩ := texts_valid hmem
  exact ⟨dataKey_textKey hi htext hclear, (textKey_eq hi htext).2⟩

/-- No two vectors share a key. -/
theorem separate : Separate (scheme simhash murmur_hash64a) (Named sets)
    fun i _ => Named sets i where
  used h := h
  ctrl_inj {i j} hi hj heq := by
    obtain ⟨hN, hS⟩ := recordKey_unique (L := 1) hi.1.2 hj.1.2
      (.inl (ZSet.makeKeyCtrl_eq hi.2.1 hi.2.2).1)
      (.inl (heq.trans (ZSet.makeKeyCtrl_eq hj.2.1 hj.2.2).1))
    exact Prod.ext hN hS
  ctrl_notMem {i j r} hi hj hmem := by
    have hdata := (dataKey_of_mem hj hmem).1
    obtain ⟨hN, hS⟩ := recordKey_unique (L := 1) hi.1.2 hj.1.2
      (.inl (ZSet.makeKeyCtrl_eq hi.2.1 hi.2.2).1) (.inr hdata)
    have hctrl : CtrlKey i.1 i.2 ((scheme simhash murmur_hash64a).ctrl i) :=
      (ZSet.makeKeyCtrl_eq hi.2.1 hi.2.2).1
    rw [hN] at hctrl
    exact hdata.not_ctrlKey hctrl
  keys_inj hi hj hk hk' := by
    obtain ⟨hN, hS⟩ := recordKey_unique hi.1.2 hj.1.2 (.inr (dataKey_of_mem hi hk).1)
      (.inr (dataKey_of_mem hj hk').1)
    exact Prod.ext hN hS

end Scheme

/-! ## One operation -/

section Step

variable {F : Type*} [Zero F] [LT F] [DecidableLT F] {A : Arithmetic F}
  {simhash : Element → Key → ℕ → ℕ} {murmur_hash64a : Key → UInt64} {sets : Key → Prop}
  {i : Key × Key} {db : Db}

/-- A vector is small enough for a pair. -/
theorem bytes_le (T : Element) (n : ℕ) : bytes T n ≤ 8 + 4 * n := by
  cases T <;> simp only [bytes, vdata, Element.sizeof, VectorsBit.bytes] <;> omega

theorem decoder_eq (T : Element) (dim : ℕ) (blob : Key) :
    decoder simhash (fixBands 0) (fixBits 0) T dim blob =
      (toStoredVector T blob dim).map fun sv => texts simhash T sv := rfl

theorem decoder_eq_some {T : Element} {dim : ℕ} {blob : Key} {old : List Key}
    (h : decoder simhash (fixBands 0) (fixBits 0) T dim blob = some old) :
    toStoredVector T blob dim = some blob ∧ old = texts simhash T blob := by
  rw [decoder_eq] at h
  obtain ⟨sv, hsv, rfl⟩ := Option.map_eq_some_iff.mp h
  obtain rfl : blob = sv := by
    unfold toStoredVector at hsv
    split_ifs at hsv
    exact Option.some.inj hsv
  exact ⟨hsv, rfl⟩

/-- The texts that are read off what the control key holds. -/
theorem getIndexes_eq (check : UInt64) (T : Element) (dim : ℕ) (keyCtrl : Key) (db : Db) :
    getIndexes simhash check T dim keyCtrl db =
      (holds check db keyCtrl).bind (decoder simhash (fixBands 0) (fixBits 0) T dim) := by
  have hbytes : bytes T dim ≠ 0 := by
    have hle := vdata_le_bytes T dim
    have hpos : 0 < vdata T := by cases T <;> decide
    omega
  unfold getIndexes getPairPtrWithSize
  dsimp only
  rw [if_pos hbytes, holds]
  cases getPairPtr check keyCtrl db with
  | none => rfl
  | some pair =>
    rw [Option.map_some, Option.bind_some, Option.filter_some]
    by_cases hsize : pair.val.length = bytes T dim
    · rw [if_pos (decide_eq_true hsize), Option.bind_some]
    · have hreject : toStoredVector T pair.val dim = none := if_pos hsize
      rw [if_neg (by rwa [decide_eq_true_iff]), decoder_eq, hreject]
      rfl

/-- The keys of some texts are removed. -/
theorem removeKeys_eq (hi : Named sets i) {old : List Key} (hold : ∀ text ∈ old, valid text)
    (write : Key → Write) (db : Db) :
    removeKeys write old i.1 i.2 (makeHashKeySort murmur_hash64a i.2 []) db =
      eraseKeys write (old.map (textKey murmur_hash64a i)) db := by
  rw [removeKeys, eraseKeys, List.foldl_map]
  refine List.foldl_ext _ _ _ fun db text htext => ?_
  exact if_pos ⟨hi.2.1, hi.2.2, (valid_keySort murmur_hash64a i.2).1, hold text htext⟩

theorem insertKeys_eq (hi : Named sets i) {new : List Key} (hnew : ∀ text ∈ new, valid text)
    (write : Key → Write) (db : Db) :
    insertKeys write new i.1 i.2 (makeHashKeySort murmur_hash64a i.2 []) db =
      Database.insertKeys write (new.map (textKey murmur_hash64a i)) i.2 db := by
  rw [RSet.insertKeys, Database.insertKeys, List.foldl_map]
  refine List.foldl_ext _ _ _ fun db text htext => ?_
  exact if_pos ⟨hi.2.1, hi.2.2, (valid_keySort murmur_hash64a i.2).1, hnew text htext⟩

/-- The value of a vector is written. -/
theorem holds_vADD_Factory (hi : Named sets i) {value : Key} (hne : value ≠ [])
    (hval : isValValid value) (owned : Bool) (written now : UInt64) (db : Db) :
    holds now (insertF owned (vADD_Factory (makeKeyCtrl i.1 i.2) value) written db) =
      Function.update (holds now db) (makeKeyCtrl i.1 i.2) (some value) := by
  have hvalid : (vADD_Factory (makeKeyCtrl i.1 i.2) value).valid = true :=
    decide_eq_true ⟨(ZSet.makeKeyCtrl_eq hi.2.1 hi.2.2).2, hval⟩
  exact holds_insertF hvalid rfl
    (fun written old hold => vADD_Factory_createHint hvalid written hold) (fun _ => rfl)
    (fun _ => rfl) hne owned written now db

/-- The keys that are computed from a vector with a type and a dimension. -/
def recomputed (simhash : Element → Key → ℕ → ℕ) (murmur_hash64a : Key → UInt64) (T : Element)
    (dim : ℕ) (i : Key × Key) (stored : Option Key) : List Key :=
  ((stored.bind (decoder simhash (fixBands 0) (fixBits 0) T dim)).getD []).map
    (textKey murmur_hash64a i)

/-- What is computed again are keys of the same name. -/
theorem mem_recomputed {T : Element} {dim : ℕ} {stored : Option Key} {k : Key}
    (h : k ∈ recomputed simhash murmur_hash64a T dim i stored) :
    ∃ r, k ∈ (scheme simhash murmur_hash64a).keys i r := by
  unfold recomputed at h
  cases hold : stored.bind (decoder simhash (fixBands 0) (fixBits 0) T dim) with
  | none =>
    rw [hold] at h
    exact absurd h List.not_mem_nil
  | some old =>
    rw [hold] at h
    obtain ⟨blob, -, hblob⟩ := Option.bind_eq_some_iff.mp hold
    obtain ⟨-, rfl⟩ := decoder_eq_some hblob
    exact ⟨⟨T, dim, blob⟩, h⟩

theorem removed_eq (hi : Named sets i) (env : Env) (T : Element) (dim : ℕ) {stored : Option Key}
    (hctrl : ∀ now, holds now db (makeKeyCtrl i.1 i.2) = stored) :
    ((getIndexes simhash env.check T dim (makeKeyCtrl i.1 i.2) db).elim db fun old =>
      removeKeys env.erase old i.1 i.2 (makeHashKeySort murmur_hash64a i.2 []) db) =
        eraseKeys env.erase (recomputed simhash murmur_hash64a T dim i stored) db := by
  unfold recomputed
  rw [getIndexes_eq, hctrl]
  cases hold : stored.bind (decoder simhash (fixBands 0) (fixBits 0) T dim) with
  | none => rfl
  | some old =>
    obtain ⟨blob, -, hblob⟩ := Option.bind_eq_some_iff.mp hold
    obtain ⟨-, rfl⟩ := decoder_eq_some hblob
    exact removeKeys_eq hi (fun text htext => (texts_valid htext).1) env.erase db

/-- What `add` writes. -/
theorem holds_add (hdb : Increasing Pair.key db) (hi : Named sets i) (env : Env)
    (raw : ℕ → Byte) (T : Element) (dim : ℕ) {stored : Option Key}
    (hctrl : ∀ now, holds now db (makeKeyCtrl i.1 i.2) = stored) {vector : List F} {value : Key}
    (hvalue : valueOf A raw T dim vector = some value)
    (hstored : toStoredVector T value dim = some value) (hval : isValValid value) :
    ∃ db', add A simhash murmur_hash64a env raw T dim i.1 i.2 vector db = some db' ∧
      Increasing Pair.key db' ∧ ∀ now k, holds now db' k =
        if k = (scheme simhash murmur_hash64a).ctrl i then some value
        else if k ∈ (scheme simhash murmur_hash64a).keys i ⟨T, dim, value⟩ then some i.2
        else if k ∈ recomputed simhash murmur_hash64a T dim i stored then none
        else holds now db k := by
  have hne : value ≠ [] := by
    rintro rfl
    have hlen := (toStoredVector_eq_some_iff.mp hstored).1
    have hle := vdata_le_bytes T dim
    have hpos : 0 < vdata T := by cases T <;> decide
    rw [List.length_nil] at hlen
    omega
  have hkeys : ∀ k ∈ (scheme simhash murmur_hash64a).keys i ⟨T, dim, value⟩, isKeyValid k :=
    fun k hk => (dataKey_of_mem hi hk).2
  have hsubVal : isValValid i.2 := hi.2.2.2.trans (by decide)
  have hremoved := @removed_eq simhash murmur_hash64a sets i db hi env T dim stored hctrl
  unfold add
  dsimp only
  rw [hremoved, hvalue, Option.map_some, decoder_eq, hstored, Option.map_some, Option.getD_some,
    insertKeys_eq hi fun text htext => (texts_valid htext).1]
  refine ⟨_, rfl, ?_, fun now k => ?_⟩
  · exact increasing_insertKeys (increasing_insertF (increasing_eraseKeys hdb _ _) _ _ _) _ _ _
  · refine (holds_insertKeys hkeys hsubVal hi.2.2.1 env.insert now _ k).trans ?_
    rw [holds_vADD_Factory hi hne hval]
    by_cases hk : k = (scheme simhash murmur_hash64a).ctrl i
    · have hnot : k ∉ (scheme simhash murmur_hash64a).keys i ⟨T, dim, value⟩ :=
        hk ▸ separate.ctrl_notMem hi hi
      have hself : k = makeKeyCtrl i.1 i.2 := hk
      rw [if_pos hk]
      refine (if_neg hnot).trans ?_
      rw [hself, Function.update_self]
    · have hother : k ≠ makeKeyCtrl i.1 i.2 := hk
      rw [if_neg hk, Function.update_of_ne hother, holds_eraseKeys hdb]

/-- What `rem` writes, if it reads the stored vector. -/
theorem holds_rem (hdb : Increasing Pair.key db) (hi : Named sets i) (env : Env) (T : Element)
    (dim : ℕ) {blob : Key} (hctrl : ∀ now, holds now db (makeKeyCtrl i.1 i.2) = some blob)
    (hread : toStoredVector T blob dim = some blob) :
    Increasing Pair.key (rem simhash murmur_hash64a env T dim i.1 i.2 db) ∧
      ∀ now k, holds now (rem simhash murmur_hash64a env T dim i.1 i.2 db) k =
        if k = (scheme simhash murmur_hash64a).ctrl i then none
        else if k ∈ (scheme simhash murmur_hash64a).keys i ⟨T, dim, blob⟩ then none
        else holds now db k := by
  unfold rem
  dsimp only
  rw [getIndexes_eq, hctrl, Option.bind_some, decoder_eq, hread, Option.map_some, Option.elim_some,
    removeKeys_eq hi fun text htext => (texts_valid htext).1]
  refine ⟨increasing_erase (increasing_eraseKeys hdb _ _) _ _, fun now k => ?_⟩
  rw [holds_erase (increasing_eraseKeys hdb _ _)]
  by_cases hk : k = (scheme simhash murmur_hash64a).ctrl i
  · have hself : k = makeKeyCtrl i.1 i.2 := hk
    rw [if_pos hk, hself, Function.update_self]
  · have hother : k ≠ makeKeyCtrl i.1 i.2 := hk
    rw [if_neg hk, Function.update_of_ne hother, holds_eraseKeys hdb]
    rfl

/-- A vector that is not read is not removed. -/
theorem rem_of_unread (env : Env) (T : Element) (dim : ℕ) {stored : Option Key}
    (hctrl : ∀ now, holds now db (makeKeyCtrl i.1 i.2) = stored)
    (hread : ∀ blob ∈ stored, toStoredVector T blob dim = none) :
    rem simhash murmur_hash64a env T dim i.1 i.2 db = db := by
  unfold rem
  dsimp only
  rw [getIndexes_eq, hctrl]
  cases stored with
  | none => rfl
  | some blob =>
    rw [Option.bind_some, decoder_eq, hread blob rfl]
    rfl

end Step

/-! ## Commands -/

/-- What a command does to one vector. -/
inductive Op
  | add (env : Env) (raw : ℕ → Byte) (a : AddArgs) (item : Key × Key)
  | rem (env : Env) (T : Element) (dim_ix : ℕ) (keyN keySub : Key)

/-- The name of the vector. -/
def Op.name : Op → Key × Key
  | add _ _ a item => (a.keyN, item.1)
  | rem _ _ _ keyN keySub => (keyN, keySub)

/-- The commands. -/
inductive Command
  | VADD (env : ℕ → Env) (raw : ℕ → ℕ → Byte) (p : List Key)
  | VREM (env : ℕ → Env) (p : List Key)

/-- The vectors of a command, one after another. -/
def Command.ops : Command → List Op
  | VADD env raw p =>
    match readAdd p with
    | .error _ => []
    | .ok a => a.items.zipIdx.map fun x => .add (env x.2) (raw x.2) a x.1
  | VREM env p =>
    match readRem p with
    | .error _ => []
    | .ok a => a.keySubs.zipIdx.map fun x => .rem (env x.2) a.T a.dim_ix a.keyN x.1

section Process

variable {F : Type*} [Zero F] [LT F] [DecidableLT F] (A : Arithmetic F)
  (simhash : Element → Key → ℕ → ℕ) (murmur_hash64a : Key → UInt64)

/-- What a command does. -/
def Command.process : Command → Db → Option (Reply × Db)
  | VADD env raw p => vadd A simhash murmur_hash64a env raw p
  | VREM env p => fun db => some (vrem simhash murmur_hash64a env p db)

/-- The list after some commands. -/
def run (commands : List Command) (db : Db) : Option Db :=
  commands.foldlM (fun db c => (c.process A simhash murmur_hash64a db).map Prod.snd) db

/-- What is written for an item of `VADD`. -/
def itemValue (raw : ℕ → Byte) (a : AddArgs) (item : Key × Key) : Option Key :=
  valueOf A raw a.T a.dim_ix (createFloatVector A a.vtype item.2 a.dim_ve a.dim_ix)

/-- What an operation does. -/
def Op.step : Op → Db → Option Db
  | add env raw a item => VectorIndex.add A simhash murmur_hash64a env raw a.T a.dim_ix a.keyN
      item.1 (createFloatVector A a.vtype item.2 a.dim_ve a.dim_ix)
  | rem env T dim_ix keyN keySub => fun db =>
      some (VectorIndex.rem simhash murmur_hash64a env T dim_ix keyN keySub db)

/-- The vectors that should be stored after an operation: one that is added is the last one of its
name, and one that is removed with a type and a dimension that do not read it stays. -/
def Op.after (m : Key × Key → Option Version) : Op → Key × Key → Option Version
  | add _ raw a item => Function.update m (a.keyN, item.1)
      ((itemValue A raw a item).map fun value => ⟨a.T, a.dim_ix, value⟩)
  | rem _ T dim_ix keyN keySub => Function.update m (keyN, keySub)
      ((m (keyN, keySub)).filter fun x => (toStoredVector T x.blob dim_ix).isNone)

/-- An operation that keeps the index of the stored vectors right. A vector that is added is not
made smaller to one dimension, and every text of the vector before is read off it again with the
new type and dimension, or is one of the new vector. A vector that is removed is read with its own
texts, or not at all. -/
def Op.Fits (m : Key × Key → Option Version) : Op → Prop
  | add _ raw a item => (a.dim_ix ≠ 1 ∨ a.dim_ve = 1) ∧ ∀ x ∈ m (a.keyN, item.1),
      ∀ text ∈ texts simhash x.T x.blob,
        text ∈ (decoder simhash MAX_BANDS MAX_BITS a.T a.dim_ix x.blob).getD [] ∨
          ∃ value ∈ itemValue A raw a item, text ∈ texts simhash a.T value
  | rem _ T dim_ix keyN keySub => ∀ x ∈ m (keyN, keySub),
      toStoredVector T x.blob dim_ix = none ∨
        ∀ text ∈ texts simhash x.T x.blob, text ∈ texts simhash T x.blob

/-- The vectors that should be stored after some operations. -/
def afterAll (ops : List Op) (m : Key × Key → Option Version) : Key × Key → Option Version :=
  ops.foldl (fun m o => o.after A m) m

/-- All operations keep the index right. -/
def AllFit : List Op → (Key × Key → Option Version) → Prop
  | [], _ => True
  | o :: ops, m => o.Fits A simhash m ∧ AllFit ops (o.after A m)

/-- The index of the vectors in some sets is right: the control keys hold the stored vectors, and a
name has keys for the texts of its stored vector and no other text. -/
structure Exact (sets : Key → Prop) (m : Key × Key → Option Version) (db : Db) : Prop where
  ctrl : ∀ now i, Named sets i → holds now db (makeKeyCtrl i.1 i.2) = (m i).map Version.blob
  text : ∀ now i, Named sets i → ∀ text, valid text → separator ∉ text →
    holds now db (textKey murmur_hash64a i text) =
      (m i).bind fun x => if text ∈ texts simhash x.T x.blob then some i.2 else none

end Process

/-! ## Runs -/

section Runs

variable {F : Type*} [Zero F] [LT F] [DecidableLT F] {A : Arithmetic F}
  {simhash : Element → Key → ℕ → ℕ} {murmur_hash64a : Key → UInt64} {sets : Key → Prop}

/-- The vectors, with what their keys hold. -/
def shown (m : Key × Key → Option Version) (i : Key × Key) : Option (Version × Key) :=
  (m i).map fun x => (x, i.2)

theorem shown_update (m : Key × Key → Option Version) (i : Key × Key) (x : Option Version) :
    shown (Function.update m i x) = Function.update (shown m) i (x.map fun x => (x, i.2)) := by
  funext j
  by_cases hj : j = i
  · subst hj
    rw [shown, Function.update_self, Function.update_self]
  · rw [shown, Function.update_of_ne hj, Function.update_of_ne hj, shown]

/-- What is known of an operation of an accepted command. -/
def Op.Sound : Op → Prop
  | add _ _ a item => (∃ p, readAdd p = .ok a) ∧ valid a.keyN ∧ valid item.1
  | rem _ _ _ keyN keySub => valid keyN ∧ valid keySub

/-- A store of vectors, against the list that it started with. -/
structure Stored (simhash : Element → Key → ℕ → ℕ) (murmur_hash64a : Key → UInt64)
    (sets : Key → Prop) (db0 : Db) (m : Key × Key → Option Version) (db : Db) : Prop where
  consistent : ∀ now, Consistent (scheme simhash murmur_hash64a) (Named sets)
    (fun i _ => Named sets i) (holds now db0) (shown m) (holds now db)

section Step

variable {db0 db : Db} {m : Key × Key → Option Version}
  (hstored : Stored simhash murmur_hash64a sets db0 m db)

include hstored

/-- What the control key of a name holds. -/
theorem Stored.ctrl_eq {i : Key × Key} (hi : Named sets i) (now : UInt64) :
    holds now db (makeKeyCtrl i.1 i.2) = (m i).map Version.blob := by
  have hc := (hstored.consistent now).ctrl hi
  rw [shown, Option.map_map] at hc
  exact hc

variable (hdb : Increasing Pair.key db)

include hdb

/-- A vector that is added. -/
theorem stored_add (env : Env) (raw : ℕ → Byte) {p : List Key} {a : AddArgs}
    (hread : readAdd p = .ok a) {item : Key × Key} (hi : Named sets (a.keyN, item.1))
    (hfits : (Op.add env raw a item).Fits A simhash m) :
    ∃ db', (Op.add env raw a item).step A simhash murmur_hash64a db = some db' ∧
      Increasing Pair.key db' ∧
        Stored simhash murmur_hash64a sets db0 ((Op.add env raw a item).after A m) db' := by
  obtain ⟨hdim, hcover⟩ := hfits
  obtain ⟨-, hle, hmax, -⟩ := readAdd_accepted hread
  obtain ⟨value, hvalue, haccept⟩ := exists_stored A a.T
    ((createFloatVector_dim A hread item.2).mpr hdim) (hle.trans hmax)
    (show ((List.range (bytes a.T a.dim_ix)).map raw).length = _ by
      rw [List.length_map, List.length_range])
  have hvalue' : itemValue A raw a item = some value := hvalue
  have hval : isValValid value := by
    rw [isValValid, (toStoredVector_eq_some_iff.mp haccept).1]
    have hbytes := bytes_le a.T a.dim_ix
    unfold MaxDimensions at hmax
    unfold maxValSize
    omega
  obtain ⟨db', hadd, hdb', hview⟩ :=
    holds_add hdb hi env raw a.T a.dim_ix (hstored.ctrl_eq hi) hvalue haccept hval
  refine ⟨db', hadd, hdb', ⟨fun now => ?_⟩⟩
  rw [Op.after, hvalue', Option.map_some, shown_update, Option.map_some]
  refine (hstored.consistent now).add separate hi item.1 (fun k hk => ?_) (fun x hx k hk => ?_) (hview now)
  · obtain ⟨r, hr⟩ := mem_recomputed hk
    exact ⟨r, hi, hr⟩
  · obtain ⟨y, hy, rfl⟩ := Option.map_eq_some_iff.mp hx
    obtain ⟨text, htext, rfl⟩ := List.mem_map.mp hk
    rcases hcover y hy text htext with hold | ⟨value', hvalue'', hnew⟩
    · refine .inl (List.mem_map_of_mem ?_)
      rw [hy]
      exact hold
    · obtain rfl := Option.some.inj (hvalue'.symm.trans hvalue'')
      exact .inr (List.mem_map_of_mem hnew)

/-- A vector that is removed. -/
theorem stored_rem (env : Env) (T : Element) (dim_ix : ℕ) {keyN keySub : Key}
    (hi : Named sets (keyN, keySub))
    (hfits : (Op.rem env T dim_ix keyN keySub).Fits A simhash m) :
    ∃ db', (Op.rem env T dim_ix keyN keySub).step A simhash murmur_hash64a db = some db' ∧
      Increasing Pair.key db' ∧
        Stored simhash murmur_hash64a sets db0 ((Op.rem env T dim_ix keyN keySub).after A m) db' := by
  have hctrl := hstored.ctrl_eq hi
  refine ⟨_, rfl, ?_⟩
  by_cases hread : ∀ blob ∈ (m (keyN, keySub)).map Version.blob,
      toStoredVector T blob dim_ix = none
  · -- the vector is not read and stays
    have hsame : (m (keyN, keySub)).filter
        (fun x => (toStoredVector T x.blob dim_ix).isNone) = m (keyN, keySub) := by
      cases hm : m (keyN, keySub) with
      | none => rfl
      | some x =>
        rw [hm] at hread
        rw [Option.filter_some, hread x.blob rfl]
        rfl
    rw [@rem_of_unread simhash murmur_hash64a (keyN, keySub) db env T dim_ix _ hctrl hread,
      Op.after, hsame, Function.update_eq_self]
    exact ⟨hdb, hstored⟩
  · obtain ⟨x, hx, hsome⟩ : ∃ x, m (keyN, keySub) = some x ∧
        toStoredVector T x.blob dim_ix ≠ none := by
      by_contra hnot
      refine hread fun blob hblob => ?_
      obtain ⟨x, hx, rfl⟩ := Option.map_eq_some_iff.mp hblob
      by_contra hne
      exact hnot ⟨x, hx, hne⟩
    have haccept : toStoredVector T x.blob dim_ix = some x.blob := by
      obtain ⟨sv, hsv⟩ := Option.ne_none_iff_exists'.mp hsome
      exact (decoder_eq_some (show decoder simhash _ _ T dim_ix x.blob = some _ by
        rw [decoder_eq, hsv]; rfl)).1
    have hcover := (hfits x hx).resolve_left hsome
    rw [hx, Option.map_some] at hctrl
    obtain ⟨hdb', hview⟩ := holds_rem hdb hi env T dim_ix hctrl haccept
    refine ⟨hdb', ⟨fun now => ?_⟩⟩
    have hgone : (m (keyN, keySub)).filter
        (fun x => (toStoredVector T x.blob dim_ix).isNone) = none := by
      rw [hx, Option.filter_some, haccept]
      rfl
    rw [Op.after, hgone, shown_update, Option.map_none]
    refine (hstored.consistent now).rem separate hi (fun k hk => ⟨_, hi, hk⟩)
      (fun y hy k hk => ?_) (hview now)
    obtain ⟨z, hz, rfl⟩ := Option.map_eq_some_iff.mp hy
    obtain rfl := Option.some.inj (hx.symm.trans hz)
    obtain ⟨text, htext, rfl⟩ := List.mem_map.mp hk
    exact List.mem_map_of_mem (hcover text htext)

end Step

/-- A vector of the type and the dimension of the one before fits. -/
theorem fits_of_same {m : Key × Key → Option Version} (env : Env) (raw : ℕ → Byte) {a : AddArgs}
    {item : Key × Key} (hdim : a.dim_ix ≠ 1 ∨ a.dim_ve = 1)
    (hsame : ∀ x ∈ m (a.keyN, item.1), x.T = a.T ∧
      toStoredVector a.T x.blob a.dim_ix = some x.blob) :
    (Op.add env raw a item).Fits A simhash m := by
  refine ⟨hdim, fun x hx text htext => .inl ?_⟩
  obtain ⟨hT, hread⟩ := hsame x hx
  have hdecoder : decoder simhash MAX_BANDS MAX_BITS a.T a.dim_ix x.blob =
      some (texts simhash x.T x.blob) := by
    unfold decoder
    rw [hread, hT]
    rfl
  rw [hdecoder]
  exact htext

/-- Operations that keep the index right. -/
theorem stored_run {ops : List Op} {db0 db : Db} {m : Key × Key → Option Version}
    (hsound : ∀ o ∈ ops, o.Sound) (hnamed : ∀ o ∈ ops, Named sets o.name)
    (hfits : AllFit A simhash ops m) (hdb : Increasing Pair.key db)
    (hstored : Stored simhash murmur_hash64a sets db0 m db) :
    ∃ db', ops.foldlM (fun db o => o.step A simhash murmur_hash64a db) db = some db' ∧
      Stored simhash murmur_hash64a sets db0 (afterAll A ops m) db' := by
  induction ops generalizing m db with
  | nil => exact ⟨db, rfl, hstored⟩
  | cons o ops ih =>
    have hfirst : ∃ db', o.step A simhash murmur_hash64a db = some db' ∧
        Increasing Pair.key db' ∧
          Stored simhash murmur_hash64a sets db0 (o.after A m) db' := by
      have hso := hsound o List.mem_cons_self
      have hname := hnamed o List.mem_cons_self
      cases o with
      | add env raw a item =>
        obtain ⟨p, hread⟩ := hso.1
        exact stored_add hstored hdb env raw hread hname hfits.1
      | rem env T dim_ix keyN keySub => exact stored_rem hstored hdb env T dim_ix hname hfits.1
    obtain ⟨db', hstep, hdb', hstored'⟩ := hfirst
    rw [List.foldlM_cons, hstep, Option.bind_eq_bind, Option.bind_some]
    exact ih (fun o' ho' => hsound o' (List.mem_cons_of_mem o ho'))
      (fun o' ho' => hnamed o' (List.mem_cons_of_mem o ho')) hfits.2 hdb' hstored'

theorem readRem_valid {p : List Key} {a : RemArgs} (h : readRem p = .ok a) :
    ∀ keySub ∈ a.keySubs, valid a.keyN ∧ valid keySub := by
  unfold readRem at h
  dsimp only at h
  split_ifs at h with _ _ _ hall
  · split at h <;> exact absurd h (by simp)
  split at h
  · exact absurd h (by simp)
  · obtain rfl := Except.ok.inj h
    intro keySub hmem
    by_contra hnot
    exact hall ⟨keySub, hmem, hnot⟩

theorem ops_sound (c : Command) : ∀ o ∈ c.ops, o.Sound := by
  cases c with
  | VADD env raw p =>
    rw [Command.ops]
    cases hread : readAdd p with
    | error message => exact fun o ho => absurd ho List.not_mem_nil
    | ok a =>
      intro o ho
      obtain ⟨x, hx, rfl⟩ := List.mem_map.mp ho
      have hitem := (readAdd_accepted hread).2.2.2 x.1 (List.fst_mem_of_mem_zipIdx hx)
      exact ⟨⟨p, hread⟩, (checkItem_eq_none_iff.mp hitem).2.1⟩
  | VREM env p =>
    rw [Command.ops]
    cases hread : readRem p with
    | error message => exact fun o ho => absurd ho List.not_mem_nil
    | ok a =>
      intro o ho
      obtain ⟨x, hx, rfl⟩ := List.mem_map.mp ho
      exact readRem_valid hread x.1 (List.fst_mem_of_mem_zipIdx hx)

theorem foldlM_some {α β : Type*} (f : β → α → β) (l : List α) (b : β) :
    l.foldlM (fun b a => some (f b a)) b = some (l.foldl f b) := by
  induction l generalizing b with
  | nil => rfl
  | cons a l ih => rw [List.foldlM_cons, List.foldl_cons, Option.bind_eq_bind, Option.bind_some, ih]

/-- A command does what its operations do. -/
theorem process_eq (c : Command) (db : Db) :
    (c.process A simhash murmur_hash64a db).map Prod.snd =
      c.ops.foldlM (fun db o => o.step A simhash murmur_hash64a db) db := by
  cases c with
  | VADD env raw p =>
    rw [Command.process, Command.ops, vadd]
    cases hread : readAdd p with
    | error message => rfl
    | ok a =>
      dsimp only
      rw [List.foldlM_map, Option.map_map]
      exact Option.map_id'
  | VREM env p =>
    rw [Command.process, Command.ops]
    unfold vrem
    cases hread : readRem p with
    | error message => rfl
    | ok a =>
      dsimp only
      rw [List.foldlM_map]
      exact (foldlM_some _ _ _).symm

theorem run_eq (commands : List Command) (db : Db) :
    run A simhash murmur_hash64a commands db = (commands.flatMap Command.ops).foldlM
      (fun db o => o.step A simhash murmur_hash64a db) db := by
  induction commands generalizing db with
  | nil => rfl
  | cons c commands ih =>
    rw [run, List.foldlM_cons, process_eq, List.flatMap_cons, List.foldlM_append]
    exact congrArg _ (funext ih)

/-- A store of vectors in sets that were empty has a right index. -/
theorem Stored.exact {db0 db : Db} {m : Key × Key → Option Version}
    (hstored : Stored simhash murmur_hash64a sets db0 m db)
    (hempty : ∀ now i, Named sets i → ∀ k, CtrlKey i.1 i.2 k ∨ DataKey 1 i.1 i.2 k →
      holds now db0 k = none) : Exact simhash murmur_hash64a sets m db := by
  refine ⟨fun now i hi => hstored.ctrl_eq hi now, fun now i hi text htext hclear => ?_⟩
  have hdata : DataKey 1 i.1 i.2 (textKey murmur_hash64a i text) :=
    dataKey_textKey hi htext hclear
  by_cases hsome : ∃ r : Version, text ∈ texts simhash r.T r.blob
  · obtain ⟨⟨T, dim, blob⟩, hr⟩ := hsome
    have hview := (hstored.consistent now).data (r := ⟨T, dim, blob⟩) hi _ ((mem_keys_iff hi htext).mpr hr)
    rw [hview, shown]
    cases m i with
    | none => rfl
    | some x =>
      rw [Option.map_some, Option.bind_some, Option.bind_some]
      exact if_congr (mem_keys_iff hi htext) rfl rfl
  · have hframe := (hstored.consistent now).frame (k := textKey murmur_hash64a i text)
      (fun j hj heq => ?_) fun j r hj hmem => ?_
    · rw [hframe, hempty now i hi _ (.inr hdata)]
      cases m i with
      | none => rfl
      | some x =>
        rw [Option.bind_some, if_neg fun h => hsome ⟨x, h⟩]
    · have hctrl : CtrlKey j.1 j.2 (textKey murmur_hash64a i text) :=
        heq.trans (ZSet.makeKeyCtrl_eq hj.2.1 hj.2.2).1
      obtain ⟨hN, -⟩ := recordKey_unique hi.1.2 hj.1.2 (.inr hdata) (.inl hctrl)
      rw [← hN] at hctrl
      exact hdata.not_ctrlKey hctrl
    · obtain ⟨hN, hS⟩ := recordKey_unique hi.1.2 hj.1.2 (.inr hdata)
        (.inr (dataKey_of_mem hj hmem).1)
      obtain rfl : i = j := Prod.ext hN hS
      exact hsome ⟨r, (mem_keys_iff hi htext).mp hmem⟩

theorem stored_start {db : Db}
    (hempty : ∀ now i, Named sets i → ∀ k, CtrlKey i.1 i.2 k ∨ DataKey 1 i.1 i.2 k →
      holds now db k = none) : Stored simhash murmur_hash64a sets db (fun _ => none) db :=
  ⟨fun now => consistent_empty
    (fun i hi => hempty now i hi _ (.inl (ZSet.makeKeyCtrl_eq hi.2.1 hi.2.2).1))
    fun i _ hi k hk => hempty now i hi k (.inr (dataKey_of_mem hi hk).1)⟩

theorem AllFit.of_append {ops ops' : List Op} {m : Key × Key → Option Version}
    (h : AllFit A simhash (ops ++ ops') m) : AllFit A simhash ops m := by
  induction ops generalizing m with
  | nil => exact trivial
  | cons o ops ih => exact ⟨h.1, ih h.2⟩

end Runs

/-! ## A vector under another type -/

/-- `VADD` of a zero with a type: the set is `k` and the name is `s`. -/
def addOne (type : Byte) : Command :=
  .VADD (fun _ => ZSet.quiet) (fun _ _ => 0)
    [[], [107], [49], [49], [type], [98], [115], List.replicate 4 0]

/-- What is read of it. -/
def oneArgs (T : Element) : AddArgs := ⟨[107], 1, 1, T, .BINARY_LE, [([115], List.replicate 4 0)]⟩

/-- Its operation. -/
def oneOp (T : Element) : Op :=
  .add ZSet.quiet (fun _ => 0) (oneArgs T) ([115], List.replicate 4 0)

/-- Hashes that differ for vectors of one type and the others. -/
def typeHash (T : Element) (_ : Key) (_ : ℕ) : ℕ := if T = .float then 0 else 1

theorem ops_float : (addOne 102).ops = [oneOp .float] := by rfl

theorem ops_int8 : (addOne 105).ops = [oneOp .int8_t] := by rfl

theorem named_one : Named (fun _ => True) ([107], [115]) :=
  ⟨⟨trivial, by decide⟩, by decide, by decide⟩

/-- What is stored for the vector. -/
theorem exists_one (T : Element) : ∃ value,
    itemValue zeros (fun _ => 0) (oneArgs T) ([115], List.replicate 4 0) = some value ∧
      toStoredVector T value 1 = some value :=
  exists_stored zeros T (show (createFloatVector zeros .BINARY_LE _ 1 1).length = 1 from rfl)
    (by decide) (by rw [List.length_map, List.length_range]; rfl)

/-- The text of the first band under the other type is another one. -/
theorem first_text_other (blob : Key) :
    bandText MAX_BITS 0 0 ∉ texts typeHash .int8_t blob := by
  intro hmem
  obtain ⟨id, -, hid⟩ := List.mem_map.mp hmem
  have hhash : typeHash .int8_t blob id = 1 := rfl
  have hread (val : ℕ) (id : ℕ) : (bandText MAX_BITS id val).getD 10 0 = binDigit val 0 := rfl
  have hlast := congrArg (fun l => l.getD 10 0) hid
  rw [hhash, hread, hread] at hlast
  exact absurd hlast (by decide)

end HM4.VectorIndex
