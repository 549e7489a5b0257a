import HM4.BitSetRuns
import HM4.InPlaceUpdate

/-!
# Bloom filters

The value of a pair is a vector of bits. An item sets as many of them as there are hash
functions, and is there if all of them are set. The number of bits comes with every request; the
writer asks for a value of the size of this number, the readers take any value.
-/

namespace HM4.BloomFilter

open LexPrefix Bytes Pairs PairFactory MemList KeyedList Database VFactory BitSet InPlaceUpdate
open Sketch (Hash getPairPtrWithSize)
open BitSetRuns (mapM_eq_some_iff)

/-! ## The bits of an item -/

/-- `BIT_MIN`. -/
def BIT_MIN : ℕ := 32

/-- `HASH_MAX`. -/
def HASH_MAX : ℕ := 16

/-- `std::clamp`. -/
def clamp (v lo hi : ℕ) : ℕ := if v < lo then lo else if hi < v then hi else v

/-- `max_bits` of a parameter. -/
def maxBitsOf (p : Key) : ℕ := clamp (fromString 64 p 0) BIT_MIN BIT_MAX

/-- `max_hash` of a parameter. -/
def maxHashOf (p : Key) : ℕ := clamp (fromString 64 p 0) 1 HASH_MAX

/-- `max_size` of a number of bits. -/
def maxSize (max_bits : ℕ) : ℕ := bitsSize (max_bits - 1)

/-- The position of an item under a seed, with `murmur_hash64a` as a parameter. -/
def position (hash : Hash) (max_bits : ℕ) (val : Key) (seed : ℕ) : ℕ :=
  (hash val seed).toNat % max_bits

/-- `bf_add`. -/
def bf_add (hash : Hash) (max_bits max_hash : ℕ) (data val : Key) : Key :=
  (List.range max_hash).foldl
    (fun data seed => (bitOps (position hash max_bits val seed)).set data true) data

/-- The loop of `bf_exists` over the seeds; a read behind the value has no result. -/
def existsLoop (hash : Hash) (max_bits : ℕ) (data val : Key) : List ℕ → Option Bool
  | [] => some true
  | seed :: seeds => do
    let bit ← (bitOps (position hash max_bits val seed)).get data
    if bit = false then some false else existsLoop hash max_bits data val seeds

/-- `bf_exists`. -/
def bf_exists (hash : Hash) (max_bits max_hash : ℕ) (data val : Key) : Option Bool :=
  existsLoop hash max_bits data val (List.range max_hash)

/-! ## The commands -/

/-- `getPairVal`. -/
def getPairVal (now : UInt64) (key : Key) (db : Db) : Key :=
  (getPairPtr now key db).elim [] Pair.val

theorem length_bf_add (hash : Hash) (max_bits max_hash : ℕ) (data val : Key) :
    (bf_add hash max_bits max_hash data val).length = data.length := by
  unfold bf_add
  induction List.range max_hash generalizing data with
  | nil => rfl
  | cons seed seeds ih => rw [List.foldl_cons, ih, length_set]

/-- The loop of `BFADD_Factory::action`. -/
def addAll (hash : Hash) (max_bits max_hash : ℕ) (items : List Key) (data : Key) : Key :=
  items.foldl (bf_add hash max_bits max_hash) data

theorem length_addAll (hash : Hash) (max_bits max_hash : ℕ) (items : List Key) (data : Key) :
    (addAll hash max_bits max_hash items data).length = data.length := by
  unfold addAll
  induction items generalizing data with
  | nil => rfl
  | cons val items ih => rw [List.foldl_cons, ih, length_bf_add]

/-- `BFADD_Factory::action`. -/
def action (hash : Hash) (max_bits max_hash : ℕ) (items : List Key) : Action Unit where
  run _ data := (addAll hash max_bits max_hash items data, ())
  length_run _ data := length_addAll hash max_bits max_hash items data

/-- `BFADD_Factory`. -/
def factory (hash : Hash) (key : Key) (pair : Option Pair) (max_bits max_hash : ℕ)
    (items : List Key) : IFactoryAction Unit :=
  ⟨true, true, key, maxSize max_bits, pair, FILL, action hash max_bits max_hash items⟩

/-- What a command finds out about its surroundings: whether the list owns the memory of its pair,
what is in new memory, and the times when the pair is looked at and written. -/
structure Place where
  owns : Bool
  raw : ℕ → Byte
  check : UInt64
  write : UInt64

/-- `BFADD`. -/
def BFADD (hash : Hash) (env : Place) (p : List Key) (db : Db) : Reply × Db :=
  match p with
  | _ :: key :: bits :: hashes :: items =>
    if p.length < 5 then (.error .NEED_MORE_PARAMS_4, db)
    else if ¬isKeyValid key then (.error .EMPTY_KEY, db)
    else if ∃ val ∈ items, val = [] then (.error .EMPTY_VAL, db)
    else
      let pair := getPairPtrWithSize env.check key (maxSize (maxBitsOf bits)) db
      let f := factory hash key pair (maxBitsOf bits) (maxHashOf hashes) items
      (.ok, (f.insertHint Entry.insertHintVFactory.size env.owns env.raw env.write pair db).db)
  | _ => (.error .NEED_MORE_PARAMS_4, db)

/-- `BFEXISTS`. -/
def BFEXISTS (hash : Hash) (now : UInt64) (p : List Key) (db : Db) : Option Reply :=
  match p with
  | [_, key, bits, hashes, val] =>
    if ¬isKeyValid key then some (.error .EMPTY_KEY)
    else if val = [] then some (.error .EMPTY_VAL)
    else
      let data := getPairVal now key db
      if data = [] then some (.bool false)
      else (bf_exists hash (maxBitsOf bits) (maxHashOf hashes) data val).map .bool
  | _ => some (.error .NEED_EXACT_PARAMS_4)

/-- `BFMEXISTS`. -/
def BFMEXISTS (hash : Hash) (now : UInt64) (p : List Key) (db : Db) : Option Reply :=
  match p with
  | _ :: key :: bits :: hashes :: items =>
    if p.length < 5 then some (.error .NEED_MORE_PARAMS_4)
    else if ¬isKeyValid key then some (.error .EMPTY_KEY)
    else if ∃ val ∈ items, val = [] then some (.error .EMPTY_VAL)
    else
      let data := getPairVal now key db
      if data = [] then some (.container (items.map fun _ => bitText false))
      else do
        let container ← items.mapM fun val =>
          (bf_exists hash (maxBitsOf bits) (maxHashOf hashes) data val).map bitText
        return .container container
  | _ => some (.error .NEED_MORE_PARAMS_4)

/-! ## Bounds -/

theorem maxBitsOf_bounds (p : Key) : 32 ≤ maxBitsOf p ∧ maxBitsOf p ≤ BIT_MAX := by
  have hmax : 32 ≤ BIT_MAX := by decide
  unfold maxBitsOf clamp BIT_MIN
  split_ifs <;> omega

theorem maxHashOf_pos (p : Key) : 0 < maxHashOf p := by
  have hmax : HASH_MAX = 16 := rfl
  unfold maxHashOf clamp
  split_ifs <;> omega

theorem maxSize_le (p : Key) : maxSize (maxBitsOf p) ≤ maxValSize := by
  have hmax : BIT_MAX = maxValSize * 8 := rfl
  obtain ⟨hmin, hle⟩ := maxBitsOf_bounds p
  unfold maxSize bitsSize
  omega

theorem position_lt (hash : Hash) (bits val : Key) (seed : ℕ) :
    position hash (maxBitsOf bits) val seed < maxBitsOf bits :=
  Nat.mod_lt _ (by have := (maxBitsOf_bounds bits).1; omega)

/-- Every position lies inside a value of the size of the bits. -/
theorem position_inside (hash : Hash) (bits val : Key) (seed : ℕ) {data : Key}
    (hdata : maxSize (maxBitsOf bits) ≤ data.length) :
    position hash (maxBitsOf bits) val seed / 8 < data.length := by
  have hlt := position_lt hash bits val seed
  unfold maxSize bitsSize at hdata
  omega

/-! ## Items in a value -/

section Items

variable {hash : Hash} {bits : Key} {max_hash : ℕ} {data val : Key}

/-- All bits of an item are set. -/
def Has (hash : Hash) (max_bits max_hash : ℕ) (data val : Key) : Prop :=
  ∀ seed < max_hash, bitAt data (position hash max_bits val seed) = true

theorem existsLoop_eq (hdata : maxSize (maxBitsOf bits) ≤ data.length) (seeds : List ℕ) :
    existsLoop hash (maxBitsOf bits) data val seeds =
      some (seeds.all fun seed => bitAt data (position hash (maxBitsOf bits) val seed)) := by
  induction seeds with
  | nil => rfl
  | cons seed seeds ih =>
    rw [existsLoop, get_of_lt (position_inside hash bits val seed hdata), Option.bind_eq_bind,
      Option.bind_some, List.all_cons]
    cases bitAt data (position hash (maxBitsOf bits) val seed) with
    | false => rfl
    | true =>
      rw [if_neg (by decide), ih]
      rfl

/-- In a value that is long enough every read has a result. -/
theorem bf_exists_eq (hdata : maxSize (maxBitsOf bits) ≤ data.length) :
    bf_exists hash (maxBitsOf bits) max_hash data val =
      some ((List.range max_hash).all fun seed =>
        bitAt data (position hash (maxBitsOf bits) val seed)) :=
  existsLoop_eq hdata _

theorem bf_exists_of_has (hdata : maxSize (maxBitsOf bits) ≤ data.length)
    (h : Has hash (maxBitsOf bits) max_hash data val) :
    bf_exists hash (maxBitsOf bits) max_hash data val = some true := by
  rw [bf_exists_eq hdata, Option.some_inj, List.all_eq_true]
  intro seed hseed
  exact h seed (List.mem_range.mp hseed)

/-- An item sets its own bits and no others. -/
theorem bitAt_bf_add (hdata : maxSize (maxBitsOf bits) ≤ data.length) (n : ℕ) :
    bitAt (bf_add hash (maxBitsOf bits) max_hash data val) n = true ↔
      (∃ seed < max_hash, n = position hash (maxBitsOf bits) val seed) ∨ bitAt data n = true := by
  have hloop (seeds : List ℕ) {data : Key} (hdata : maxSize (maxBitsOf bits) ≤ data.length) :
      bitAt (seeds.foldl (fun data seed =>
          (bitOps (position hash (maxBitsOf bits) val seed)).set data true) data) n = true ↔
        (∃ seed ∈ seeds, n = position hash (maxBitsOf bits) val seed) ∨ bitAt data n = true := by
    induction seeds generalizing data with
    | nil => simp
    | cons seed seeds ih =>
      rw [List.foldl_cons, ih (by rwa [length_set]),
        bitAt_set (position_inside hash bits val seed hdata)]
      simp only [List.mem_cons, exists_eq_or_imp]
      by_cases hn : n = position hash (maxBitsOf bits) val seed
      · simp [hn]
      · simp [hn]
  have hrange := hloop (List.range max_hash) hdata
  simp only [List.mem_range] at hrange
  exact hrange

theorem has_bf_add (hdata : maxSize (maxBitsOf bits) ≤ data.length) :
    Has hash (maxBitsOf bits) max_hash (bf_add hash (maxBitsOf bits) max_hash data val) val :=
  fun seed hseed => (bitAt_bf_add hdata _).mpr (.inl ⟨seed, hseed, rfl⟩)

theorem Has.bf_add {item : Key} (h : Has hash (maxBitsOf bits) max_hash data item)
    (hdata : maxSize (maxBitsOf bits) ≤ data.length) :
    Has hash (maxBitsOf bits) max_hash (bf_add hash (maxBitsOf bits) max_hash data val) item :=
  fun seed hseed => (bitAt_bf_add hdata _).mpr (.inr (h seed hseed))

/-- All items are there afterwards, and those that were there before. -/
theorem has_addAll (items : List Key) (hdata : maxSize (maxBitsOf bits) ≤ data.length)
    {item : Key} (h : item ∈ items ∨ Has hash (maxBitsOf bits) max_hash data item) :
    Has hash (maxBitsOf bits) max_hash (addAll hash (maxBitsOf bits) max_hash items data) item := by
  induction items generalizing data with
  | nil => exact h.resolve_left List.not_mem_nil
  | cons val items ih =>
    have hlen : maxSize (maxBitsOf bits) ≤
        (BloomFilter.bf_add hash (maxBitsOf bits) max_hash data val).length := by
      rwa [length_bf_add]
    refine ih hlen ?_
    rcases h with h | h
    · rcases List.mem_cons.mp h with rfl | h
      · exact .inr (has_bf_add hdata)
      · exact .inl h
    · exact .inr (h.bf_add hdata)

end Items

/-! ## Runs of `BFADD` -/

/-- A request of `BFADD` with the parameters of all of them. -/
structure Request where
  env : Place
  cmd : Key
  items : List Key

section Runs

variable (hash : Hash) (key bits hashes : Key)

/-- What a request leaves of the list. -/
def Request.step (db : Db) (r : Request) : Db :=
  (BFADD hash r.env (r.cmd :: key :: bits :: hashes :: r.items) db).2

/-- The items that a request adds, if it is accepted. -/
def Request.added (r : Request) : List Key :=
  if isKeyValid key ∧ ¬∃ val ∈ r.items, val = [] then r.items else []

/-- Requests one after the other. -/
def run (requests : List Request) (db : Db) : Db :=
  requests.foldl (Request.step hash key bits hashes) db

/-- All items that were added. -/
def added (requests : List Request) : List Key := requests.flatMap (Request.added key)

/-- When something was added, the key has a value of the right size for ever, with all items. -/
def Shows (items : List Key) (db : Db) : Prop :=
  items ≠ [] → ∃ p, get key db = some p ∧ p.expires = 0 ∧
    p.val.length = maxSize (maxBitsOf bits) ∧
    ∀ item ∈ items, Has hash (maxBitsOf bits) (maxHashOf hashes) p.val item

variable {hash key bits hashes} {db : Db} {items : List Key}

theorem getPairPtr_of_forever {p : Pair} (hget : get key db = some p) (hexp : p.expires = 0)
    (hlen : p.val.length = maxSize (maxBitsOf bits)) (now : UInt64) :
    getPairPtr now key db = some p := by
  have hne : p.val ≠ [] := by
    rintro hnil
    rw [hnil] at hlen
    exact Nat.succ_ne_zero _ hlen.symm
  rw [getPairPtr, hget, Option.filter_some, if_pos (isOK_of_forever hne hexp now)]

/-- One request. -/
theorem Shows.step (h : Shows hash key bits hashes items db) (r : Request) :
    Shows hash key bits hashes (items ++ r.added key)
      (r.step hash key bits hashes db) := by
  unfold Request.step BFADD Request.added
  dsimp only
  by_cases hcount : r.items = []
  · have hfew : (r.cmd :: key :: bits :: hashes :: r.items).length < 5 := by simp [hcount]
    rw [if_pos hfew, hcount, ite_self, List.append_nil]
    exact h
  have hcount' : ¬(r.cmd :: key :: bits :: hashes :: r.items).length < 5 := by
    have hpos := List.length_pos_of_ne_nil hcount
    simp only [List.length_cons]
    omega
  rw [if_neg hcount']
  by_cases hkey : isKeyValid key
  swap
  · rw [if_pos hkey, if_neg (fun hc => hkey hc.1), List.append_nil]
    exact h
  rw [if_neg (not_not.mpr hkey)]
  by_cases hempty : ∃ val ∈ r.items, val = []
  · rw [if_pos hempty, if_neg (fun hc => hc.2 hempty), List.append_nil]
    exact h
  rw [if_neg hempty, if_pos ⟨hkey, hempty⟩]
  intro _
  have hupdates : (factory hash key (getPairPtrWithSize r.env.check key (maxSize (maxBitsOf bits)) db)
      (maxBitsOf bits) (maxHashOf hashes) r.items).Updates db :=
    { valid := ⟨hkey, maxSize_le bits⟩
      copies := rfl
      same := rfl
      alone := fun _ _ _ => rfl
      handed := fun p hp => by
        obtain ⟨hptr, hlen⟩ := Option.filter_eq_some_iff.mp hp
        exact ⟨Option.eq_some_of_filter_eq_some hptr, of_decide_eq_true hlen⟩ }
  obtain ⟨data, hlen, hdata, hval, hput⟩ :=
    hupdates.insertHint Entry.insertHintVFactory.size r.env.owns r.env.raw r.env.write
  have hlen' : maxSize (maxBitsOf bits) = data.length := hlen.symm
  have hself := lookup_put_self Pair.key (full key _ 0 r.env.write hkey hval) db
  refine ⟨full key _ 0 r.env.write hkey hval, (congrArg (get key) hput).trans hself, rfl, ?_, ?_⟩
  · exact (length_addAll _ _ _ _ _).trans hlen
  · intro item hitem
    refine has_addAll r.items hlen'.le ?_
    rcases List.mem_append.mp hitem with hold | hnew
    · obtain ⟨p, hget, hexp, hplen, hall⟩ := h (List.ne_nil_of_mem hold)
      have hptr : getPairPtrWithSize r.env.check key (maxSize (maxBitsOf bits)) db = some p := by
        rw [getPairPtrWithSize, getPairPtr_of_forever hget hexp hplen, Option.filter_some,
          if_pos (decide_eq_true hplen)]
      rw [hdata p hptr]
      exact .inr (hall item hold)
    · exact .inl hnew

/-- Every run of requests. -/
theorem Shows.run (h : Shows hash key bits hashes items db) (requests : List Request) :
    Shows hash key bits hashes (items ++ added key requests)
      (BloomFilter.run hash key bits hashes requests db) := by
  induction requests generalizing db items with
  | nil =>
    have hnil : added key [] = [] := rfl
    rw [hnil, List.append_nil]
    exact h
  | cons r requests ih =>
    have hcons : added key (r :: requests) = r.added key ++ added key requests := List.flatMap_cons
    rw [hcons, ← List.append_assoc]
    exact ih (h.step r)

/-- Any run of requests, from any list. -/
theorem shows_run (hash : Hash) (key bits hashes : Key) (requests : List Request) (db : Db) :
    Shows hash key bits hashes (added key requests) (run hash key bits hashes requests db) := by
  have hstart : Shows hash key bits hashes [] db := fun h => absurd rfl h
  exact hstart.run requests

theorem mem_added {requests : List Request} {item : Key} (h : item ∈ added key requests) :
    isKeyValid key ∧ item ≠ [] := by
  obtain ⟨r, -, hr⟩ := List.mem_flatMap.mp h
  unfold Request.added at hr
  split at hr
  · next hvalid => exact ⟨hvalid.1, fun hnil => hvalid.2 ⟨item, hr, hnil⟩⟩
  · exact absurd hr List.not_mem_nil

/-- The value that the readers find. -/
theorem Shows.getPairVal (h : Shows hash key bits hashes items db) (hne : items ≠ [])
    (now : UInt64) :
    getPairVal now key db ≠ [] ∧
      maxSize (maxBitsOf bits) ≤ (getPairVal now key db).length ∧
      ∀ item ∈ items, Has hash (maxBitsOf bits) (maxHashOf hashes) (getPairVal now key db) item := by
  obtain ⟨p, hget, hexp, hlen, hall⟩ := h hne
  have hval : BloomFilter.getPairVal now key db = p.val := by
    rw [BloomFilter.getPairVal, getPairPtr_of_forever hget hexp hlen]
    rfl
  rw [hval]
  refine ⟨?_, hlen.ge, hall⟩
  rintro hnil
  rw [hnil] at hlen
  exact Nat.succ_ne_zero _ hlen.symm

/-- Both readers report the items that are there. -/
theorem Shows.present (h : Shows hash key bits hashes items db) (hkey : isKeyValid key)
    (hitems : ∀ item ∈ items, item ≠ []) (now : UInt64) (cmd : Key) :
    (∀ item ∈ items, BFEXISTS hash now [cmd, key, bits, hashes, item] db = some (.bool true)) ∧
      ∀ asked, asked ≠ [] → asked ⊆ items →
        BFMEXISTS hash now (cmd :: key :: bits :: hashes :: asked) db =
          some (.container (asked.map fun _ => bitText true)) := by
  constructor
  · intro item hitem
    obtain ⟨hval, hlen, hall⟩ := h.getPairVal (List.ne_nil_of_mem hitem) now
    unfold BFEXISTS
    dsimp only
    rw [if_neg (not_not.mpr hkey), if_neg (hitems item hitem), if_neg hval,
      bf_exists_of_has hlen (hall item hitem)]
    rfl
  · intro asked hne hsub
    obtain ⟨val, hvalmem⟩ := List.exists_mem_of_ne_nil asked hne
    obtain ⟨hval, hlen, hall⟩ := h.getPairVal (List.ne_nil_of_mem (hsub hvalmem)) now
    have hcount : ¬(cmd :: key :: bits :: hashes :: asked).length < 5 := by
      have hpos := List.length_pos_of_ne_nil hne
      simp only [List.length_cons]
      omega
    have hempty : ¬∃ val ∈ asked, val = [] := fun ⟨val, hmem, hnil⟩ =>
      hitems val (hsub hmem) hnil
    have hmap : (asked.mapM fun val =>
        (bf_exists hash (maxBitsOf bits) (maxHashOf hashes) (BloomFilter.getPairVal now key db)
          val).map bitText) = some (asked.map fun _ => bitText true) := by
      refine mapM_eq_some_iff.mpr fun val hmem => ?_
      rw [bf_exists_of_has hlen (hall val (hsub hmem))]
      rfl
    unfold BFMEXISTS
    dsimp only
    rw [if_neg hcount, if_neg (not_not.mpr hkey), if_neg hempty, if_neg hval, hmap]
    rfl

end Runs

/-! ## Reads outside the value -/

/-- Neither reader reads outside the value, whatever the hash function is. -/
def ReadsInside (now : UInt64) (p : List Key) (db : Db) : Prop :=
  ∀ hash, BFEXISTS hash now p db ≠ none ∧ BFMEXISTS hash now p db ≠ none

/-- If the readers accept the parameters, then there is no value or it has as many octets as the
bits need. -/
def LongEnough (now : UInt64) (p : List Key) (db : Db) : Prop :=
  match p with
  | _ :: key :: bits :: _ :: items =>
    isKeyValid key → items ≠ [] → (∀ val ∈ items, val ≠ []) →
      getPairVal now key db = [] ∨ maxSize (maxBitsOf bits) ≤ (getPairVal now key db).length
  | _ => True

section Reads

variable {hash : Hash} {now : UInt64} {cmd key bits hashes : Key} {items : List Key} {db : Db}

/-- The answers of `BFMEXISTS` when all reads are inside. -/
theorem mapM_bf_exists (hash : Hash) (hashes : Key) (items : List Key) {data : Key}
    (hlen : maxSize (maxBitsOf bits) ≤ data.length) :
    ∃ container, (items.mapM fun val =>
      (bf_exists hash (maxBitsOf bits) (maxHashOf hashes) data val).map bitText) =
        some container := by
  refine ⟨items.map fun val => bitText ((List.range (maxHashOf hashes)).all fun seed =>
    bitAt data (position hash (maxBitsOf bits) val seed)), ?_⟩
  refine mapM_eq_some_iff.mpr fun val _ => ?_
  rw [bf_exists_eq hlen, Option.map_some]

/-- A value that is long enough, or none, is read inside. -/
theorem readsInside_of_longEnough (h : LongEnough now (cmd :: key :: bits :: hashes :: items) db) :
    ReadsInside now (cmd :: key :: bits :: hashes :: items) db := by
  intro hash
  have hlen (hkey : isKeyValid key) (hne : items ≠ []) (hitems : ¬∃ val ∈ items, val = [])
      (hval : getPairVal now key db ≠ []) :
      maxSize (maxBitsOf bits) ≤ (getPairVal now key db).length :=
    (h hkey hne fun val hmem hnil => hitems ⟨val, hmem, hnil⟩).resolve_left hval
  constructor
  · unfold BFEXISTS
    split
    · next heq =>
      simp only [List.cons.injEq] at heq
      obtain ⟨-, rfl, rfl, rfl, rfl⟩ := heq
      by_cases hkey : isKeyValid key
      swap
      · rw [if_pos hkey]
        exact Option.some_ne_none _
      rw [if_neg (not_not.mpr hkey)]
      split
      · exact Option.some_ne_none _
      next hitem =>
      dsimp only
      split
      · exact Option.some_ne_none _
      · next hval =>
        have hbound := hlen hkey (List.cons_ne_nil _ _) (by simpa using hitem) hval
        rw [bf_exists_eq hbound]
        exact Option.some_ne_none _
    · exact Option.some_ne_none _
  · unfold BFMEXISTS
    dsimp only
    split
    · exact Option.some_ne_none _
    next hcount =>
    by_cases hkey : isKeyValid key
    swap
    · rw [if_pos hkey]
      exact Option.some_ne_none _
    rw [if_neg (not_not.mpr hkey)]
    split
    · exact Option.some_ne_none _
    next hitems =>
    split
    · exact Option.some_ne_none _
    · next hval =>
      have hne : items ≠ [] := by
        rintro rfl
        exact hcount (by simp)
      obtain ⟨container, hmap⟩ := mapM_bf_exists hash hashes items (hlen hkey hne hitems hval)
      rw [hmap]
      exact Option.some_ne_none _

/-- A hash function that gives the last bit for every item. -/
def lastBit (bits : Key) : Hash := fun _ _ => UInt64.ofNat (maxBitsOf bits - 1)

theorem position_lastBit (val : Key) (seed : ℕ) :
    position (lastBit bits) (maxBitsOf bits) val seed = maxBitsOf bits - 1 := by
  obtain ⟨hmin, hle⟩ := maxBitsOf_bounds bits
  have hmax : BIT_MAX < UInt64.size := by decide
  unfold position lastBit
  rw [UInt64.toNat_ofNat_of_lt' (by omega)]
  exact Nat.mod_eq_of_lt (by omega)

/-- A value that is too short is read behind its end when a hash function gives the last bit. -/
theorem bf_exists_lastBit {data : Key} (hshort : data.length < maxSize (maxBitsOf bits))
    (val : Key) : bf_exists (lastBit bits) (maxBitsOf bits) (maxHashOf hashes) data val = none := by
  obtain ⟨n, hn⟩ := Nat.exists_eq_succ_of_ne_zero (maxHashOf_pos hashes).ne'
  have hle : data.length ≤ (maxBitsOf bits - 1) / 8 := by
    unfold maxSize bitsSize at hshort
    omega
  rw [bf_exists, hn, List.range_succ_eq_map, existsLoop, position_lastBit, get_of_le hle]
  rfl

theorem longEnough_of_readsInside (h : ReadsInside now (cmd :: key :: bits :: hashes :: items) db) :
    LongEnough now (cmd :: key :: bits :: hashes :: items) db := by
  intro hkey hne hitems
  by_contra hnot
  rw [not_or, not_le] at hnot
  obtain ⟨hval, hshort⟩ := hnot
  apply (h (lastBit bits)).2
  have hcount : ¬(cmd :: key :: bits :: hashes :: items).length < 5 := by
    have hpos := List.length_pos_of_ne_nil hne
    simp only [List.length_cons]
    omega
  have hempty : ¬∃ val ∈ items, val = [] := fun ⟨val, hmem, hnil⟩ => hitems val hmem hnil
  unfold BFMEXISTS
  dsimp only
  rw [if_neg hcount, if_neg (not_not.mpr hkey), if_neg hempty, if_neg hval]
  obtain ⟨val, rest, rfl⟩ := List.exists_cons_of_ne_nil hne
  rw [List.mapM_cons, bf_exists_lastBit hshort]
  rfl

end Reads

/-- After any run of `BFADD` with one pair of parameters both readers report every item that was
added; and they read inside the value, whatever the hash function is, if and only if there is no
value or it has as many octets as the bits need. -/
theorem readers_iff (now : UInt64) (p : List Key) (db : Db) :
    (∀ hash key bits hashes requests db now cmd,
      (∀ item ∈ added key requests, BFEXISTS hash now [cmd, key, bits, hashes, item]
        (run hash key bits hashes requests db) = some (.bool true)) ∧
      ∀ asked, asked ≠ [] → asked ⊆ added key requests →
        BFMEXISTS hash now (cmd :: key :: bits :: hashes :: asked)
          (run hash key bits hashes requests db) =
            some (.container (asked.map fun _ => bitText true))) ∧
    (ReadsInside now p db ↔ LongEnough now p db) := by
  constructor
  · intro hash key bits hashes requests db now cmd
    have hshows := shows_run hash key bits hashes requests db
    constructor
    · intro item hitem
      have hkey := (mem_added hitem).1
      exact (hshows.present hkey (fun item h => (mem_added h).2) now cmd).1 item hitem
    · intro asked hne hsub
      obtain ⟨item, hitem⟩ := List.exists_mem_of_ne_nil asked hne
      have hkey := (mem_added (hsub hitem)).1
      exact (hshows.present hkey (fun item h => (mem_added h).2) now cmd).2 asked hne hsub
  · rcases p with _ | ⟨cmd, _ | ⟨key, _ | ⟨bits, _ | ⟨hashes, items⟩⟩⟩⟩
    · exact iff_of_true (fun _ => ⟨by simp [BFEXISTS], by simp [BFMEXISTS]⟩) trivial
    · exact iff_of_true (fun _ => ⟨by simp [BFEXISTS], by simp [BFMEXISTS]⟩) trivial
    · exact iff_of_true (fun _ => ⟨by simp [BFEXISTS], by simp [BFMEXISTS]⟩) trivial
    · exact iff_of_true (fun _ => ⟨by simp [BFEXISTS], by simp [BFMEXISTS]⟩) trivial
    · exact ⟨longEnough_of_readsInside, readsInside_of_longEnough⟩

/-- `SET k a`, then `BFEXISTS k 64 1 x`: a value of one octet is asked for 64 bits. -/
theorem not_readsInside_short : ¬ReadsInside 0 [[98], [107], [54, 52], [49], [120]]
    [full [107] [97] 0 0 (by decide) (by decide)] := by
  intro h
  have hnone : bf_exists (lastBit [54, 52]) (maxBitsOf [54, 52]) (maxHashOf [49]) [97] [120] = none :=
    bf_exists_lastBit (by decide) [120]
  apply (h (lastBit [54, 52])).1
  have hval : getPairVal 0 [107] [full [107] [97] 0 0 (by decide) (by decide)] = [97] := rfl
  unfold BFEXISTS
  dsimp only
  rw [if_neg (by decide), if_neg (by decide), hval, if_neg (by decide), hnone]
  rfl

end HM4.BloomFilter
