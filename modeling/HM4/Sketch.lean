import HM4.VFactory
import HM4.General.CountSketch

/-!
# Count-min sketches and counting Bloom filters

The value of a pair is a table of counters of one width, each with its high octet first. An
item has a counter in each row of a count-min sketch, or as many counters as there are hash
functions in the one row of a counting Bloom filter. An increment comes in 64 bits and is cast to
the width of a counter. The size of a table is a product of 64 bits, and every access of a counter
is explicit, so that an access behind the value would show.
-/

namespace HM4.Sketch

open LexPrefix Bytes Pairs PairFactory MemList KeyedList Database VFactory CountSketch

/-! ## Counters -/

/-- `safe_overflow::incr` of an unsigned type of so many bits. -/
def safeIncr (bits a x : ℕ) : ℕ := if 0 < x ∧ 2 ^ bits - 1 - x < a then 2 ^ bits - 1 else a + x

/-- `incr<true, T>`: the increment is cast. -/
def incr (bits val inc : ℕ) : ℕ := safeIncr bits val (inc % 2 ^ bits)

/-- A counter of a table, if it lies inside. -/
def getCell (sizeofT : ℕ) (data : Key) (k : ℕ) : Option ℕ :=
  if k * sizeofT + sizeofT ≤ data.length then
    some (loadBE sizeofT ((data.drop (k * sizeofT)).take sizeofT))
  else none

/-- Another number in the place of a counter. -/
def setCell (sizeofT : ℕ) (data : Key) (k v : ℕ) : Key :=
  writeAt data (k * sizeofT) (storeBE sizeofT v)

/-- `incr` of a counter; one that lies behind the value changes nothing here. -/
def incrCell (sizeofT : ℕ) (data : Key) (k inc : ℕ) : Key :=
  match getCell sizeofT data k with
  | some a => setCell sizeofT data k (incr (8 * sizeofT) a inc)
  | none => data

/-! ## Tables -/

/-- The hash functions. -/
abbrev Hash := Key → ℕ → UInt64

/-- A shape of tables. -/
structure Table where
  /-- How many counters an item has. -/
  rows : ℕ
  /-- `bytes()`. -/
  bytes : ℕ
  /-- `sizeof(T)`. -/
  sizeofT : ℕ
  /-- The place of a hash in a row. -/
  place : UInt64 → ℕ → ℕ

/-- `CMS<T>`, with the places of `Matrix<T>`. -/
def CMS (w d sizeofT : ℕ) : Table where
  rows := d
  bytes := w * d * sizeofT % 2 ^ 64
  sizeofT := sizeofT
  place h i := (h.toNat % w + i * w) % 2 ^ 64

/-- `CBF<T>`. -/
def CBF (width countHF sizeofT : ℕ) : Table where
  rows := countHF
  bytes := width * sizeofT % 2 ^ 64
  sizeofT := sizeofT
  place h _ := h.toNat % width

section Table

variable (s : Table) (hash : Hash)

/-- The places of an item. -/
def places (item : Key) : List ℕ := (List.range s.rows).map fun i => s.place (hash item i) i

/-- `add<true>`. -/
def addItem (data item : Key) (n : ℕ) : Key :=
  (places s hash item).foldl (fun data k => incrCell s.sizeofT data k n) data

/-- `add_count<true>`: the count, and the table. -/
def addCount (data item : Key) (n : ℕ) : Option ℕ × Key :=
  (places s hash item).foldl
    (fun (r : Option ℕ × Key) k =>
      let data := incrCell s.sizeofT r.2 k n
      (r.1.bind fun count => (getCell s.sizeofT data k).map fun x => min count x, data))
    (some (2 ^ 64 - 1), data)

/-- `count`. -/
def count (data item : Key) : Option ℕ :=
  (places s hash item).foldl
    (fun r k => r.bind fun count => (getCell s.sizeofT data k).map fun x => min count x)
    (some (2 ^ 64 - 1))

end Table

theorem length_setCell {sizeofT : ℕ} {data : Key} {k : ℕ}
    (h : k * sizeofT + sizeofT ≤ data.length) (v : ℕ) :
    (setCell sizeofT data k v).length = data.length := by
  unfold setCell writeAt
  rw [List.length_append, List.length_append, List.length_take, List.length_drop, storeBE_length]
  omega

theorem length_incrCell (sizeofT : ℕ) (data : Key) (k inc : ℕ) :
    (incrCell sizeofT data k inc).length = data.length := by
  unfold incrCell getCell
  by_cases h : k * sizeofT + sizeofT ≤ data.length
  · rw [if_pos h]
    exact length_setCell h _
  · rw [if_neg h]

theorem length_addItem (s : Table) (hash : Hash) (data item : Key) (n : ℕ) :
    (addItem s hash data item n).length = data.length := by
  unfold addItem
  induction places s hash item generalizing data with
  | nil => rfl
  | cons k ks ih => exact (ih _).trans (length_incrCell _ _ _ _)

/-- `add_count` leaves the table of `add`. -/
theorem addCount_snd (s : Table) (hash : Hash) (data item : Key) (n : ℕ) :
    (addCount s hash data item n).2 = addItem s hash data item n := by
  unfold addCount addItem
  generalize some (2 ^ 64 - 1) = r
  induction places s hash item generalizing data r with
  | nil => rfl
  | cons k ks ih => exact ih _ _

/-! ## The commands -/

/-- `type_dispatch`: the size of the counters. -/
def typeDispatch (t : ℕ) : Option ℕ :=
  if t = 8 then some 1 else if t = 16 then some 2 else if t = 32 then some 4
  else if t = 64 then some 8 else none

/-- What a command finds out about its surroundings: whether the pair of the key lies in the
memory of the list, the time when the pair is looked at and the time when it is written. -/
structure Env where
  /-- `owns`. -/
  owned : Bool
  /-- The clock at `isOK`. -/
  check : UInt64
  /-- The clock at the writing of the pair. -/
  write : UInt64

/-- `getPairPtrWithSize`. -/
def getPairPtrWithSize (now : UInt64) (key : Key) (size : ℕ) (db : Db) : Option Pair :=
  (getPairPtr now key db).filter fun p => p.val.length = size

/-- The items and increments among parameters; no increment is zero. -/
def items : List Key → List (Key × ℕ)
  | val :: n :: args => (val, max (fromString 64 n 0) 1) :: items args
  | _ => []

theorem foldl_addItem_length (s : Table) (hash : Hash) (xs : List (Key × ℕ)) (data : Key) :
    (xs.foldl (fun data x => addItem s hash data x.1 x.2) data).length = data.length := by
  induction xs generalizing data with
  | nil => rfl
  | cons x xs ih => exact (ih _).trans (length_addItem s hash data x.1 x.2)

/-- `CMSADD_Factory::action`. -/
def addAction (s : Table) (hash : Hash) (xs : List (Key × ℕ)) : Action where
  run data := xs.foldl (fun data x => addItem s hash data x.1 x.2) data
  length_run data := by rw [foldl_addItem_length]

/-- `CMSADDCOUNT_Factory::action`. -/
def addCountAction (s : Table) (hash : Hash) (item : Key) (n : ℕ) : Action where
  run data := (addCount s hash data item n).2
  length_run data := by rw [addCount_snd, length_addItem]

/-- The two kinds of tables. -/
inductive Kind
  | cms
  | cbf
  deriving DecidableEq

/-- The table of a kind. -/
def Kind.table : Kind → ℕ → ℕ → ℕ → Table
  | .cms => CMS
  | .cbf => CBF

/-- `CMSMutate<true>` and `CBFMutate<true>`, which look for empty items at different times. -/
def mutate (kind : Kind) (hash : Hash) (env : Env) (p : List Key) (db : Db) : Reply × Db :=
  match p with
  | _ :: key :: w :: d :: t :: args =>
    if p.length < 7 ∨ (p.length - 5) % 2 ≠ 0 then (.error .NEED_GROUP_PARAMS_6, db)
    else if ¬isKeyValid key then (.error .EMPTY_KEY, db)
    else if fromString 64 w 0 = 0 ∨ fromString 64 d 0 = 0 then (.error .INVALID_PARAMETERS, db)
    else if kind = .cbf ∧ ∃ x ∈ items args, x.1 = [] then (.error .EMPTY_VAL, db)
    else
      match typeDispatch (fromString 8 t 0) with
      | none => (.error .INVALID_PARAMETERS, db)
      | some sizeofT =>
        let s := kind.table (fromString 64 w 0) (fromString 64 d 0) sizeofT
        if maxValSize < s.bytes then (.error .INVALID_PARAMETERS, db)
        else if kind = .cms ∧ ∃ x ∈ items args, x.1 = [] then (.error .EMPTY_VAL, db)
        else
          let pair := getPairPtrWithSize env.check key s.bytes db
          let factory :=
            iFactoryActionSame (addAction s hash (items args)) key s.bytes pair
          (.ok, insertHintVFactory env.owned pair factory env.write db)
  | _ => (.error .NEED_GROUP_PARAMS_6, db)

/-- `CMSMutateCount<true>`, which refuses an empty item, and `CBFMutateCount<true>`. -/
def mutateCount (kind : Kind) (hash : Hash) (env : Env) (p : List Key) (db : Db) :
    Option Reply × Db :=
  match p with
  | [_, key, w, d, t, item, n] =>
    if ¬isKeyValid key then (some (.error .EMPTY_KEY), db)
    else if fromString 64 w 0 = 0 ∨ fromString 64 d 0 = 0 ∨ kind = .cms ∧ item = [] then
      (some (.error .INVALID_PARAMETERS), db)
    else
      match typeDispatch (fromString 8 t 0) with
      | none => (some (.error .INVALID_PARAMETERS), db)
      | some sizeofT =>
        let itemCount := fromString (8 * sizeofT) n 0
        let s := kind.table (fromString 64 w 0) (fromString 64 d 0) sizeofT
        if itemCount = 0 then (some (.error .INVALID_PARAMETERS), db)
        else if maxValSize < s.bytes then (some (.error .INVALID_PARAMETERS), db)
        else
          let pair := getPairPtrWithSize env.check key s.bytes db
          let factory :=
            iFactoryActionSame (addCountAction s hash item itemCount) key s.bytes pair
          ((addCount s hash (copyPair s.bytes pair) item itemCount).1.map .number,
            insertHintVFactory env.owned pair factory env.write db)
  | _ =>
    (some (.error (if kind = .cms then .NEED_EXACT_PARAMS_6 else .NEED_GROUP_PARAMS_6)), db)

/-- `CMSCOUNT` and `CBFCOUNT`. -/
def countItem (kind : Kind) (hash : Hash) (now : UInt64) (p : List Key) (db : Db) :
    Option Reply :=
  match p with
  | [_, key, w, d, t, item] =>
    if ¬isKeyValid key then some (.error .EMPTY_KEY)
    else
      match typeDispatch (fromString 8 t 0) with
      | none => some (.error .INVALID_PARAMETERS)
      | some sizeofT =>
        let s := kind.table (max (fromString 64 w 0) 1) (max (fromString 64 d 0) 1) sizeofT
        match getPairPtrWithSize now key s.bytes db with
        | none => some (.number 0)
        | some pair => (count s hash pair.val item).map .number
  | _ => some (.error .NEED_EXACT_PARAMS_5)

/-- `CMSADD`. -/
def CMSADD := mutate .cms

/-- `CMSADDCOUNT`. -/
def CMSADDCOUNT := mutateCount .cms

/-- `CMSCOUNT`. -/
def CMSCOUNT := countItem .cms

/-- `CBFADD`. -/
def CBFADD := mutate .cbf

/-- `CBFADDCOUNT`. -/
def CBFADDCOUNT := mutateCount .cbf

/-- `CBFCOUNT`. -/
def CBFCOUNT := countItem .cbf

end HM4.Sketch
