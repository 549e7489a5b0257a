import HM4.BloomFilter
import Mathlib.Algebra.Order.BigOperators.Group.List

/-!
# Merge commands

A merge command collects the pairs of its source keys as pointers, and reads them while the pair of
its destination is written, in place or in fresh memory. Three of the commands copy the old value
and skip the destination among the sources; the fourth clears the value and skips nothing, so in
place it reads what it has just cleared.
-/

namespace HM4.MergeCommands

open LexPrefix Bytes Pairs PairFactory MemList KeyedList Database VFactory InPlaceUpdate
open Sketch (getPairPtrWithSize)
open BloomFilter (clamp)

/-! ## Merges into a copy -/

/-- An elementary merge of two sketches, which keeps the size of the first. -/
structure Merge where
  f : Key → Key → Key
  length_f : ∀ data src, (f data src).length = data.length

/-- A source: its key, the size that its value must have, and how it is merged. -/
structure Source where
  key : Key
  size : ℕ
  merge : Merge

/-- The loop that collects the sources; the destination is skipped. -/
def collect (env : Env) (key : Key) (sources : List Source) (db : Db) : List (Pair × Merge) :=
  sources.filterMap fun s =>
    if s.key = key then none
    else (getPairPtrWithSize env.check s.key s.size db).map fun p => (p, s.merge)

/-- The loop of an action over the sources; a pair of the key is seen as it is now. -/
def mergeAll (key : Key) (container : List (Pair × Merge)) (seen : Key → Key) (data : Key) : Key :=
  container.foldl (fun data s => s.2.f data (if s.1.key = key then seen data else s.1.val)) data

theorem length_mergeAll (key : Key) (container : List (Pair × Merge)) (seen : Key → Key)
    (data : Key) : (mergeAll key container seen data).length = data.length := by
  unfold mergeAll
  induction container generalizing data with
  | nil => rfl
  | cons s container ih => rw [List.foldl_cons, ih, s.2.length_f]

/-- `PFMergeFactory::action` and `TDMERGE_Factory::action`. -/
def mergeAction (key : Key) (container : List (Pair × Merge)) : Action Unit where
  run seen data := (mergeAll key container seen data, ())
  length_run seen data := length_mergeAll key container seen data

/-- Where a command runs: whether the list owns the memory of its pair, what is in new memory, and
the times. -/
structure Spot where
  owns : Bool
  raw : ℕ → Byte
  env : Env

/-- What the commands with a copy do with accepted parameters. -/
def copyMerge (spot : Spot) (key : Key) (size : ℕ) (sources : List Source) (db : Db) : Db :=
  let container := collect spot.env key sources db
  if container.isEmpty then db
  else
    let pair := getPairPtrWithSize spot.env.check key size db
    let f : IFactoryAction Unit :=
      ⟨true, true, key, size, pair, FILL, mergeAction key container⟩
    (f.insertHint Entry.insertHintVFactory.size spot.owns spot.raw spot.env.write pair db).db

/-! ## The commands -/

/-- `HLL_M`, of 12 bits. -/
def HLL_M : ℕ := 1 <<< 12

/-- `RawTDigest::bytes` of a capacity. -/
def tdBytes (capacity : ℕ) : ℕ := 2 * 8 + 2 * 8 + capacity * (8 + 8)

/-- `RawTDigest::maxCapacity`. -/
def maxCapacity (memory : ℕ) : ℕ := (memory - (2 * 8 + 2 * 8)) / (8 + 8)

/-- A capacity from a parameter. -/
def capacityOf (p : Key) : ℕ := clamp (fromString 64 p 0) 16 (maxCapacity maxValSize)

/-- The elementary merges of digests: of the capacity, the text of delta and the capacity of the
source. -/
abbrev TDMerge := ℕ → Key → ℕ → Merge

/-- What `SSMERGE` makes of the pairs: `std::sort` by time, the newest first. -/
structure Sorter where
  f : List Pair → List Pair
  perm : ∀ pairs, (f pairs).Perm pairs
  sorted : ∀ pairs, (f pairs).Pairwise fun a b => b.created ≤ a.created

/-- What a client asks for. No command has more than `MAX_PARAMS` parameters. -/
inductive Request
  | pfmerge (merge : Merge) (key : Key) (keys : List Key)
  | tdmerge (merge : TDMerge) (key c d : Key) (keys : List Key)
  | tdmergecapacity (merge : TDMerge) (key c d : Key) (sources : List (Key × Key))
  | ssmerge (combine : Key → Key → Key) (sorter : Sorter) (key : Key) (keys : List Key)
      (few : keys.length + 2 ≤ 255)

/-- Two `AccData` of the same number, with the same octets where there is a number; without one the
other fields have no meaning. -/
def SameAcc (a b : Key) : Prop := accCount a = accCount b ∧ (accCount a ≠ 0 → a = b)

namespace Request

/-- The destination. -/
def key : Request → Key
  | pfmerge _ key _ => key
  | tdmerge _ key _ _ _ => key
  | tdmergecapacity _ key _ _ _ => key
  | ssmerge _ _ key _ _ => key

/-- The keys of the sources. -/
def keys : Request → List Key
  | pfmerge _ _ keys => keys
  | tdmerge _ _ _ _ keys => keys
  | tdmergecapacity _ _ _ _ sources => sources.map Prod.fst
  | ssmerge _ _ _ keys _ => keys

/-- The message when there are too few parameters. -/
def tooFew : Request → ErrorMessage
  | pfmerge _ _ _ => .NEED_MORE_PARAMS_2
  | tdmerge _ _ _ _ _ => .NEED_MORE_PARAMS_4
  | tdmergecapacity _ _ _ _ _ => .NEED_GROUP_PARAMS_5
  | ssmerge _ _ _ _ _ => .NEED_MORE_PARAMS_2

/-- The size of the destination. -/
def size : Request → ℕ
  | pfmerge _ _ _ => HLL_M
  | tdmerge _ _ c _ _ => tdBytes (capacityOf c)
  | tdmergecapacity _ _ c _ _ => tdBytes (capacityOf c)
  | ssmerge _ _ _ _ _ => sizeofAccData

/-- The sources of the commands with a copy. -/
def sources : Request → List Source
  | pfmerge merge _ keys => keys.map fun k => ⟨k, HLL_M, merge⟩
  | tdmerge merge _ c d keys =>
    keys.map fun k => ⟨k, tdBytes (capacityOf c), merge (capacityOf c) d (capacityOf c)⟩
  | tdmergecapacity merge _ c d sources =>
    sources.map fun s =>
      ⟨s.1, tdBytes (capacityOf s.2), merge (capacityOf c) d (capacityOf s.2)⟩
  | ssmerge _ _ _ _ _ => []

/-- The parameters are accepted. -/
def Accepted (r : Request) : Prop :=
  r.keys ≠ [] ∧ isKeyValid r.key ∧ ∀ k ∈ r.keys, isKeyValid k

/-- What an accepted request leaves of the list. -/
def store (r : Request) (spot : Spot) (db : Db) : Db :=
  match r with
  | ssmerge combine sorter key keys _ =>
    ((Command.ssmerge combine sorter.f key keys).exec spot.owns spot.raw spot.env db).db
  | r => copyMerge spot r.key r.size r.sources db

/-- `PFMERGE`, `TDMERGE`, `TDMERGECAPACITY` and `SSMERGE`. -/
def exec (r : Request) (spot : Spot) (db : Db) : Reply × Db :=
  if r.keys = [] then (.error r.tooFew, db)
  else if ¬isKeyValid r.key then (.error .EMPTY_KEY, db)
  else if ∃ k ∈ r.keys, ¬isKeyValid k then (.error .EMPTY_KEY, db)
  else (match r with
    | pfmerge _ _ _ => .ok
    | _ => .bool true, r.store spot db)

/-! ## What should be stored -/

/-- The value computed from the values that all keys had before; none if nothing is stored. -/
def computed (r : Request) (env : Env) (db : Db) : Option Key :=
  match r with
  | ssmerge combine sorter _ keys _ =>
    some ((Command.sources sorter.f keys env db).foldl
      (fun acc p => accMerge combine acc p.val) (List.replicate sizeofAccData FILL))
  | r =>
    let container := collect env r.key r.sources db
    if container.isEmpty then none
    else some (container.foldl (fun data s => s.2.f data s.1.val)
      (copyPair r.size (getPairPtrWithSize env.check r.key r.size db)))

/-- Values that stand for the same sketch. -/
def Alike (r : Request) (a b : Key) : Prop :=
  match r with
  | ssmerge _ _ _ _ _ => SameAcc a b
  | _ => a = b

/-- An accepted request leaves the computed value and all other pairs as before, in place and in
fresh memory. -/
def Right (r : Request) (env : Env) (db : Db) : Prop :=
  r.Accepted → ∀ owns raw, (r.computed env db).elim ((r.exec ⟨owns, raw, env⟩ db).2 = db) fun v =>
    (∃ p, get r.key (r.exec ⟨owns, raw, env⟩ db).2 = some p ∧ r.Alike p.val v) ∧
      ∀ k ≠ r.key, get k (r.exec ⟨owns, raw, env⟩ db).2 = get k db

/-- `SSMERGE` with its destination among the sources, alive and of the size of an `AccData`. -/
def MergesItself (r : Request) (env : Env) (db : Db) : Prop :=
  match r with
  | ssmerge _ _ key keys _ =>
    key ∈ keys ∧ getPairPtrWithSize env.check key sizeofAccData db ≠ none
  | _ => False

end Request

/-- Two pairs that differ in their octets only. -/
def SamePair (p q : Pair) : Prop :=
  q.key = p.key ∧ q.created = p.created ∧ q.expires = p.expires ∧ q.val.length = p.val.length

/-- The same pairs with other values of the same sizes. -/
def SameShape (db db' : Db) : Prop := List.Forall₂ SamePair db db'

theorem exec_accepted {r : Request} (h : r.Accepted) (spot : Spot) (db : Db) :
    (r.exec spot db).2 = r.store spot db := by
  obtain ⟨hne, hkey, hkeys⟩ := h
  have hall : ¬∃ k ∈ r.keys, ¬isKeyValid k := fun ⟨k, hk, hnot⟩ => hnot (hkeys k hk)
  unfold Request.exec
  rw [if_neg hne, if_neg (not_not.mpr hkey), if_neg hall]

/-! ## Copies -/

section Copies

variable {env : Env} {key : Key} {sources : List Source} {db : Db}

theorem getPairPtrWithSize_spec {now : UInt64} {size : ℕ} {p : Pair}
    (hp : getPairPtrWithSize now key size db = some p) :
    get key db = some p ∧ isOK now p = true ∧ p.val.length = size := by
  obtain ⟨hptr, hlen⟩ := Option.filter_eq_some_iff.mp hp
  obtain ⟨hget, hok⟩ := Option.filter_eq_some_iff.mp hptr
  exact ⟨hget, hok, of_decide_eq_true hlen⟩

theorem getPairPtrWithSize_of {now : UInt64} {size : ℕ} {p : Pair} (hget : get key db = some p)
    (hok : isOK now p = true) (hlen : p.val.length = size) :
    getPairPtrWithSize now key size db = some p := by
  unfold getPairPtrWithSize getPairPtr
  rw [hget, Option.filter_some, if_pos hok, Option.filter_some, if_pos (decide_eq_true hlen)]

/-- No source that was collected has the key of the destination. -/
theorem collect_key {s : Pair × Merge} (hs : s ∈ collect env key sources db) : s.1.key ≠ key := by
  obtain ⟨source, -, hsource⟩ := List.mem_filterMap.mp hs
  split at hsource
  · exact absurd hsource.symm (Option.some_ne_none s)
  · next hne =>
    obtain ⟨p, hp, rfl⟩ := Option.map_eq_some_iff.mp hsource
    have hget := (getPairPtrWithSize_spec hp).1
    rw [lookup_key hget]
    exact hne

/-- Without the key itself among them the sources are what they were. -/
theorem mergeAll_eq {container : List (Pair × Merge)} (h : ∀ s ∈ container, s.1.key ≠ key)
    (seen : Key → Key) (data : Key) :
    mergeAll key container seen data =
      container.foldl (fun data s => s.2.f data s.1.val) data := by
  unfold mergeAll
  induction container generalizing data with
  | nil => rfl
  | cons s container ih =>
    obtain ⟨hs, hrest⟩ := List.forall_mem_cons.mp h
    rw [List.foldl_cons, List.foldl_cons, if_neg hs, ih hrest]

/-- The factory of a merge into a copy. -/
theorem updates_copyMerge (env : Env) (db : Db) (hkey : isKeyValid key) {size : ℕ} (hsize : size ≤ maxValSize)
    {container : List (Pair × Merge)} (h : ∀ s ∈ container, s.1.key ≠ key) :
    (⟨true, true, key, size, getPairPtrWithSize env.check key size db, FILL,
      mergeAction key container⟩ : IFactoryAction Unit).Updates db where
  valid := ⟨hkey, hsize⟩
  copies := rfl
  same := rfl
  alone seen seen' data := by
    simp only [mergeAction, mergeAll_eq h]
  handed p hp := by
    obtain ⟨hget, -, hlen⟩ := getPairPtrWithSize_spec hp
    exact ⟨hget, hlen⟩

/-- The stored value is the merge of the sources into the old value. -/
theorem copyMerge_spec (hkey : isKeyValid key) {size : ℕ} (hsize : size ≤ maxValSize)
    (hne : (collect env key sources db).isEmpty = false) (owns : Bool) (raw : ℕ → Byte) :
    ∃ p : Pair, p.key = key ∧ copyMerge ⟨owns, raw, env⟩ key size sources db = put Pair.key p db ∧
      p.val = (collect env key sources db).foldl (fun data s => s.2.f data s.1.val)
        (copyPair size (getPairPtrWithSize env.check key size db)) := by
  have hcollect : ∀ s ∈ collect env key sources db, s.1.key ≠ key := fun s hs => collect_key hs
  have hupdates := updates_copyMerge env db hkey hsize hcollect
  obtain ⟨hval, hput⟩ := hupdates.insertHint_create Entry.insertHintVFactory.size owns raw env.write
    (fun pair hget hok hlen => getPairPtrWithSize_of hget (env.isOK_check hok) hlen)
  refine ⟨full key _ 0 env.write hkey hval, rfl, ?_, ?_⟩
  · unfold copyMerge
    simp only [hne, Bool.false_eq_true, if_false]
    exact hput
  · have hcopy : (⟨true, true, key, size, getPairPtrWithSize env.check key size db, FILL,
        mergeAction key (collect env key sources db)⟩ : IFactoryAction Unit).createData raw =
        copyPair size (getPairPtrWithSize env.check key size db) := by
      unfold IFactoryAction.createData IFactoryAction.copyPair
      rw [if_pos rfl]
      cases getPairPtrWithSize env.check key size db with
      | none => rfl
      | some p => rfl
    rw [← mergeAll_eq hcollect id, ← hcopy]
    rfl

theorem tdBytes_le (p : Key) : tdBytes (capacityOf p) ≤ maxValSize := by
  have hmax : maxCapacity maxValSize * 16 + 32 ≤ maxValSize := by decide
  have hmin : 16 ≤ maxCapacity maxValSize := by decide
  unfold tdBytes capacityOf clamp
  split_ifs <;> omega

theorem size_le (r : Request) : r.size ≤ maxValSize := by
  cases r with
  | pfmerge merge key keys => exact (by decide : HLL_M ≤ maxValSize)
  | tdmerge merge key c d keys => exact tdBytes_le c
  | tdmergecapacity merge key c d sources => exact tdBytes_le c
  | ssmerge combine sorter key keys few => exact (by decide : sizeofAccData ≤ maxValSize)

/-- What the commands with a copy leave, and what is computed for them. -/
theorem right_copyMerge {r : Request} {env : Env} {db : Db}
    (hstore : ∀ spot, r.store spot db = copyMerge spot r.key r.size r.sources db)
    (hcomputed : r.computed env db = if (collect env r.key r.sources db).isEmpty then none
      else some ((collect env r.key r.sources db).foldl (fun data s => s.2.f data s.1.val)
        (copyPair r.size (getPairPtrWithSize env.check r.key r.size db))))
    (halike : ∀ v, r.Alike v v) : r.Right env db := by
  intro haccepted owns raw
  rw [exec_accepted haccepted, hstore, hcomputed]
  cases hne : (collect env r.key r.sources db).isEmpty with
  | true =>
    unfold copyMerge
    simp only [hne, if_true, Option.elim_none]
  | false =>
    obtain ⟨p, hkey, hput, hval⟩ := copyMerge_spec haccepted.2.1 (size_le r) hne owns raw
    simp only [Bool.false_eq_true, if_false, Option.elim_some]
    rw [hput, ← hval]
    refine ⟨⟨p, ?_, halike _⟩, fun k hk => ?_⟩
    · rw [← hkey]
      exact lookup_put_self Pair.key p db
    · exact lookup_put_of_ne (hkey ▸ hk.symm) db

end Copies

/-! ## `SSMERGE` among other sources -/

section Cleared

variable {combine : Key → Key → Key}

/-- What is merged into two cleared values of one size. -/
theorem sameAcc_foldl (combine : Key → Key → Key) (sources : List Pair) {acc acc' : Key} (hlen : acc.length = acc'.length)
    (h : SameAcc acc acc') :
    SameAcc (sources.foldl (fun acc p => accMerge combine acc p.val) acc)
      (sources.foldl (fun acc p => accMerge combine acc p.val) acc') := by
  induction sources generalizing acc acc' with
  | nil => exact h
  | cons p sources ih =>
    have hlen' : (accMerge combine acc p.val).length = (accMerge combine acc' p.val).length := by
      rw [length_accMerge, length_accMerge, hlen]
    rw [List.foldl_cons, List.foldl_cons]
    apply ih hlen'
    by_cases hcount : accCount p.val = 0
    · rw [accMerge_empty hcount, accMerge_empty hcount]
      exact h
    · by_cases hacc : accCount acc = 0
      · rw [accMerge_first hcount hacc, accMerge_first hcount (h.1 ▸ hacc), hlen]
        exact ⟨rfl, fun _ => rfl⟩
      · rw [h.2 hacc]
        exact ⟨rfl, fun _ => rfl⟩

theorem accMergeAll_eq {key : Key} {sources : List Pair} (h : ∀ p ∈ sources, p.key ≠ key)
    (seen : Key → Key) (acc : Key) :
    accMergeAll combine key sources seen acc =
      sources.foldl (fun acc p => accMerge combine acc p.val) acc := by
  induction sources generalizing acc with
  | nil => simp only [accMergeAll, List.foldl_nil]
  | cons p sources ih =>
    obtain ⟨hp, hrest⟩ := List.forall_mem_cons.mp h
    rw [accMergeAll_cons hp, List.foldl_cons, ih hrest]

variable {sorter : Sorter} {key : Key} {keys : List Key} {env : Env} {db : Db}

/-- A pair among the sources is that of one of the keys. -/
theorem mem_sources {p : Pair} : p ∈ Command.sources sorter.f keys env db ↔
    ∃ k ∈ keys, getPairPtrWithSize env.check k sizeofAccData db = some p := by
  unfold Command.sources
  rw [(sorter.perm _).mem_iff, List.mem_filterMap]

/-- With its destination elsewhere, `SSMERGE` stores the merge of its sources. -/
theorem right_ssmerge (few : keys.length + 2 ≤ 255)
    (h : ¬(Request.ssmerge combine sorter key keys few).MergesItself env db) :
    (Request.ssmerge combine sorter key keys few).Right env db := by
  intro haccepted owns raw
  have hkey : isKeyValid key := haccepted.2.1
  have hothers : ∀ p ∈ Command.sources sorter.f keys env db, p.key ≠ key := by
    intro p hp hpkey
    obtain ⟨k, hk, hptr⟩ := mem_sources.mp hp
    obtain rfl : k = key := by
      rw [← hpkey]
      exact (lookup_key (getPairPtrWithSize_spec hptr).1).symm
    exact h ⟨hk, by rw [hptr]; exact Option.some_ne_none p⟩
  have hvalid : ((Command.ssmerge combine sorter.f key keys).factory env db).valid :=
    ⟨hkey, (by decide : sizeofAccData ≤ maxValSize)⟩
  have hhint : ∀ p ∈ (Command.ssmerge combine sorter.f key keys).handed env db,
      get key db = some p ∧ sizeofAccData ≤ p.val.length := by
    intro p hp
    obtain ⟨hget, -, hlen⟩ := getPairPtrWithSize_spec hp
    exact ⟨hget, hlen.ge⟩
  obtain ⟨seen, data, hval, hdata, hput⟩ := insertHint_run hvalid hhint
    Entry.insertHintVFactory.size owns raw env.write
  have hlen : data.length = sizeofAccData := by
    rcases hdata with rfl | ⟨pair, hget, hsize, rfl⟩
    · exact createData_length raw
    · exact hintData_length hsize
  have hrun : (((Command.ssmerge combine sorter.f key keys).factory env db).action.run seen data).1 =
      (Command.sources sorter.f keys env db).foldl (fun acc p => accMerge combine acc p.val)
        (accClear data) := accMergeAll_eq hothers seen (accClear data)
  have hclear : accCount (accClear data) = 0 := by
    refine accCount_accClear ?_
    rw [hlen]
    decide
  have hzeros : accCount (List.replicate sizeofAccData FILL) = 0 := loadBE_zeros 8
  have hstart : SameAcc (accClear data) (List.replicate sizeofAccData FILL) :=
    ⟨hclear.trans hzeros.symm, fun hne => absurd hclear hne⟩
  have hclearlen : (accClear data).length = (List.replicate sizeofAccData FILL).length := by
    rw [accClear, List.length_mapIdx, hlen, List.length_replicate]
  have hsame := sameAcc_foldl combine (Command.sources sorter.f keys env db) hclearlen hstart
  have hstore : (Request.ssmerge combine sorter key keys few).store ⟨owns, raw, env⟩ db =
      put Pair.key (full key _ 0 env.write hkey hval) db := hput
  rw [exec_accepted haccepted, hstore]
  refine ⟨⟨_, lookup_put_self Pair.key (full key _ 0 env.write hkey hval) db, ?_⟩, fun k hk => ?_⟩
  · show SameAcc (((Command.ssmerge combine sorter.f key keys).factory env db).action.run seen
      data).1 _
    rw [hrun]
    exact hsame
  · have hne : (full key _ 0 env.write hkey hval).key ≠ k := hk.symm
    exact lookup_put_of_ne hne db

end Cleared

/-! ## Other values of the same sizes -/

section Shapes

theorem SamePair.isOK_eq {p q : Pair} (h : SamePair p q) (now : UInt64) :
    isOK now q = isOK now p := by
  obtain ⟨-, hcreated, hexpires, hlen⟩ := h
  unfold isOK isExpired Pair.isTombstone
  rw [hcreated, hexpires, hlen]

/-- A key has pairs in both lists, which differ in their octets only, or in none. -/
theorem SameShape.get_rel {db db' : Db} (h : SameShape db db') (key : Key) :
    Option.Rel SamePair (get key db) (get key db') := by
  unfold MemList.get
  induction h with
  | nil => exact .none
  | @cons p q db db' hpair hrest ih =>
    have hkey : q.key = p.key := hpair.1
    rw [lookup, lookup, hkey]
    split
    · exact .some hpair
    · exact ih

theorem SameShape.getPairPtrWithSize_iff {db db' : Db} (h : SameShape db db') (now : UInt64)
    (key : Key) (size : ℕ) : getPairPtrWithSize now key size db' = none ↔
      getPairPtrWithSize now key size db = none := by
  have hrel := h.get_rel key
  unfold getPairPtrWithSize getPairPtr
  generalize get key db = old at hrel
  generalize get key db' = old' at hrel
  cases hrel with
  | none => simp only [Option.filter_none]
  | @some p q hpair =>
    have hlen : q.val.length = p.val.length := hpair.2.2.2
    simp only [Option.filter_eq_none_iff, Option.filter_eq_some_iff, Option.some.injEq,
      forall_eq', and_imp, hpair.isOK_eq, hlen]

end Shapes

/-! ## `SSMERGE` of its destination -/

section MergesItself

variable {combine : Key → Key → Key} {key : Key}

theorem take_smartMemcpy {n : ℕ} (hn : 8 ≤ n) {src : Key} (hsrc : 8 ≤ src.length) :
    (smartMemcpy n src).take 8 = src.take 8 := by
  unfold smartMemcpy
  split
  · rw [List.take_append_of_le_length hsrc]
  · rw [List.take_take, Nat.min_eq_left hn]

/-- The number of a merge is the sum of the numbers, as long as it has room. -/
theorem accCount_accMerge {acc other : Key} (hacc : 8 ≤ acc.length) (hother : 8 ≤ other.length)
    (hsum : accCount acc + accCount other < 2 ^ 64) :
    accCount (accMerge combine acc other) = accCount acc + accCount other := by
  by_cases hcount : accCount other = 0
  · rw [accMerge_empty hcount, hcount, Nat.add_zero]
  by_cases hfirst : accCount acc = 0
  · rw [accMerge_first hcount hfirst, hfirst, Nat.zero_add, accCount, accCount,
      take_smartMemcpy hacc hother]
  · unfold accMerge
    rw [if_neg hcount, if_neg hfirst, accCount, take_smartMemcpy hacc (by simp [storeBE_length]),
      List.take_append_of_le_length (by simp [storeBE_length]), List.take_of_length_le
        (by simp [storeBE_length]), Nat.mod_eq_of_lt hsum]
    exact loadBE_storeBE hsum

/-- So is the number of many merges. -/
theorem accCount_foldl (sources : List Pair) {acc : Key} (hacc : 8 ≤ acc.length)
    (hsources : ∀ p ∈ sources, 8 ≤ p.val.length)
    (hsum : accCount acc + (sources.map fun p => accCount p.val).sum < 2 ^ 64) :
    accCount (sources.foldl (fun acc p => accMerge combine acc p.val) acc) =
      accCount acc + (sources.map fun p => accCount p.val).sum := by
  induction sources generalizing acc with
  | nil => simp
  | cons p sources ih =>
    obtain ⟨hp, hrest⟩ := List.forall_mem_cons.mp hsources
    rw [List.map_cons, List.sum_cons] at hsum ⊢
    have hmerge := @accCount_accMerge combine _ _ hacc hp (by omega)
    have hlen : 8 ≤ (accMerge combine acc p.val).length := by
      rw [length_accMerge]
      exact hacc
    rw [List.foldl_cons, ih hlen hrest (by omega), hmerge]
    omega

/-- A value that is cleared stays empty when it is merged with itself and with what is empty. -/
theorem accMergeAll_cleared {sources : List Pair}
    (h : ∀ p ∈ sources, p.key ≠ key → accCount p.val = 0) {acc : Key} (hacc : accCount acc = 0) :
    accMergeAll combine key sources id acc = acc := by
  unfold accMergeAll
  induction sources with
  | nil => rfl
  | cons p sources ih =>
    obtain ⟨hp, hrest⟩ := List.forall_mem_cons.mp h
    have hseen : accCount (if p.key = key then id acc else p.val) = 0 := by
      split
      · exact hacc
      · next hne => exact hp hne
    rw [List.foldl_cons, accMerge_empty hseen]
    exact ih hrest

/-- The number one in the pair of the key and zero in all others. -/
def revalueVal (key : Key) (p : Pair) : Key :=
  smartMemcpy p.val.length (storeBE 8 (if p.key = key then 1 else 0))

theorem revalueVal_valid (key : Key) (p : Pair) : isValValid (revalueVal key p) := by
  unfold isValValid revalueVal
  rw [smartMemcpy_length]
  exact p.valValid

/-- The pair with this number. -/
def revalue (key : Key) (p : Pair) : Pair :=
  { p with val := revalueVal key p, valValid := revalueVal_valid key p }

theorem samePair_revalue (key : Key) (p : Pair) : SamePair p (revalue key p) :=
  ⟨rfl, rfl, rfl, smartMemcpy_length _ _⟩

theorem sameShape_revalue (key : Key) (db : Db) : SameShape db (db.map (revalue key)) := by
  unfold SameShape
  rw [List.forall₂_map_right_iff, List.forall₂_same]
  exact fun p _ => samePair_revalue key p

theorem accCount_revalue {p : Pair} (h : 8 ≤ p.val.length) (key : Key) :
    accCount (revalue key p).val = if p.key = key then 1 else 0 := by
  have hlt : (if p.key = key then 1 else 0) < 256 ^ 8 := by split_ifs <;> decide
  have htake : (storeBE 8 (if p.key = key then 1 else 0)).take 8 =
      storeBE 8 (if p.key = key then 1 else 0) :=
    List.take_of_length_le (by simp [storeBE_length])
  show accCount (revalueVal key p) = _
  rw [accCount, revalueVal, take_smartMemcpy h (by simp [storeBE_length]), htake,
    loadBE_storeBE hlt]

variable {sorter : Sorter} {keys : List Key} {env : Env} {db : Db}

/-- What the revalued sources are. -/
theorem source_revalue {p : Pair}
    (hp : p ∈ Command.sources sorter.f keys env (db.map (revalue key))) :
    p.val.length = sizeofAccData ∧ accCount p.val = if p.key = key then 1 else 0 := by
  obtain ⟨k, -, hptr⟩ := mem_sources.mp hp
  obtain ⟨hget, -, hlen⟩ := getPairPtrWithSize_spec hptr
  obtain ⟨q, -, rfl⟩ := List.mem_map.mp (mem_of_lookup hget)
  have hq : q.val.length = sizeofAccData := by
    rw [← hlen]
    exact (samePair_revalue key q).2.2.2.symm
  refine ⟨hlen, accCount_revalue ?_ key⟩
  rw [hq]
  decide

/-- The destination is a source, so the computed number is at least one. -/
theorem accCount_computed (few : keys.length + 2 ≤ 255) {p : Pair}
    (hp : p ∈ Command.sources sorter.f keys env (db.map (revalue key))) (hkey : p.key = key) :
    accCount ((Command.sources sorter.f keys env (db.map (revalue key))).foldl
      (fun acc p => accMerge combine acc p.val) (List.replicate sizeofAccData FILL)) ≠ 0 := by
  have hspec := fun q hq => @source_revalue key sorter keys env db q hq
  have hlen : (Command.sources sorter.f keys env (db.map (revalue key))).length ≤ keys.length := by
    unfold Command.sources
    rw [(sorter.perm _).length_eq]
    exact List.length_filterMap_le _ _
  generalize Command.sources sorter.f keys env (db.map (revalue key)) = sources at hp hspec hlen ⊢
  have hzeros : accCount (List.replicate sizeofAccData FILL) = 0 := loadBE_zeros 8
  have hle : (sources.map fun p => accCount p.val).sum ≤ sources.length := by
    have hcard := List.sum_le_card_nsmul (sources.map fun p => accCount p.val) 1 ?_
    · simpa using hcard
    · intro n hn
      obtain ⟨q, hq, rfl⟩ := List.mem_map.mp hn
      rw [(hspec q hq).2]
      split_ifs <;> decide
  have hone : 1 ≤ (sources.map fun p => accCount p.val).sum := by
    have hcount : accCount p.val = 1 := by rw [(hspec p hp).2, if_pos hkey]
    rw [← hcount]
    exact List.single_le_sum (by simp) _ (List.mem_map.mpr ⟨p, hp, rfl⟩)
  have hbig : 8 ≤ (List.replicate sizeofAccData FILL).length := by
    rw [List.length_replicate]
    decide
  have hsources : ∀ q ∈ sources, 8 ≤ q.val.length := fun q hq => by
    rw [(hspec q hq).1]
    decide
  rw [accCount_foldl sources hbig hsources (by omega)]
  omega

/-- In place a destination among its own sources ends up as what it was cleared to, if all other
sources are empty. -/
theorem exec_ssmerge_owns {old : Pair} (hold : get key db = some old)
    (hlen : old.val.length = sizeofAccData)
    (hempty : ∀ p ∈ Command.sources sorter.f keys env db, p.key ≠ key → accCount p.val = 0)
    (raw : ℕ → Byte) :
    ∃ p, get key ((Command.ssmerge combine sorter.f key keys).exec true raw env db).db = some p ∧
      accCount p.val = 0 := by
  have hkey : old.key = key := lookup_key hold
  have hfit : ((Command.ssmerge combine sorter.f key keys).factory env db).bytes ≤ old.bytes := by
    unfold IFactoryAction.bytes Pair.bytes
    simp only [Command.factory, hkey, hlen]
    omega
  have hvalid := (valid_of_fits hold hfit).1
  have hhint : ∀ p ∈ (Command.ssmerge combine sorter.f key keys).handed env db, p = old :=
    fun p hp => Option.some.inj ((getPairPtrWithSize_spec hp).1.symm.trans hold)
  have hinsert := @insertHint_owns _ _ env.write _ _ hold hfit raw
    Entry.insertHintVFactory.size _ hhint
  generalize hdata : ((Command.ssmerge combine sorter.f key keys).factory env db).hintData
    env.write old = data
  have hdatalen : data.length = sizeofAccData := by
    rw [← hdata]
    exact hintData_length hlen.ge
  have hclear : accCount (accClear data) = 0 := by
    refine accCount_accClear ?_
    rw [hdatalen]
    decide
  have hrun : (((Command.ssmerge combine sorter.f key keys).factory env db).createHint env.write
      old).1 = accClear data := by
    unfold IFactoryAction.createHint
    rw [hdata]
    exact accMergeAll_cleared hempty hclear
  have hexec : ((Command.ssmerge combine sorter.f key keys).exec true raw env db).db =
      put Pair.key (full key _ 0 env.write hvalid.1
        (IFactoryAction.createHint_valid hvalid env.write old)) db := congrArg Outcome.db hinsert
  rw [hexec]
  refine ⟨_, lookup_put_self Pair.key (full key _ 0 env.write hvalid.1
    (IFactoryAction.createHint_valid hvalid env.write old)) db, ?_⟩
  show accCount (((Command.ssmerge combine sorter.f key keys).factory env db).createHint env.write
    old).1 = 0
  rw [hrun, hclear]

/-- Merged into itself in place, a destination of one number is empty. -/
theorem not_right_ssmerge (few : keys.length + 2 ≤ 255)
    (haccepted : (Request.ssmerge combine sorter key keys few).Accepted)
    (h : (Request.ssmerge combine sorter key keys few).MergesItself env db) :
    ¬(Request.ssmerge combine sorter key keys few).Right env (db.map (revalue key)) := by
  intro hright
  obtain ⟨hmem, hptr⟩ := h
  obtain ⟨old, hold⟩ := Option.ne_none_iff_exists'.mp
    (mt ((sameShape_revalue key db).getPairPtrWithSize_iff env.check key sizeofAccData).mp hptr)
  obtain ⟨hget, -, hlen⟩ := getPairPtrWithSize_spec hold
  have hempty : ∀ p ∈ Command.sources sorter.f keys env (db.map (revalue key)), p.key ≠ key →
      accCount p.val = 0 := fun p hp hne => by
    rw [(source_revalue hp).2, if_neg hne]
  obtain ⟨q, hq, hcount⟩ := @exec_ssmerge_owns combine _ _ _ _ _ _ hget hlen hempty fun _ => 0
  obtain ⟨⟨p, hp, hsame⟩, -⟩ := hright haccepted true fun _ => 0
  rw [exec_accepted haccepted] at hp
  obtain rfl : q = p := Option.some.inj (hq.symm.trans hp)
  have hsource : old ∈ Command.sources sorter.f keys env (db.map (revalue key)) :=
    mem_sources.mpr ⟨key, hmem, hold⟩
  have hcomputed := @accCount_computed combine _ _ _ _ _ few _ hsource (lookup_key hget)
  have hnumber : accCount q.val = _ := hsame.1
  exact hcomputed (hnumber.symm.trans hcount)

end MergesItself

/-- Whatever octets the pairs have, a merge stores what is computed from the values before it, on
every path, unless it is `SSMERGE` with its destination among the sources. -/
theorem merges_iff (r : Request) (env : Env) (db : Db) :
    (∀ db', SameShape db db' → r.Right env db') ↔ ¬(r.Accepted ∧ r.MergesItself env db) := by
  constructor
  · intro hright h
    cases r with
    | pfmerge merge key keys => exact h.2
    | tdmerge merge key c d keys => exact h.2
    | tdmergecapacity merge key c d sources => exact h.2
    | ssmerge combine sorter key keys few =>
      exact not_right_ssmerge few h.1 h.2 (hright _ (sameShape_revalue key db))
  · intro h db' hshape
    cases r with
    | pfmerge merge key keys => exact right_copyMerge (fun _ => rfl) rfl fun _ => rfl
    | tdmerge merge key c d keys => exact right_copyMerge (fun _ => rfl) rfl fun _ => rfl
    | tdmergecapacity merge key c d sources =>
      exact right_copyMerge (fun _ => rfl) rfl fun _ => rfl
    | ssmerge combine sorter key keys few =>
      intro haccepted
      refine right_ssmerge few (fun hself => h ⟨haccepted, hself.1, ?_⟩) haccepted
      exact mt (hshape.getPairPtrWithSize_iff env.check key sizeofAccData).mpr hself.2

/-- The newest first. -/
def newestFirst (pairs : List Pair) : List Pair :=
  pairs.insertionSort fun a b => b.created ≤ a.created

instance : Std.Total fun a b : Pair => b.created ≤ a.created where
  total a b := Nat.le_total b.created a.created

instance : IsTrans Pair fun a b => b.created ≤ a.created where
  trans _ _ _ hab hbc := Nat.le_trans hbc hab

theorem newestFirst_perm (pairs : List Pair) : (newestFirst pairs).Perm pairs :=
  List.perm_insertionSort _ pairs

theorem newestFirst_sorted (pairs : List Pair) :
    (newestFirst pairs).Pairwise fun a b => b.created ≤ a.created :=
  List.pairwise_insertionSort _ pairs

/-- A sort that keeps the order of pairs of one time. -/
def stableSorter : Sorter := ⟨newestFirst, newestFirst_perm, newestFirst_sorted⟩

theorem one_few : ([[107]] : List Key).length + 2 ≤ 255 := by decide

/-- `SSMERGE k k`. -/
def intoItself : Request :=
  .ssmerge (fun rest _ => rest) stableSorter [107] [[107]] one_few

/-- Of one number, in place, it leaves none. -/
theorem not_right_intoItself : ¬intoItself.Right ⟨0, 0, UInt64.le_refl 0⟩
    [full [107] oneNumber 0 0 (by decide) (by decide)] := by
  intro hright
  have haccepted : intoItself.Accepted := by
    refine ⟨List.cons_ne_nil _ _, (by decide : isKeyValid [107]), fun k hk => ?_⟩
    rw [List.mem_singleton.mp hk]
    decide
  obtain ⟨⟨p, hp, hsame⟩, -⟩ := hright haccepted true fun _ => 0
  have hstored := congrArg (Option.map fun p => accCount p.val) hp
  rw [Option.map_some] at hstored
  have hzero : (get intoItself.key (intoItself.exec ⟨true, fun _ => 0, ⟨0, 0, UInt64.le_refl 0⟩⟩
      [full [107] oneNumber 0 0 (by decide) (by decide)]).2).map (fun p => accCount p.val) =
      some 0 := by decide +kernel
  have hone : accCount (accMerge (fun rest _ => rest) (List.replicate sizeofAccData FILL)
      oneNumber) = 1 := by decide +kernel
  have hnumber : accCount p.val = 1 := hsame.1.trans hone
  have hcount : some 0 = some (accCount p.val) := hzero.symm.trans hstored
  rw [hnumber] at hcount
  exact absurd (Option.some.inj hcount) (by decide)

end HM4.MergeCommands
