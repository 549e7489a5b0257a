import HM4.IndexKeys
import HM4.General.RecordIndex

/-!
# Records with index values

A record has a control key, which holds its index values with separators between them, and the
keys that its permutation makes from them, which hold its value. A new version decodes the old
index values from the control key to erase the old keys. All this fails for index values with a
separator: they are decoded to others.
-/

namespace HM4.ZSet

open LexPrefix Bytes Pairs PairFactory MemList KeyedList Database Separated IndexToken IndexKeys
  RecordIndex

/-! ## The operations -/

/-- `makeKeyCtrl`. -/
def makeKeyCtrl (keyN keySub : Key) : Key :=
  concatenateBuffer bufferKeySize [keyN, [separator], [separator], keySub]

/-- `encodeIndex` of all permutations. -/
def encodeIndex (indexes : List Key) : Key :=
  concatenateBuffer bufferKeySize (indexes.intersperse [separator])

/-- What `add` and `rem` take as their permutation. -/
structure Kind where
  /-- `N`: the number of index values, with the sort key. -/
  N : ℕ
  /-- `for_each`. -/
  forEach : Key → Key → List Key → List Key

/-- `decodeIndex`. -/
def Kind.decodeIndex (F : Kind) (s : Key) : List Key := readTokens F.N s

/-- `Permutation1NoIndex::makeKeyData`. -/
def makeKeyData (keyN keySub ix0 : Key) : Key :=
  concatenateBuffer bufferKeySize [keyN, [separator], ix0, [separator], keySub]

/-- `Permutation1NoIndex`. -/
def permutation1NoIndex : Kind :=
  ⟨1, fun keyN keySub indexes => [makeKeyData keyN keySub (indexValue indexes 0)]⟩

/-- `Permutation<n>`. -/
def kindOf (P : Permutation) : Kind := ⟨P.n + 1, IndexKeys.forEach P⟩

/-- All kinds. -/
def kinds : List Kind := permutation1NoIndex :: permutations.map kindOf

/-- What an operation reads of its surroundings. -/
structure Env where
  /-- The clock when the control key is read. -/
  check : UInt64
  /-- For every key that is erased. -/
  erase : Key → Write
  /-- For every key that is inserted. -/
  insert : Key → Write
  /-- For the write of the control key. -/
  ctrl : Write

/-- `removePreviousIndexes`. -/
def removePreviousIndexes (F : Kind) (env : Env) (keyCtrl keyN keySub : Key) (indexes : List Key)
    (db : Db) : Db :=
  match getPairPtr env.check keyCtrl db with
  | some pair =>
    let indexesOld := F.decodeIndex pair.val
    if ¬∀ x ∈ indexesOld, valid x then
      insertHint env.ctrl.owned pair (tombstone keyCtrl 0) env.ctrl.now db
    else if indexesOld = indexes then db
    else eraseKeys env.erase (F.forEach keyN keySub indexesOld) db
  | none => db

/-- `add`. -/
def add (F : Kind) (env : Env) (keyN keySub : Key) (indexes : List Key) (value : Key) (db : Db) :
    Db :=
  let keyCtrl := makeKeyCtrl keyN keySub
  let db1 := removePreviousIndexes F env keyCtrl keyN keySub indexes db
  let db2 := insertKeys env.insert (F.forEach keyN keySub indexes) value db1
  Database.insert env.ctrl keyCtrl (encodeIndex indexes) db2

/-- `rem`. -/
def rem (F : Kind) (env : Env) (keyN keySub : Key) (db : Db) : Db :=
  let keyCtrl := makeKeyCtrl keyN keySub
  match getPairPtr env.check keyCtrl db with
  | some pair =>
    let indexesOld := F.decodeIndex pair.val
    if ¬∀ x ∈ indexesOld, valid x then
      insertHint env.ctrl.owned pair (tombstone keyCtrl 0) env.ctrl.now db
    else Database.erase env.ctrl keyCtrl (eraseKeys env.erase (F.forEach keyN keySub indexesOld) db)
  | none => db

/-! ## Runs -/

/-- A call. -/
inductive Call
  | add (env : Env) (keyN keySub : Key) (indexes : List Key) (value : Key)
  | rem (env : Env) (keyN keySub : Key)

namespace Call

/-- The record of a call. -/
def id : Call → Key × Key
  | .add _ keyN keySub _ _ => (keyN, keySub)
  | .rem _ keyN keySub => (keyN, keySub)

/-- What the call leaves of its record: its index values and its value. -/
def version : Call → Option (List Key × Key)
  | .add _ _ _ indexes value => some (indexes, value)
  | .rem _ _ _ => none

/-- What a call does. -/
def step (F : Kind) : Call → Db → Db
  | .add env keyN keySub indexes value => ZSet.add F env keyN keySub indexes value
  | .rem env keyN keySub => ZSet.rem F env keyN keySub

/-- The keys that a call makes. -/
def made (F : Kind) (c : Call) : List Key :=
  makeKeyCtrl c.id.1 c.id.2 :: (c.version.elim [] fun x => F.forEach c.id.1 c.id.2 x.1)

/-- What the commands check. -/
def Accepted (F : Kind) (c : Call) : Prop :=
  valid c.id.1 ∧ valid c.id.2 ∧ ∀ x ∈ c.version, x.1.length = F.N ∧ (∀ s ∈ x.1, valid s) ∧
    isValValid x.2

/-- No index value has a separator in it, nor has the sort key, and the value is not empty. -/
def Clear (c : Call) : Prop := ∀ x ∈ c.version, (∀ s ∈ x.1, separator ∉ s) ∧ x.2 ≠ []

instance (F : Kind) (c : Call) : Decidable (c.Accepted F) :=
  inferInstanceAs (Decidable (_ ∧ _ ∧ ∀ x ∈ c.version,
    x.1.length = F.N ∧ (∀ s ∈ x.1, valid s) ∧ isValValid x.2))

instance (c : Call) : Decidable c.Clear :=
  inferInstanceAs (Decidable (∀ x ∈ c.version, (∀ s ∈ x.1, separator ∉ s) ∧ x.2 ≠ []))

end Call

/-- The list after a run. -/
def run (F : Kind) (calls : List Call) (db : Db) : Db := calls.foldl (fun db c => c.step F db) db

/-- The last version of each record. -/
def last (calls : List Call) : Key × Key → Option (List Key × Key) :=
  calls.foldl (fun m c => Function.update m c.id c.version) fun _ => none

/-! ## Keys -/

/-- What holds of all kinds: a data key has the name of the set in front, the key of the record at
its end, and always as many tokens between them. -/
structure Lawful (F : Kind) : Prop where
  pos : 0 < F.N
  bound : F.N ≤ 6
  keyValid : ∀ {keyN keySub indexes}, valid keyN → valid keySub → indexes.length = F.N →
    (∀ s ∈ indexes, valid s) → ∀ k ∈ F.forEach keyN keySub indexes, isKeyValid k
  shape : ∃ L, ∀ {keyN keySub indexes}, valid keyN → valid keySub → indexes.length = F.N →
    (∀ s ∈ indexes, valid s) → (∀ s ∈ indexes, separator ∉ s) →
    ∀ k ∈ F.forEach keyN keySub indexes, DataKey L keyN keySub k

/-- What does not hold of an empty token either holds of all index values. -/
theorem separator_notMem_indexValue {indexes : List Key} (h : ∀ s ∈ indexes, separator ∉ s)
    (i : ℕ) : separator ∉ indexValue indexes i := by
  unfold indexValue
  by_cases hi : i < indexes.length
  · rw [List.getD_eq_getElem _ _ hi]
    exact h _ (List.getElem_mem hi)
  · rw [List.getD_eq_default _ _ (Nat.not_lt.mp hi)]
    exact List.not_mem_nil

theorem separator_notMem_slots {indexes : List Key} (h : ∀ s ∈ indexes, separator ∉ s) (n : ℕ)
    (args : List ℕ) : ∀ s ∈ slots n args indexes, separator ∉ s := by
  intro s hs
  rcases List.mem_append.mp hs with hs | hs
  · obtain ⟨i, _, rfl⟩ := List.mem_map.mp hs
    exact separator_notMem_indexValue h i
  · rw [List.eq_of_mem_replicate hs]
    exact List.not_mem_nil

/-- The key of a record with one index value. -/
theorem makeKeyData_eq {keyN keySub ix0 : Key} (hN : valid keyN) (hS : valid keySub)
    (hix : valid ix0) :
    makeKeyData keyN keySub ix0 = List.intercalate [separator] [keyN, ix0, keySub] ∧
      (makeKeyData keyN keySub ix0).length ≤ maxKeySize := by
  have htokens : ∀ t ∈ [keyN, ix0, keySub], t.length ≤ INDEX_TOKEN_SIZE := by
    simp only [List.mem_cons, List.not_mem_nil, or_false]
    rintro t (rfl | rfl | rfl)
    · exact hN.2
    · exact hix.2
    · exact hS.2
  obtain ⟨heq, hle⟩ := concatenateBuffer_tokens htokens (Nat.le_of_ble_eq_true rfl)
  have hkey : makeKeyData keyN keySub ix0 = List.intercalate [separator] [keyN, ix0, keySub] := heq
  exact ⟨hkey, hkey ▸ hle⟩

theorem indexValue_zero_mem {indexes : List Key} (hlen : indexes.length = 1) :
    indexValue indexes 0 ∈ indexes := by
  have hlt : 0 < indexes.length := hlen ▸ Nat.one_pos
  rw [indexValue, List.getD_eq_getElem _ _ hlt]
  exact List.getElem_mem hlt

theorem lawful_noIndex : Lawful permutation1NoIndex where
  pos := Nat.one_pos
  bound := by decide
  keyValid {keyN keySub indexes} hN hS hlen hix k hk := by
    obtain rfl := List.mem_singleton.mp hk
    obtain ⟨heq, hle⟩ := makeKeyData_eq hN hS (hix _ (indexValue_zero_mem hlen))
    refine ⟨?_, hle⟩
    rw [heq, List.intercalate_cons_cons, List.length_append, List.length_append]
    have hpos := List.length_pos_of_ne_nil hN.1
    omega
  shape := by
    refine ⟨0, fun {keyN keySub indexes} hN hS hlen hix hclear k hk => ?_⟩
    obtain rfl := List.mem_singleton.mp hk
    have hmem := indexValue_zero_mem hlen
    obtain ⟨heq, _⟩ := makeKeyData_eq hN hS (hix _ hmem)
    refine ⟨indexValue indexes 0, [], ?_, (hix _ hmem).1, rfl, fun u hu => ?_⟩
    · rw [heq, List.intercalate_cons_cons, List.intercalate_cons_cons, List.intercalate_singleton,
        terminated_cons_append]
      simp only [List.append_assoc, List.nil_append, List.cons_append, terminated,
        List.flatMap_nil]
    · rw [List.mem_singleton.mp hu]
      exact hclear _ hmem

theorem lawful_kindOf {P : Permutation} (hP : P ∈ permutations) : Lawful (kindOf P) where
  pos := Nat.succ_pos _
  bound := Nat.succ_le_succ (rows_spec P hP).1
  keyValid hN hS hlen hix k hk := by
    obtain ⟨row, hrow, rfl⟩ := List.mem_map.mp hk
    exact isKeyValid_makeKey hP ⟨hN, hS, hlen, hix⟩ hrow
  shape := by
    refine ⟨P.n + 1, fun {keyN keySub indexes} hN hS hlen hix hclear k hk => ?_⟩
    obtain ⟨row, hrow, rfl⟩ := List.mem_map.mp hk
    obtain ⟨hargs, hlt, _⟩ := (rows_spec P hP).2 row hrow
    have heq := makeKey_eq hP ⟨hN, hS, hlen, hix⟩ hrow
    rw [terminated_cons_append] at heq
    refine ⟨text row.2, slots P.n row.2 indexes ++ [indexValue indexes P.n], heq,
      text_ne_nil row.2, ?_, fun u hu => ?_⟩
    · rw [List.length_append, slots_length hargs, List.length_singleton]
    · rcases List.mem_cons.mp hu with rfl | hu
      · exact separator_notMem_text hlt
      · rcases List.mem_append.mp hu with hu | hu
        · exact separator_notMem_slots hclear _ _ u hu
        · rw [List.mem_singleton.mp hu]
          exact separator_notMem_indexValue hclear _

theorem lawful_of_mem {F : Kind} (h : F ∈ kinds) : Lawful F := by
  rcases List.mem_cons.mp h with rfl | h
  · exact lawful_noIndex
  · obtain ⟨P, hP, rfl⟩ := List.mem_map.mp h
    exact lawful_kindOf hP

theorem makeKeyCtrl_eq {keyN keySub : Key} (hN : valid keyN) (hS : valid keySub) :
    makeKeyCtrl keyN keySub = keyN ++ separator :: separator :: keySub ∧
      isKeyValid (makeKeyCtrl keyN keySub) := by
  have hsum : ([keyN, [separator], [separator], keySub].map List.length).sum ≤ maxKeySize := by
    have hlenN := hN.2
    have hlenS := hS.2
    simp only [List.map_cons, List.map_nil, List.sum_cons, List.sum_nil, List.length_singleton]
    unfold INDEX_TOKEN_SIZE at *
    unfold maxKeySize
    omega
  have heq : makeKeyCtrl keyN keySub = keyN ++ separator :: separator :: keySub := by
    rw [makeKeyCtrl, concatenateBuffer_key hsum]
    simp only [List.flatten_cons, List.flatten_nil, List.append_nil, List.singleton_append]
  refine ⟨heq, ?_, ?_⟩
  · rw [heq, List.length_append]
    have hpos := List.length_pos_of_ne_nil hN.1
    omega
  · rw [makeKeyCtrl, concatenateBuffer_key hsum, List.length_flatten]
    exact hsum

section Kinds

variable {F : Kind} (hF : Lawful F) {keyN keySub : Key} {indexes : List Key}

include hF

/-- The control key of a record is none of its data keys. -/
theorem ctrl_notMem (hN : valid keyN) (hS : valid keySub) (hlen : indexes.length = F.N)
    (hix : ∀ s ∈ indexes, valid s) (hclear : ∀ s ∈ indexes, separator ∉ s) :
    makeKeyCtrl keyN keySub ∉ F.forEach keyN keySub indexes := fun hmem => by
  obtain ⟨L, hshape⟩ := hF.shape
  exact (hshape hN hS hlen hix hclear _ hmem).not_ctrlKey (makeKeyCtrl_eq hN hS).1

/-- Index values without separators are decoded from the control key. -/
theorem decode_encode (hlen : indexes.length = F.N) (hix : ∀ s ∈ indexes, valid s)
    (hclear : ∀ s ∈ indexes, separator ∉ s) :
    F.decodeIndex (encodeIndex indexes) = indexes ∧ encodeIndex indexes ≠ [] ∧
      isValValid (encodeIndex indexes) := by
  have hbound := hF.bound
  obtain ⟨heq, hle⟩ := concatenateBuffer_tokens (fun t ht => (hix t ht).2)
    (hlen.trans_le (hF.bound.trans (by decide)))
  have henc : encodeIndex indexes = List.intercalate [separator] indexes := heq
  have hpieces : pieces separator (encodeIndex indexes) = indexes := by
    rw [henc]
    exact pieces_intercalate fun t ht => ⟨hclear t ht, (hix t ht).1⟩
  refine ⟨?_, fun hnil => ?_, ?_⟩
  · rw [Kind.decodeIndex, ← hlen]
    exact readTokens_eq hpieces
  · rw [hnil] at hpieces
    have hzero : indexes.length = 0 := hpieces ▸ rfl
    have hpos := hF.pos
    omega
  · rw [isValValid, henc]
    exact hle.trans (by decide)

end Kinds

/-! ## One call -/

/-- The records of some kind. -/
def scheme (F : Kind) : Scheme (Key × Key) (List Key) Key Key where
  ctrl i := makeKeyCtrl i.1 i.2
  keys i := F.forEach i.1 i.2
  encode := encodeIndex

section Step

variable {F : Kind} (hF : Lawful F) {db : Db} (hdb : Increasing Pair.key db) {keyN keySub : Key}
  {old : Option (List Key)}
  (hold : ∀ x ∈ old, x.length = F.N ∧ (∀ s ∈ x, valid s) ∧ ∀ s ∈ x, separator ∉ s)
  (hctrl : ∀ now, holds now db (makeKeyCtrl keyN keySub) = old.map encodeIndex)

include hF hold hctrl

/-- The control key is read as the last index values. -/
theorem getPairPtr_ctrl (now : UInt64) :
    (getPairPtr now (makeKeyCtrl keyN keySub) db).map (fun p => F.decodeIndex p.val) = old := by
  have hmap : (getPairPtr now (makeKeyCtrl keyN keySub) db).map Pair.val = old.map encodeIndex :=
    hctrl now
  have hdecode : old.map (fun x => F.decodeIndex (encodeIndex x)) = old := by
    cases old with
    | none => rfl
    | some x =>
      obtain ⟨hlen, hix, hclear⟩ := hold x rfl
      rw [Option.map_some, (decode_encode hF hlen hix hclear).1]
  have hcomp := congrArg (Option.map F.decodeIndex) hmap
  rw [Option.map_map, Option.map_map] at hcomp
  exact hcomp.trans hdecode

/-- The keys of the last index values are erased, unless they stay the same. -/
theorem removePreviousIndexes_eq (env : Env) (indexes : List Key) :
    removePreviousIndexes F env (makeKeyCtrl keyN keySub) keyN keySub indexes db =
      eraseKeys env.erase (old.elim [] fun x => if x = indexes then [] else F.forEach keyN keySub x)
        db := by
  have hread := getPairPtr_ctrl hF hold hctrl env.check
  unfold removePreviousIndexes
  cases hpair : getPairPtr env.check (makeKeyCtrl keyN keySub) db with
  | none =>
    rw [hpair, Option.map_none] at hread
    subst hread
    rfl
  | some pair =>
    rw [hpair, Option.map_some] at hread
    subst hread
    have hvalid : ∀ s ∈ F.decodeIndex pair.val, valid s := (hold _ rfl).2.1
    dsimp only [Option.elim_some]
    rw [if_neg (not_not.mpr hvalid)]
    split_ifs
    · rfl
    · rfl

/-- A record that is there is erased with its keys. -/
theorem rem_eq (env : Env) :
    rem F env keyN keySub db = old.elim db fun x =>
      Database.erase env.ctrl (makeKeyCtrl keyN keySub)
        (eraseKeys env.erase (F.forEach keyN keySub x) db) := by
  have hread := getPairPtr_ctrl hF hold hctrl env.check
  unfold rem
  dsimp only
  cases hpair : getPairPtr env.check (makeKeyCtrl keyN keySub) db with
  | none =>
    rw [hpair, Option.map_none] at hread
    subst hread
    rfl
  | some pair =>
    rw [hpair, Option.map_some] at hread
    subst hread
    have hvalid : ∀ s ∈ F.decodeIndex pair.val, valid s := (hold _ rfl).2.1
    exact if_neg (not_not.mpr hvalid)

include hdb

/-- What `add` writes. -/
theorem holds_add (env : Env) {indexes : List Key} {value : Key}
    (hN : valid keyN) (hS : valid keySub) (hlen : indexes.length = F.N)
    (hix : ∀ s ∈ indexes, valid s) (hclear : ∀ s ∈ indexes, separator ∉ s)
    (hval : isValValid value) (hne : value ≠ []) (now : UInt64) (k : Key) :
    holds now (add F env keyN keySub indexes value db) k =
      if k = makeKeyCtrl keyN keySub then some (encodeIndex indexes)
      else if k ∈ F.forEach keyN keySub indexes then some value
      else if k ∈ old.elim [] fun x => if x = indexes then [] else F.forEach keyN keySub x then none
      else holds now db k := by
  obtain ⟨_, hencne, hencval⟩ := decode_encode hF hlen hix hclear
  have hkeys := hF.keyValid hN hS hlen hix
  rw [add, removePreviousIndexes_eq hF hold hctrl,
    holds_insert (makeKeyCtrl_eq hN hS).2 hencval hencne]
  by_cases hk : k = makeKeyCtrl keyN keySub
  · rw [if_pos hk, hk, Function.update_self]
  · rw [if_neg hk, Function.update_of_ne hk, holds_insertKeys hkeys hval hne, holds_eraseKeys hdb]

/-- What `rem` writes. -/
theorem holds_rem (env : Env) (now : UInt64) (k : Key) :
    holds now (rem F env keyN keySub db) k =
      if k = makeKeyCtrl keyN keySub then none
      else if k ∈ old.elim [] (F.forEach keyN keySub) then none else holds now db k := by
  rw [rem_eq hF hold hctrl]
  cases old with
  | none =>
    by_cases hk : k = makeKeyCtrl keyN keySub
    · rw [if_pos hk, hk]
      exact hctrl now
    · rw [if_neg hk]
      exact (if_neg List.not_mem_nil).symm
  | some x =>
    rw [Option.elim_some, Option.elim_some, holds_erase (increasing_eraseKeys hdb _ _)]
    by_cases hk : k = makeKeyCtrl keyN keySub
    · rw [if_pos hk, hk, Function.update_self]
    · rw [if_neg hk, Function.update_of_ne hk, holds_eraseKeys hdb]

end Step

theorem increasing_removePreviousIndexes {db : Db} (hdb : Increasing Pair.key db) (F : Kind)
    (env : Env) (keyCtrl keyN keySub : Key) (indexes : List Key) :
    Increasing Pair.key (removePreviousIndexes F env keyCtrl keyN keySub indexes db) := by
  unfold removePreviousIndexes
  split
  · dsimp only
    by_cases hvalid : ∀ x ∈ F.decodeIndex (Pair.val ‹Pair›), valid x
    · rw [if_neg (not_not.mpr hvalid)]
      split
      · exact hdb
      · exact increasing_eraseKeys hdb _ _
    · rw [if_pos hvalid]
      exact increasing_insertHint hdb _ _ _ _
  · exact hdb

theorem increasing_rem {db : Db} (hdb : Increasing Pair.key db) (F : Kind) (env : Env)
    (keyN keySub : Key) : Increasing Pair.key (rem F env keyN keySub db) := by
  unfold rem
  dsimp only
  split
  · by_cases hvalid : ∀ x ∈ F.decodeIndex (Pair.val ‹Pair›), valid x
    · rw [if_neg (not_not.mpr hvalid)]
      exact increasing_erase (increasing_eraseKeys hdb _ _) _ _
    · rw [if_pos hvalid]
      exact increasing_insertHint hdb _ _ _ _
  · exact hdb

/-- A call keeps the order of the list. -/
theorem increasing_step {db : Db} (hdb : Increasing Pair.key db) (F : Kind) (c : Call) :
    Increasing Pair.key (c.step F db) := by
  cases c with
  | add env keyN keySub indexes value =>
    have hold := increasing_removePreviousIndexes hdb F env (makeKeyCtrl keyN keySub) keyN keySub
      indexes
    exact increasing_insert (increasing_insertKeys hold _ _ _) _ _ _
  | rem env keyN keySub => exact increasing_rem hdb F env keyN keySub

/-! ## All calls -/

/-- What should hold after some calls: a control key tells the last index values of its record,
and of all data keys of the record exactly those of the last index values hold its last value. All
other keys hold what they held before. -/
def Stored (F : Kind) (calls : List Call) (now : UInt64) (start db : Db) : Prop :=
  (∀ c ∈ calls,
    (holds now db (makeKeyCtrl c.id.1 c.id.2)).map F.decodeIndex =
        (last calls c.id).map Prod.fst ∧
      ∀ d ∈ calls, d.id = c.id → ∀ x ∈ d.version, ∀ k ∈ F.forEach c.id.1 c.id.2 x.1,
        holds now db k = (last calls c.id).bind fun y =>
          if k ∈ F.forEach c.id.1 c.id.2 y.1 then some y.2 else none) ∧
    ∀ k, (∀ c ∈ calls, k ∉ c.made F) → holds now db k = holds now start k

/-- Calls for different records make no common key. -/
def Apart (F : Kind) (calls : List Call) : Prop :=
  ∀ c ∈ calls, ∀ d ∈ calls, c.id ≠ d.id → ∀ k ∈ c.made F, k ∉ d.made F

instance (F : Kind) (calls : List Call) : Decidable (Apart F calls) :=
  inferInstanceAs (Decidable (∀ c ∈ calls, ∀ d ∈ calls,
    c.id ≠ d.id → ∀ k ∈ c.made F, k ∉ d.made F))

/-- What a call is to the records. -/
def Call.event (c : Call) : (Key × Key) × Option (List Key × Key) := (c.id, c.version)

/-- Where no name of a set has a separator in it, records do not share keys. -/
theorem apart_of_keyN {F : Kind} (hF : Lawful F) {calls : List Call}
    (hacc : ∀ c ∈ calls, c.Accepted F) (hclear : ∀ c ∈ calls, c.Clear)
    (hkeyN : ∀ c ∈ calls, separator ∉ c.id.1) : Apart F calls := by
  obtain ⟨L, hshape⟩ := hF.shape
  have hmade : ∀ c ∈ calls, ∀ k ∈ c.made F,
      CtrlKey c.id.1 c.id.2 k ∨ DataKey L c.id.1 c.id.2 k := by
    intro c hc k hk
    obtain ⟨hN, hS, hver⟩ := hacc c hc
    rcases List.mem_cons.mp hk with rfl | hk
    · exact .inl (makeKeyCtrl_eq hN hS).1
    · cases hv : c.version with
      | none =>
        rw [hv] at hk
        exact absurd hk List.not_mem_nil
      | some x =>
        rw [hv] at hk
        obtain ⟨hlen, hix, _⟩ := hver x hv
        exact .inr (hshape hN hS hlen hix (hclear c hc x hv).1 k hk)
  intro c hc d hd hne k hk hk'
  obtain ⟨hN, hS⟩ := recordKey_unique (hkeyN c hc) (hkeyN d hd) (hmade c hc k hk) (hmade d hd k hk')
  exact hne (Prod.ext hN hS)

section Run

variable {F : Kind} (hF : Lawful F) {calls : List Call} (hacc : ∀ c ∈ calls, c.Accepted F)
  (hclear : ∀ c ∈ calls, c.Clear) (hapart : Apart F calls) {start : Key → Option Key}

include hF hacc hclear hapart

/-- Records do not share keys. -/
theorem separate : Separate (scheme F) (UsedIn (calls.map Call.event))
    (GoodIn (calls.map Call.event)) := by
  have hevents : RecordIndex.Apart (scheme F) (calls.map Call.event) := by
    intro e he f hf hne k hk
    obtain ⟨c, hc, rfl⟩ := List.mem_map.mp he
    obtain ⟨d, hd, rfl⟩ := List.mem_map.mp hf
    exact hapart c hc d hd hne k hk
  refine hevents.separate fun e he x hx => ?_
  obtain ⟨c, hc, rfl⟩ := List.mem_map.mp he
  obtain ⟨hN, hS, hver⟩ := hacc c hc
  obtain ⟨hlen, hix, _⟩ := hver x hx
  exact ctrl_notMem hF hN hS hlen hix (hclear c hc x hx).1

/-- A call keeps the list consistent. -/
theorem consistent_step {m : Key × Key → Option (List Key × Key)} {db db0 : Db}
    (hdb : Increasing Pair.key db)
    (h : ∀ now, Consistent (scheme F) (UsedIn (calls.map Call.event))
      (GoodIn (calls.map Call.event)) (holds now db0) m (holds now db)) {c : Call}
    (hc : c ∈ calls) (now : UInt64) :
    Consistent (scheme F) (UsedIn (calls.map Call.event)) (GoodIn (calls.map Call.event))
      (holds now db0) (Function.update m c.id c.version) (holds now (c.step F db)) := by
  have hsep := separate hF hacc hclear hapart
  have hevent := List.mem_map_of_mem (f := Call.event) hc
  obtain ⟨hN, hS, hver⟩ := hacc c hc
  -- what the control key held is good
  have hgood : ∀ {i : Key × Key} {y}, m i = some y → y.1.length = F.N ∧ (∀ s ∈ y.1, valid s) ∧
      ∀ s ∈ y.1, separator ∉ s := fun hy => by
    obtain ⟨e, he, _, value, hv⟩ := (h 0).good hy
    obtain ⟨d, hd, rfl⟩ := List.mem_map.mp he
    obtain ⟨_, _, hver'⟩ := hacc d hd
    obtain ⟨hlen, hix, _⟩ := hver' _ hv
    exact ⟨hlen, hix, (hclear d hd _ hv).1⟩
  have hold : ∀ x ∈ (m c.id).map Prod.fst,
      x.length = F.N ∧ (∀ s ∈ x, valid s) ∧ ∀ s ∈ x, separator ∉ s := fun x hx => by
    obtain ⟨y, hy, rfl⟩ := Option.map_eq_some_iff.mp hx
    exact hgood hy
  have hctrl : ∀ now, holds now db (makeKeyCtrl c.id.1 c.id.2) =
      ((m c.id).map Prod.fst).map encodeIndex := fun now => by
    rw [Option.map_map]
    exact (h now).ctrl ⟨_, hevent, rfl⟩
  cases c with
  | add env keyN keySub indexes value =>
    obtain ⟨hlen, hix, hval⟩ := hver _ rfl
    obtain ⟨hsepix, hne⟩ := hclear _ hc _ rfl
    refine (h now).add hsep ⟨_, hevent, rfl, value, rfl⟩ value ?_ ?_
      (holds_add hF hdb hold hctrl env hN hS hlen hix hsepix hval hne now)
    · intro k hk
      cases hm : m (keyN, keySub) with
      | none =>
        simp only [Call.id, hm, Option.map_none, Option.elim_none] at hk
        exact absurd hk List.not_mem_nil
      | some y =>
        simp only [Call.id, hm, Option.map_some, Option.elim_some] at hk
        split at hk
        · exact absurd hk List.not_mem_nil
        · exact ⟨y.1, (h now).good hm, hk⟩
    · intro y hy k hk
      have hm : m (keyN, keySub) = some y := hy
      simp only [Call.id, hm, Option.map_some, Option.elim_some]
      by_cases heq : y.1 = indexes
      · exact .inr (heq ▸ hk)
      · rw [if_neg heq]
        exact .inl hk
  | rem env keyN keySub =>
    refine (h now).rem hsep ⟨_, hevent, rfl⟩ ?_ ?_ (holds_rem hF hdb hold hctrl env now)
    · intro k hk
      cases hm : m (keyN, keySub) with
      | none =>
        simp only [Call.id, hm, Option.map_none, Option.elim_none] at hk
        exact absurd hk List.not_mem_nil
      | some y =>
        simp only [Call.id, hm, Option.map_some, Option.elim_some] at hk
        exact ⟨y.1, (h now).good hm, hk⟩
    · intro y hy k hk
      have hm : m (keyN, keySub) = some y := hy
      simp only [Call.id, hm, Option.map_some, Option.elim_some]
      exact hk

end Run

/-- If no index value, with the sort key, has a separator in it, no value is empty and no two
records share a key, then after any calls the control keys and data keys of all records are those
of their last calls. -/
theorem run_stored {F : Kind} (hF : F ∈ kinds) {calls : List Call}
    (hacc : ∀ c ∈ calls, c.Accepted F) (hclear : ∀ c ∈ calls, c.Clear) (hapart : Apart F calls)
    {db : Db} (hdb : Increasing Pair.key db)
    (hempty : ∀ now, ∀ c ∈ calls, ∀ k ∈ c.made F, holds now db k = none) (now : UInt64) :
    Stored F calls now db (run F calls db) := by
  have hlaw := lawful_of_mem hF
  have hstep : ∀ c ∈ calls, ∀ m db', Increasing Pair.key db' →
      (∀ now, Consistent (scheme F) (UsedIn (calls.map Call.event))
        (GoodIn (calls.map Call.event)) (holds now db) m (holds now db')) →
      Increasing Pair.key (c.step F db') ∧
        ∀ now, Consistent (scheme F) (UsedIn (calls.map Call.event))
          (GoodIn (calls.map Call.event)) (holds now db)
          (Function.update m c.event.1 c.event.2) (holds now (c.step F db')) :=
    fun c hc m db' hdb' h =>
      ⟨increasing_step hdb' F c, consistent_step hlaw hacc hclear hapart hdb' h hc⟩
  have hdecode : ∀ c ∈ calls, ∀ x ∈ c.event.2,
      F.decodeIndex ((scheme F).encode x.1) = x.1 := fun c hc x hx => by
    obtain ⟨_, _, hver⟩ := hacc c hc
    obtain ⟨hlen, hix, _⟩ := hver x hx
    exact (decode_encode hlaw hlen hix (hclear c hc x hx).1).1
  have htracked : Tracked (scheme F) F.decodeIndex (fun r => r) (calls.map Call.event)
      (holds now db) (holds now (run F calls db)) :=
    tracked_run hstep hdb hempty hdecode now
  obtain ⟨hrecords, hframe⟩ := htracked
  have hlast : lastOf (calls.map Call.event) = last calls := by
    rw [lastOf, last, List.foldl_map]
    rfl
  rw [hlast] at hrecords
  refine ⟨fun c hc => ?_, fun k hk => hframe k fun e he => ?_⟩
  · obtain ⟨hctrl, hdata⟩ := hrecords _ (List.mem_map_of_mem (f := Call.event) hc)
    exact ⟨hctrl, fun d hd => hdata _ (List.mem_map_of_mem (f := Call.event) hd)⟩
  · obtain ⟨c, hc, rfl⟩ := List.mem_map.mp he
    exact hk c hc

/-- A write in fresh memory that drops what it erases. -/
def quietWrite : Write := ⟨false, true, 0⟩

/-- Surroundings in which nothing happens. -/
def quiet : Env := ⟨0, fun _ => quietWrite, fun _ => quietWrite, quietWrite⟩

/-- A record that gets another index value. -/
theorem run_stored_change :
    Stored (kindOf permutation1) [.add quiet [110] [115] [[97], [48]] [118],
        .add quiet [110] [115] [[98], [48]] [118]] 0 []
      (run (kindOf permutation1) [.add quiet [110] [115] [[97], [48]] [118],
        .add quiet [110] [115] [[98], [48]] [118]] []) :=
  run_stored (List.mem_of_getElem? (i := 1) rfl) (by decide) (by decide) (by decide) .nil
    (by intro now c _ k _; rfl) 0

/-- An index value with a separator in it is decoded to another, and its keys stay behind. -/
theorem run_not_stored : ¬∀ F ∈ kinds, ∀ calls : List Call, (∀ c ∈ calls, c.Accepted F) →
    ∀ now, Stored F calls now [] (run F calls []) := by
  intro hall
  have h := hall (kindOf permutation1) (List.mem_of_getElem? (i := 1) rfl)
    [.add quiet [110] [115] [[97, 126, 98], [48]] [118], .add quiet [110] [115] [[99], [48]] [118]]
    (by decide) 0
  have hstale := (h.1 _ List.mem_cons_self).2 _ List.mem_cons_self rfl _ rfl
    [110, 126, 65, 126, 97, 126, 98, 126, 48, 126, 115] (by decide)
  exact absurd hstale (by decide +kernel)

end HM4.ZSet
