import HM4.Sketch

/-!
# A factory in place and in fresh memory

A list that owns the memory of a pair lets a factory change it there; otherwise the factory writes a
new pair. In place the factory may find that the pair has the right size already, and then its value
stays until the action. Both ways lead to the same pair if the value that stays is the one that the
factory would copy, which it is not for a factory that was handed no pair.
-/

namespace HM4.InPlaceUpdate

open LexPrefix Bytes Pairs PairFactory MemList KeyedList Database VFactory

variable {ρ : Type}

/-! ## Factories -/

/-- The action of a factory: the value it leaves, and what the factory keeps of it. Beside the value
it may read the pair that the list has for the key, through a function from the value of the moment
to what is seen there. -/
structure Action (ρ : Type) where
  /-- `action`. -/
  run : (Key → Key) → Key → Key × ρ
  length_run : ∀ seen data, (run seen data).1.length = data.length

/-- The action does not read the pair that the list has. -/
def Action.Alone (action : Action ρ) : Prop :=
  ∀ seen seen' data, action.run seen data = action.run seen' data

/-- The action does not depend on what was in the value. -/
def Action.Overwrites (action : Action ρ) (valSize : ℕ) : Prop :=
  ∀ seen seen' data data', data.length = valSize → data'.length = valSize →
    action.run seen data = action.run seen' data'

/-- `IFactoryAction<copy_value, same_size, Child>`. -/
structure IFactoryAction (ρ : Type) where
  copy_value : Bool
  same_size : Bool
  key : Key
  val_size : ℕ
  old_pair : Option Pair
  fill : Byte
  action : Action ρ

namespace IFactoryAction

/-- `bytes`. -/
def bytes (f : IFactoryAction ρ) : ℕ := sizeofPair + f.key.length + f.val_size

/-- `valid`. -/
def valid (f : IFactoryAction ρ) : Prop := isKeyValid f.key ∧ f.val_size ≤ maxValSize

instance (f : IFactoryAction ρ) : Decidable f.valid := inferInstanceAs (Decidable (_ ∧ _))

/-- `copyPair_`, with what `getVal` of the old pair returns at that moment. -/
def copyPair (f : IFactoryAction ρ) (oldVal : Option Key) (data : Key) : Key :=
  if f.copy_value = true then
    match oldVal with
    | some val => smartMemcpy f.val_size val
    | none => List.replicate f.val_size f.fill
  else data

/-- The value in place before the action. -/
def hintData (f : IFactoryAction ρ) (now : UInt64) (pair : Pair) : Key :=
  if f.same_size = true ∧ isOK now pair = true ∧ pair.val.length = f.val_size then pair.val
  else
    -- the size of the pair has changed when the old pair is read, which may be the same one
    let data := pair.val.take f.val_size
    f.copyPair (f.old_pair.map fun old => if old = pair then data else old.val) data

/-- `createHint`: the value, what the factory keeps, and how often the action has run. -/
def createHint (f : IFactoryAction ρ) (now : UInt64) (pair : Pair) : Key × ρ × ℕ :=
  let r := f.action.run id (f.hintData now pair)
  (r.1, r.2, 1)

/-- The value in fresh memory before the action; nobody has cleared this memory. -/
def createData (f : IFactoryAction ρ) (raw : ℕ → Byte) : Key :=
  f.copyPair (f.old_pair.map Pair.val) ((List.range f.val_size).map raw)

/-- `create`, while the list still has its pair. -/
def create (f : IFactoryAction ρ) (raw : ℕ → Byte) (pair : Option Pair) : Key × ρ × ℕ :=
  let r := f.action.run (fun _ => (pair.map Pair.val).getD []) (f.createData raw)
  (r.1, r.2, 1)

theorem copyPair_length {f : IFactoryAction ρ} {data : Key} (h : data.length ≤ maxValSize)
    (hf : f.valid) (oldVal : Option Key) : (f.copyPair oldVal data).length ≤ maxValSize := by
  unfold copyPair
  split
  · cases oldVal with
    | none => simpa using hf.2
    | some val => simpa [smartMemcpy_length] using hf.2
  · exact h

theorem createHint_valid {f : IFactoryAction ρ} (hf : f.valid) (now : UInt64) (pair : Pair) :
    isValValid (f.createHint now pair).1 := by
  have hpair : pair.val.length ≤ maxValSize := pair.valValid
  have htake : (pair.val.take f.val_size).length ≤ maxValSize := by
    rw [List.length_take]
    omega
  unfold isValValid createHint
  rw [f.action.length_run]
  unfold hintData
  split
  · exact hpair
  · exact copyPair_length htake hf _

theorem create_valid {f : IFactoryAction ρ} (hf : f.valid) (raw : ℕ → Byte) (pair : Option Pair) :
    isValValid (f.create raw pair).1 := by
  have hraw : ((List.range f.val_size).map raw).length ≤ maxValSize := by
    simpa using hf.2
  unfold isValValid create
  rw [f.action.length_run]
  exact copyPair_length hraw hf _

end IFactoryAction

/-! ## Lists -/

/-- A list after an insert, what the factory keeps, and how often its action has run. -/
structure Outcome (ρ : Type) where
  db : Db
  result : Option ρ
  runs : ℕ

namespace IFactoryAction

/-- What a factory leaves becomes the pair of its key. -/
def store (f : IFactoryAction ρ) (hf : f.valid) (now : UInt64) (r : Key × ρ × ℕ)
    (hr : isValValid r.1) (db : Db) : Outcome ρ :=
  ⟨put Pair.key (full f.key r.1 0 now hf.1 hr) db, some r.2.1, r.2.2⟩

/-- `insert` of a list, with `tryUpdateInPlaceLC` if it `owns` the memory of its pair. -/
def insert (f : IFactoryAction ρ) (owns : Bool) (raw : ℕ → Byte) (now : UInt64) (db : Db) :
    Outcome ρ :=
  if hf : f.valid then
    match get f.key db with
    | none => f.store hf now (f.create raw none) (create_valid hf raw none) db
    | some old =>
      if owns = true ∧ f.bytes ≤ old.bytes then
        f.store hf now (f.createHint now old) (createHint_valid hf now old) db
      else f.store hf now (f.create raw (some old)) (create_valid hf raw (some old)) db
  else ⟨db, none, 0⟩

/-- `insertHint`, and `insertHintVFactory` which asks for another `size` of the pair. -/
def insertHint (f : IFactoryAction ρ) (size : Pair → ℕ) (owns : Bool) (raw : ℕ → Byte)
    (now : UInt64) (hint : Option Pair) (db : Db) : Outcome ρ :=
  match hint with
  | none => f.insert owns raw now db
  | some pair =>
    if hf : f.valid ∧ owns = true ∧ f.bytes ≤ size pair then
      f.store hf.1 now (f.createHint now pair) (createHint_valid hf.1 now pair) db
    else f.insert owns raw now db

end IFactoryAction

/-- Both outcomes have the same pair of the key but for the time of its creation, the factory keeps
the same, the action has run once, and all other pairs are as before. -/
structure Outcome.Same (key : Key) (db : Db) (a b : Outcome ρ) : Prop where
  pair : ∃ p q, get key a.db = some p ∧ get key b.db = some q ∧
    p.key = q.key ∧ p.val = q.val ∧ p.expires = q.expires
  result : a.result = b.result
  runs : a.runs = 1 ∧ b.runs = 1
  others : ∀ k, k ≠ key → get k a.db = get k db ∧ get k b.db = get k db

theorem same_store_iff {f : IFactoryAction ρ} (hf : f.valid) (now : UInt64) {r r' : Key × ρ × ℕ}
    (hr : isValValid r.1) (hr' : isValValid r'.1) (h : r.2.2 = 1) (h' : r'.2.2 = 1) (db : Db) :
    (f.store hf now r hr db).Same f.key db (f.store hf now r' hr' db) ↔
      r.1 = r'.1 ∧ r.2.1 = r'.2.1 := by
  have hself (r : Key × ρ × ℕ) (hr : isValValid r.1) :
      get f.key (f.store hf now r hr db).db = some (full f.key r.1 0 now hf.1 hr) :=
    lookup_put_self Pair.key (full f.key r.1 0 now hf.1 hr) db
  have hother (r : Key × ρ × ℕ) (hr : isValValid r.1) (k : Key) (hk : k ≠ f.key) :
      get k (f.store hf now r hr db).db = get k db :=
    @lookup_put_of_ne _ _ _ Pair.key k (full f.key r.1 0 now hf.1 hr) hk.symm db
  constructor
  · intro hsame
    obtain ⟨p, q, hp, hq, -, hval, -⟩ := hsame.pair
    rw [hself r hr, Option.some.injEq] at hp
    rw [hself r' hr', Option.some.injEq] at hq
    refine ⟨?_, Option.some.inj hsame.result⟩
    rw [← hp, ← hq] at hval
    exact hval
  · rintro ⟨hval, hresult⟩
    exact ⟨⟨_, _, hself r hr, hself r' hr', rfl, hval, rfl⟩, congrArg some hresult, ⟨h, h'⟩,
      fun k hk => ⟨hother r hr k hk, hother r' hr' k hk⟩⟩

section Paths

variable {f : IFactoryAction ρ} {now : UInt64} {db : Db} {old : Pair}
  (hold : get f.key db = some old) (hfit : f.bytes ≤ old.bytes)

include hold hfit

/-- A factory that fits in place is valid. -/
theorem valid_of_fits : f.valid ∧ f.val_size ≤ old.val.length := by
  have hkey : old.key = f.key := lookup_key hold
  have hmax : old.val.length ≤ maxValSize := old.valValid
  unfold IFactoryAction.bytes Pair.bytes at hfit
  rw [hkey] at hfit
  exact ⟨⟨hkey ▸ old.keyValid, by omega⟩, by omega⟩

/-- A list that owns its pair lets the factory change it, with a hint to it or without one. -/
theorem insertHint_owns (raw : ℕ → Byte) (size : Pair → ℕ) {hint : Option Pair}
    (hhint : ∀ p ∈ hint, p = old) :
    f.insertHint size true raw now hint db =
      f.store (valid_of_fits hold hfit).1 now (f.createHint now old)
        (IFactoryAction.createHint_valid (valid_of_fits hold hfit).1 now old) db := by
  have hvalid := (valid_of_fits hold hfit).1
  have hinsert : f.insert true raw now db = f.store hvalid now (f.createHint now old)
      (IFactoryAction.createHint_valid hvalid now old) db := by
    unfold IFactoryAction.insert
    rw [dif_pos hvalid]
    simp only [hold]
    rw [if_pos ⟨trivial, hfit⟩]
  unfold IFactoryAction.insertHint
  cases hint with
  | none => exact hinsert
  | some pair =>
    obtain rfl := hhint pair rfl
    dsimp only
    split
    · rfl
    · exact hinsert

/-- A list that does not own it replaces it. -/
theorem insertHint_not_owns (raw : ℕ → Byte) (size : Pair → ℕ) (hint : Option Pair) :
    f.insertHint size false raw now hint db =
      f.store (valid_of_fits hold hfit).1 now (f.create raw (some old))
        (IFactoryAction.create_valid (valid_of_fits hold hfit).1 raw (some old)) db := by
  have hvalid := (valid_of_fits hold hfit).1
  have hinsert : f.insert false raw now db = f.store hvalid now (f.create raw (some old))
      (IFactoryAction.create_valid hvalid raw (some old)) db := by
    unfold IFactoryAction.insert
    rw [dif_pos hvalid]
    simp only [hold]
    rw [if_neg (by simp)]
  unfold IFactoryAction.insertHint
  cases hint with
  | none => exact hinsert
  | some pair =>
    dsimp only
    rw [dif_neg (by simp)]
    exact hinsert

end Paths

/-! ## The values before the action -/

section Data

variable {f : IFactoryAction ρ} {now : UInt64} {old : Pair} (hsize : f.val_size ≤ old.val.length)

include hsize

theorem hintData_length : (f.hintData now old).length = f.val_size := by
  unfold IFactoryAction.hintData
  split
  · next h => exact h.2.2
  · unfold IFactoryAction.copyPair
    split
    · cases f.old_pair with
      | none => simp
      | some old' => simp [smartMemcpy_length]
    · rw [List.length_take]
      omega

omit hsize in
theorem createData_length (raw : ℕ → Byte) : (f.createData raw).length = f.val_size := by
  unfold IFactoryAction.createData IFactoryAction.copyPair
  split
  · cases f.old_pair with
    | none => simp
    | some old' => simp [smartMemcpy_length]
  · simp

theorem smartMemcpy_take : smartMemcpy f.val_size (old.val.take f.val_size) =
    smartMemcpy f.val_size old.val := by
  have htake : (old.val.take f.val_size).length = f.val_size := by
    rw [List.length_take]
    omega
  unfold smartMemcpy
  rw [if_pos htake.le, htake, Nat.sub_self, List.replicate_zero, List.append_nil]
  split
  · next hle =>
    have heq : old.val.length = f.val_size := by omega
    rw [List.take_of_length_le hle, heq]
    simp
  · rfl

/-- A factory that copies has the same value in place as in fresh memory, if the pair is the one it
was handed or its own value does not stay. -/
theorem hintData_eq_createData (raw : ℕ → Byte) (hcopy : f.copy_value = true)
    (hold : ∀ p ∈ f.old_pair, p = old)
    (hstays : f.same_size = true → isOK now old = true → old.val.length = f.val_size →
      f.old_pair = some old) : f.hintData now old = f.createData raw := by
  unfold IFactoryAction.hintData IFactoryAction.createData IFactoryAction.copyPair
  rw [if_pos hcopy, if_pos hcopy]
  split
  · next h =>
    rw [hstays h.1 h.2.1 h.2.2, Option.map_some]
    unfold smartMemcpy
    simp [h.2.2]
  · cases hpair : f.old_pair with
    | none => rfl
    | some p =>
      obtain rfl := hold p hpair
      simp [smartMemcpy_take hsize]

end Data

/-! ## The value before the action, on every path -/

section Paths

variable {f : IFactoryAction ρ} {db : Db} {hint : Option Pair}

/-- On every path the list has what one run of the action leaves, of a value in fresh memory or in
the memory of its pair. -/
theorem insertHint_run (hf : f.valid)
    (hhint : ∀ p ∈ hint, get f.key db = some p ∧ f.val_size ≤ p.val.length)
    (size : Pair → ℕ) (owns : Bool) (raw : ℕ → Byte) (now : UInt64) :
    ∃ seen data hval, (data = f.createData raw ∨ ∃ pair, get f.key db = some pair ∧
        f.val_size ≤ pair.val.length ∧ data = f.hintData now pair) ∧
      (f.insertHint size owns raw now hint db).db =
        put Pair.key (full f.key (f.action.run seen data).1 0 now hf.1 hval) db := by
  have hinsert : ∃ seen data hval, (data = f.createData raw ∨ ∃ pair, get f.key db = some pair ∧
        f.val_size ≤ pair.val.length ∧ data = f.hintData now pair) ∧
      (f.insert owns raw now db).db =
        put Pair.key (full f.key (f.action.run seen data).1 0 now hf.1 hval) db := by
    unfold IFactoryAction.insert
    rw [dif_pos hf]
    cases hget : get f.key db with
    | none => exact ⟨_, _, IFactoryAction.create_valid hf raw none, .inl rfl, rfl⟩
    | some old =>
      dsimp only
      split
      · next hfit =>
        have hsize := (valid_of_fits hget hfit.2).2
        exact ⟨_, _, IFactoryAction.createHint_valid hf now old,
          .inr ⟨old, rfl, hsize, rfl⟩, rfl⟩
      · exact ⟨_, _, IFactoryAction.create_valid hf raw (some old), .inl rfl, rfl⟩
  unfold IFactoryAction.insertHint
  cases hint with
  | none => exact hinsert
  | some pair =>
    obtain ⟨hget, hsize⟩ := hhint pair rfl
    dsimp only
    split
    · exact ⟨_, _, IFactoryAction.createHint_valid hf now pair,
        .inr ⟨pair, hget, hsize, rfl⟩, rfl⟩
    · exact hinsert

/-- A factory that copies the pair of its key, which has the right size. -/
structure IFactoryAction.Updates (f : IFactoryAction ρ) (db : Db) : Prop where
  valid : f.valid
  copies : f.copy_value = true
  same : f.same_size = true
  alone : f.action.Alone
  handed : ∀ p ∈ f.old_pair, get f.key db = some p ∧ p.val.length = f.val_size

theorem IFactoryAction.Updates.createData_eq (h : f.Updates db) (raw : ℕ → Byte) :
    ∀ p ∈ f.old_pair, f.createData raw = p.val := by
  intro p hp
  have hlen := (h.handed p hp).2
  unfold IFactoryAction.createData IFactoryAction.copyPair
  rw [if_pos h.copies, hp]
  simp [smartMemcpy, hlen]

theorem IFactoryAction.Updates.hintData_eq (h : f.Updates db) (now : UInt64) {pair : Pair}
    (hpair : get f.key db = some pair) : ∀ p ∈ f.old_pair, f.hintData now pair = p.val := by
  intro p hp
  obtain ⟨hget, hlen⟩ := h.handed p hp
  obtain rfl : p = pair := Option.some.inj (hget.symm.trans hpair)
  unfold IFactoryAction.hintData IFactoryAction.copyPair
  split
  · rfl
  · rw [if_pos h.copies, hp]
    simp [smartMemcpy, hlen, List.take_of_length_le]

/-- On every path the action runs on a value of the right size, which is the value of the pair that
was handed. -/
theorem IFactoryAction.Updates.insertHint (h : f.Updates db) (size : Pair → ℕ) (owns : Bool)
    (raw : ℕ → Byte) (now : UInt64) :
    ∃ data, data.length = f.val_size ∧ (∀ p ∈ f.old_pair, data = p.val) ∧
      ∃ hval, (f.insertHint size owns raw now f.old_pair db).db =
        put Pair.key (full f.key (f.action.run id data).1 0 now h.valid.1 hval) db := by
  obtain ⟨seen, data, hval, hdata, hput⟩ := insertHint_run h.valid
    (fun p hp => ⟨(h.handed p hp).1, (h.handed p hp).2.ge⟩) size owns raw now
  have hrun : f.action.run seen data = f.action.run id data := h.alone _ _ _
  simp only [hrun] at hput
  rcases hdata with rfl | ⟨pair, hget, hsize, rfl⟩
  · exact ⟨_, createData_length raw, h.createData_eq raw, _, hput⟩
  · exact ⟨_, hintData_length hsize, h.hintData_eq now hget, _, hput⟩

/-- With nothing of the right size alive that was not handed, this value is the one that a new pair
gets. -/
theorem IFactoryAction.Updates.insertHint_create (h : f.Updates db) (size : Pair → ℕ) (owns : Bool)
    (raw : ℕ → Byte) (now : UInt64)
    (hstays : ∀ pair, get f.key db = some pair → isOK now pair = true →
      pair.val.length = f.val_size → f.old_pair = some pair) :
    ∃ hval, (f.insertHint size owns raw now f.old_pair db).db =
      put Pair.key (full f.key (f.action.run id (f.createData raw)).1 0 now h.valid.1 hval) db := by
  obtain ⟨seen, data, hval, hdata, hput⟩ := insertHint_run h.valid
    (fun p hp => ⟨(h.handed p hp).1, (h.handed p hp).2.ge⟩) size owns raw now
  have hrun : f.action.run seen data = f.action.run id data := h.alone _ _ _
  simp only [hrun] at hput
  have hcreate : data = f.createData raw := by
    rcases hdata with hdata | ⟨pair, hget, hsize, rfl⟩
    · exact hdata
    · refine hintData_eq_createData hsize raw h.copies (fun p hp => ?_) fun _ => hstays pair hget
      exact Option.some.inj ((h.handed p hp).1.symm.trans hget)
  subst hcreate
  exact ⟨_, hput⟩

end Paths

/-- An action on values alone. -/
def Action.ofValues (action : VFactory.Action) : Action Unit where
  run _ data := (action.run data, ())
  length_run _ := action.length_run

/-! ## Commands -/

/-- What a command finds out about its surroundings: the time when it looks for the pair and the
later time when it writes. -/
structure Env where
  check : UInt64
  write : UInt64
  check_le : check ≤ write

/-- A pair that is alive when it is written was alive when it was looked at. -/
theorem Env.isOK_check (env : Env) {p : Pair} (h : isOK env.write p = true) :
    isOK env.check p = true := by
  have hle : env.check.toNat ≤ env.write.toNat := UInt64.le_iff_toNat_le.mp env.check_le
  unfold isOK isExpired at *
  simp only [Bool.and_eq_true, Bool.not_eq_true', decide_eq_false_iff_not, not_and, not_lt] at *
  exact ⟨h.1, fun hexpires => hle.trans (h.2 hexpires)⟩

/-- The functions that take a hint. -/
inductive Entry
  | insertHint
  | insertHintVFactory

/-- The size of a pair that they ask for. -/
def Entry.size : Entry → Pair → ℕ
  | .insertHint => Pair.bytes
  | .insertHintVFactory => fun p => p.val.length

/-- `sizeof(AccData)`. -/
def sizeofAccData : ℕ := 72

/-- The commands with such a factory, by what they hand to it. -/
inductive Command : Type → Type 1
  /-- The factory copies the pair that was looked up, which has the right size if `same_size`:
  `CMSADD`, `CBFADD`, `PFADD`, `PFMERGE`, `SSADD`, `TDADD`, `TDMERGE`, `CFADD`, `BFADD`, `HHADD`,
  `MGADD`, `RSADD`, `RBADD`, `RBPOP`, `ISET`, `IDEL` and their variants, and without `same_size`
  `SLADD`, `APPEND`, `BITSET`. -/
  | update {ρ : Type} (entry : Entry) (same_size : Bool) (key : Key) (val_size : ℕ) (fill : Byte)
      (action : Action ρ) (alone : action.Alone) : Command ρ
  /-- The factory gets no pair, and its action writes the whole value: `PFSET`, `MHADD`, `VADD`,
  `IXMADD`, `ISETALL`. -/
  | overwrite {ρ : Type} (copy_value same_size : Bool) (key : Key) (val_size : ℕ)
      (action : Action ρ) (overwrites : action.Overwrites val_size) : Command ρ
  /-- `PairFactory::Reserve`. -/
  | reserve (key : Key) (val_size : ℕ) (fill : Byte) : Command Unit
  /-- `SSMERGE` of some keys: the sum of two numbers and of the other fields of two `AccData`, and
  what `std::sort` makes of the pairs of the keys. -/
  | ssmerge (combine : Key → Key → Key) (sortF : List Pair → List Pair) (key : Key)
      (keys : List Key) : Command Unit

/-- `count_`. -/
def accCount (acc : Key) : ℕ := loadBE 8 (acc.take 8)

/-- `clear`: only the count. -/
def accClear (acc : Key) : Key := acc.mapIdx fun i b => if i < 8 then 0 else b

/-- `merge`. -/
def accMerge (combine : Key → Key → Key) (acc other : Key) : Key :=
  if accCount other = 0 then acc
  else if accCount acc = 0 then smartMemcpy acc.length other
  else smartMemcpy acc.length
    (storeBE 8 ((accCount acc + accCount other) % 2 ^ 64) ++ combine (acc.drop 8) (other.drop 8))

theorem length_accMerge (combine : Key → Key → Key) (acc other : Key) :
    (accMerge combine acc other).length = acc.length := by
  unfold accMerge
  split
  · rfl
  · split
    · exact smartMemcpy_length _ _
    · exact smartMemcpy_length _ _

/-- The loop of `merge` over pairs, of which those of the key are seen as they are now. -/
def accMergeAll (combine : Key → Key → Key) (key : Key) (sources : List Pair) (seen : Key → Key)
    (acc : Key) : Key :=
  sources.foldl
    (fun acc p => accMerge combine acc (if p.key = key then seen acc else p.val)) acc

theorem length_accMergeAll (combine : Key → Key → Key) (key : Key) (sources : List Pair)
    (seen : Key → Key) (acc : Key) :
    (accMergeAll combine key sources seen acc).length = acc.length := by
  unfold accMergeAll
  induction sources generalizing acc with
  | nil => rfl
  | cons p sources ih => rw [List.foldl_cons, ih, length_accMerge]

/-- `SSMERGEFactory::action` on a value. -/
def ssmergeRun (combine : Key → Key → Key) (key : Key) (sources : List Pair) (seen : Key → Key)
    (data : Key) : Key × Unit :=
  (accMergeAll combine key sources seen (accClear data), ())

theorem length_ssmergeRun (combine : Key → Key → Key) (key : Key) (sources : List Pair)
    (seen : Key → Key) (data : Key) :
    (ssmergeRun combine key sources seen data).1.length = data.length := by
  unfold ssmergeRun
  dsimp only
  rw [length_accMergeAll, accClear, List.length_mapIdx]

/-- `SSMERGEFactory::action`. -/
def ssmergeAction (combine : Key → Key → Key) (key : Key) (sources : List Pair) : Action Unit where
  run := ssmergeRun combine key sources
  length_run := length_ssmergeRun combine key sources

/-- The action that does nothing. -/
def noAction : Action Unit where
  run _ data := (data, ())
  length_run _ _ := rfl

namespace Command

/-- The key of a command. -/
def key : {ρ : Type} → Command ρ → Key
  | _, update _ _ key _ _ _ _ => key
  | _, overwrite _ _ key _ _ _ => key
  | _, reserve key _ _ => key
  | _, ssmerge _ _ key _ => key

/-- The pairs that `SSMERGE` merges. -/
def sources (sortF : List Pair → List Pair) (keys : List Key) (env : Env) (db : Db) : List Pair :=
  sortF (keys.filterMap fun k => Sketch.getPairPtrWithSize env.check k sizeofAccData db)

/-- The pair that a command looks up. -/
def handed : {ρ : Type} → Command ρ → Env → Db → Option Pair
  | _, update _ same_size key val_size _ _ _, env, db =>
    if same_size = true then Sketch.getPairPtrWithSize env.check key val_size db
    else getPairPtr env.check key db
  | _, overwrite _ _ _ _ _ _, _, _ => none
  | _, reserve _ _ _, _, _ => none
  | _, ssmerge _ _ key _, env, db => Sketch.getPairPtrWithSize env.check key sizeofAccData db

/-- The factory of a command. -/
def factory : {ρ : Type} → Command ρ → Env → Db → IFactoryAction ρ
  | _, update entry same_size key val_size fill action alone, env, db =>
    ⟨true, same_size, key, val_size,
      (update entry same_size key val_size fill action alone).handed env db, fill, action⟩
  | _, overwrite copy_value same_size key val_size action _, _, _ =>
    ⟨copy_value, same_size, key, val_size, none, FILL, action⟩
  | _, reserve key val_size fill, _, _ => ⟨true, true, key, val_size, none, fill, noAction⟩
  | _, ssmerge combine sortF key keys, env, db =>
    ⟨false, true, key, sizeofAccData, (ssmerge combine sortF key keys).handed env db, FILL,
      ssmergeAction combine key (sources sortF keys env db)⟩

/-- The size that a command asks a hint for. -/
def size : {ρ : Type} → Command ρ → Pair → ℕ
  | _, update entry _ _ _ _ _ _ => entry.size
  | _, _ => Entry.insertHintVFactory.size

/-- A command of a list that owns the memory of its pair or does not. -/
def exec {ρ : Type} (c : Command ρ) (owns : Bool) (raw : ℕ → Byte) (env : Env) (db : Db) :
    Outcome ρ :=
  (c.factory env db).insertHint c.size owns raw env.write (c.handed env db) db

/-- If the pair of the key can be changed in place, then this has the same outcome as a
replacement, whatever is in the memory of the new pair. -/
def Agrees {ρ : Type} (c : Command ρ) (env : Env) (db : Db) : Prop :=
  ∀ old, get c.key db = some old → (c.factory env db).bytes ≤ old.bytes →
    ∀ raw, (c.exec true raw env db).Same c.key db (c.exec false raw env db)

/-- `SSMERGE` with its own pair among the sources. -/
def MergesItself {ρ : Type} : Command ρ → Env → Db → Prop
  | ssmerge _ sortF key keys, env, db => ∃ p ∈ sources sortF keys env db, p.key = key
  | _, _, _ => False

/-- What a pair of the list must not be: for `Reserve`, alive and of the very size with other octets
than the filling; for `SSMERGE`, large enough while its own value is merged or nothing is. -/
def Fits {ρ : Type} : Command ρ → Env → Db → Prop
  | reserve key val_size fill, env, db => ∀ old, get key db = some old →
      isOK env.write old = true → old.val.length = val_size → old.val = List.replicate val_size fill
  | ssmerge _ sortF key keys, env, db => ∀ old, get key db = some old →
      sizeofAccData ≤ old.val.length → (∀ p ∈ sources sortF keys env db, p.key ≠ key) ∧
        ∃ p ∈ sources sortF keys env db, accCount p.val ≠ 0
  | _, _, _ => True

end Command

/-! ## Agreement -/

section Agreement

variable {ρ : Type} (c : Command ρ) {env : Env} {db : Db}

/-- A pair that a command hands to its factory is the pair of the list. -/
theorem handed_eq {old : Pair} (hold : get c.key db = some old) :
    ∀ p ∈ c.handed env db, p = old := by
  have hptr (key : Key) (hold : get key db = some old) :
      ∀ p ∈ getPairPtr env.check key db, p = old := fun p hp =>
    Option.some.inj ((Option.eq_some_of_filter_eq_some hp).symm.trans hold)
  have hsize (key : Key) (n : ℕ) (hold : get key db = some old) :
      ∀ p ∈ Sketch.getPairPtrWithSize env.check key n db, p = old := fun p hp =>
    hptr key hold p (Option.eq_some_of_filter_eq_some hp)
  cases c with
  | update entry same_size key val_size fill action alone =>
    simp only [Command.handed]
    cases same_size with
    | true => simpa using hsize key val_size hold
    | false => simpa using hptr key hold
  | overwrite copy_value same_size key val_size action overwrites => simp [Command.handed]
  | reserve key val_size fill => simp [Command.handed]
  | ssmerge combine sortF key keys => exact hsize key sizeofAccData hold

theorem factory_key : (c.factory env db).key = c.key := by
  cases c <;> rfl

/-- The outcomes agree if the action does the same to both values. -/
theorem agrees_iff_runs : c.Agrees env db ↔ ∀ old, get c.key db = some old →
    (c.factory env db).bytes ≤ old.bytes → ∀ raw,
      (c.factory env db).action.run id ((c.factory env db).hintData env.write old) =
        (c.factory env db).action.run (fun _ => old.val) ((c.factory env db).createData raw) := by
  have hkey : (c.factory env db).key = c.key := factory_key c
  refine forall_congr' fun old => forall_congr' fun hold => forall_congr' fun hfit =>
    forall_congr' fun raw => ?_
  have hold' : get (c.factory env db).key db = some old := hkey ▸ hold
  unfold Command.exec
  rw [insertHint_owns hold' hfit raw c.size (handed_eq c hold),
    insertHint_not_owns hold' hfit raw c.size, ← hkey,
    same_store_iff _ _ _ _ rfl rfl]
  exact (@Prod.ext_iff Key ρ _ _).symm

theorem update_agrees (entry : Entry) (same_size : Bool) (key : Key) (val_size : ℕ) (fill : Byte)
    (action : Action ρ) (alone : action.Alone) :
    (Command.update entry same_size key val_size fill action alone).Agrees env db := by
  rw [agrees_iff_runs]
  intro old hold hfit raw
  have hsize := (valid_of_fits hold hfit).2
  have hdata := @hintData_eq_createData _ _ env.write _ hsize raw rfl
    (handed_eq (.update entry same_size key val_size fill action alone) hold)
    (fun hsame hok hlen => ?_)
  · rw [hdata]
    exact alone _ _ _
  · have hsame' : same_size = true := hsame
    have hget : get key db = some old := hold
    have hlen' : old.val.length = val_size := hlen
    show (Command.update entry same_size key val_size fill action alone).handed env db = some old
    simp [Command.handed, hsame', Sketch.getPairPtrWithSize, getPairPtr, hget, Option.filter,
      env.isOK_check hok, hlen']

theorem overwrite_agrees (copy_value same_size : Bool) (key : Key) (val_size : ℕ)
    (action : Action ρ) (overwrites : action.Overwrites val_size) :
    (Command.overwrite copy_value same_size key val_size action overwrites).Agrees env db := by
  rw [agrees_iff_runs]
  intro old hold hfit raw
  exact overwrites _ _ _ _ (hintData_length (valid_of_fits hold hfit).2) (createData_length raw)

/-- In place a pair that is alive and of the right size stays, and in fresh memory the filling is
written. -/
theorem reserve_agrees_iff (key : Key) (val_size : ℕ) (fill : Byte) :
    (Command.reserve key val_size fill).Agrees env db ↔
      (Command.reserve key val_size fill).Fits env db := by
  rw [agrees_iff_runs]
  refine forall_congr' fun old => ⟨fun h hold hok hlen => ?_, fun h hold hfit raw => ?_⟩
  · have hfit : ((Command.reserve key val_size fill).factory env db).bytes ≤ old.bytes := by
      have hkey : old.key = key := lookup_key hold
      unfold IFactoryAction.bytes Pair.bytes
      simp only [Command.factory, hkey, hlen, le_refl]
    have hrun := congrArg Prod.fst (h hold hfit fun _ => 0)
    simpa [Command.factory, noAction, IFactoryAction.hintData, IFactoryAction.createData,
      IFactoryAction.copyPair, hok, hlen] using hrun
  · have hdata : ((Command.reserve key val_size fill).factory env db).hintData env.write old =
        ((Command.reserve key val_size fill).factory env db).createData raw := by
      simp only [Command.factory, IFactoryAction.hintData, IFactoryAction.createData,
        IFactoryAction.copyPair, if_true, Option.map_none, true_and]
      split
      · next hok => exact h hold hok.1 hok.2
      · rfl
    rw [hdata]
    rfl

/-! ## `SSMERGE` -/

section Merge

variable {combine : Key → Key → Key} {key : Key} {sources : List Pair}

theorem accMerge_empty {other : Key} (h : accCount other = 0) (acc : Key) :
    accMerge combine acc other = acc := by
  unfold accMerge
  exact if_pos h

theorem accMerge_first {acc other : Key} (h : accCount other ≠ 0) (hacc : accCount acc = 0) :
    accMerge combine acc other = smartMemcpy acc.length other := by
  unfold accMerge
  exact (if_neg h).trans (if_pos hacc)

theorem accMergeAll_cons {p : Pair} (hp : p.key ≠ key) (seen : Key → Key) (acc : Key) :
    accMergeAll combine key (p :: sources) seen acc =
      accMergeAll combine key sources seen (accMerge combine acc p.val) := by
  have hval : (if p.key = key then seen acc else p.val) = p.val := if_neg hp
  unfold accMergeAll
  rw [List.foldl_cons, hval]

/-- Without the key itself among them the sources are what they were. -/
theorem accMergeAll_alone (h : ∀ p ∈ sources, p.key ≠ key) (seen seen' : Key → Key) (acc : Key) :
    accMergeAll combine key sources seen acc = accMergeAll combine key sources seen' acc := by
  induction sources generalizing acc with
  | nil => simp only [accMergeAll, List.foldl_nil]
  | cons p sources ih =>
    obtain ⟨hp, hrest⟩ := List.forall_mem_cons.mp h
    rw [accMergeAll_cons hp, accMergeAll_cons hp]
    exact ih hrest _

/-- The first source that is not empty overwrites a cleared value. -/
theorem accMergeAll_some (h : ∀ p ∈ sources, p.key ≠ key)
    (hsome : ∃ p ∈ sources, accCount p.val ≠ 0) (seen : Key → Key) {acc acc' : Key}
    (hlen : acc.length = acc'.length) (hacc : accCount acc = 0) (hacc' : accCount acc' = 0) :
    accMergeAll combine key sources seen acc = accMergeAll combine key sources seen acc' := by
  induction sources with
  | nil =>
    obtain ⟨p, hp, -⟩ := hsome
    simp at hp
  | cons p sources ih =>
    obtain ⟨hp, hrest⟩ := List.forall_mem_cons.mp h
    rw [accMergeAll_cons hp, accMergeAll_cons hp]
    by_cases hcount : accCount p.val = 0
    · rw [accMerge_empty hcount, accMerge_empty hcount]
      refine ih hrest ?_
      obtain ⟨q, hq, hne⟩ := hsome
      obtain rfl | hq := List.mem_cons.mp hq
      · exact absurd hcount hne
      · exact ⟨q, hq, hne⟩
    · rw [accMerge_first hcount hacc, accMerge_first hcount hacc', hlen]

/-- Sources that are empty leave a value alone. -/
theorem accMergeAll_none (h : ∀ p ∈ sources, p.key ≠ key)
    (hnone : ∀ p ∈ sources, accCount p.val = 0) (seen : Key → Key) (acc : Key) :
    accMergeAll combine key sources seen acc = acc := by
  induction sources with
  | nil => rfl
  | cons p sources ih =>
    obtain ⟨hp, hrest⟩ := List.forall_mem_cons.mp h
    obtain ⟨hcount, hcounts⟩ := List.forall_mem_cons.mp hnone
    rw [accMergeAll_cons hp, accMerge_empty hcount]
    exact ih hrest hcounts

end Merge

/-- The value of no octets but zeros has no count. -/
theorem loadBE_zeros (n : ℕ) : loadBE n (List.replicate n 0) = 0 := by
  have hzero : ∀ m, beValue (List.replicate m 0) = 0 := fun m => by
    induction m with
    | zero => rfl
    | succ m ih => simp [List.replicate_succ, beValue, ih]
  rw [loadBE, betoh_leValue List.length_replicate, hzero]

theorem accClear_take {acc : Key} (h : 8 ≤ acc.length) :
    (accClear acc).take 8 = List.replicate 8 0 := by
  refine List.ext_getElem ?_ fun i hi hi' => ?_
  · simp [accClear]
    omega
  · have hlt : i < 8 := by simpa using hi'
    rw [List.getElem_replicate]
    simp [accClear, hlt]

theorem accCount_accClear {acc : Key} (h : 8 ≤ acc.length) : accCount (accClear acc) = 0 := by
  rw [accCount, accClear_take h, loadBE_zeros]

/-- What a clear does not touch tells values apart. -/
theorem accClear_ne {acc acc' : Key} {i : ℕ} (hi : 8 ≤ i) (h : acc[i]? ≠ acc'[i]?) :
    accClear acc ≠ accClear acc' := by
  intro heq
  have hget := congrArg (·[i]?) heq
  have hnot : ¬i < 8 := by omega
  simp only [accClear, List.getElem?_mapIdx, hnot, if_false] at hget
  exact h (by simpa using hget)

variable {combine : Key → Key → Key} {sortF : List Pair → List Pair} {key : Key}
  {keys : List Key}

theorem ssmerge_agrees (h : (Command.ssmerge combine sortF key keys).Fits env db) :
    (Command.ssmerge combine sortF key keys).Agrees env db := by
  rw [agrees_iff_runs]
  intro old hold hfit raw
  have hsize := (valid_of_fits hold hfit).2
  obtain ⟨hothers, hsome⟩ := h old hold hsize
  have hlen := @hintData_length _ _ env.write _ hsize
  have hlen' := createData_length (f := (Command.ssmerge combine sortF key keys).factory env db) raw
  have hbig : 8 ≤ ((Command.ssmerge combine sortF key keys).factory env db).val_size := by
    show 8 ≤ sizeofAccData
    decide
  generalize ((Command.ssmerge combine sortF key keys).factory env db).hintData env.write old =
    data at hlen ⊢
  generalize ((Command.ssmerge combine sortF key keys).factory env db).createData raw =
    data' at hlen' ⊢
  have hmerge := @accMergeAll_some combine _ _ hothers hsome (fun _ => old.val)
    (accClear data) (accClear data') (by simp [accClear, hlen, hlen']) (accCount_accClear (by omega)) (accCount_accClear (by omega))
  rw [accMergeAll_alone hothers (fun _ => old.val) id (accClear data)] at hmerge
  exact Prod.ext hmerge rfl

theorem ssmerge_fits (hself : ¬(Command.ssmerge combine sortF key keys).MergesItself env db)
    (h : (Command.ssmerge combine sortF key keys).Agrees env db) :
    (Command.ssmerge combine sortF key keys).Fits env db := by
  rw [agrees_iff_runs] at h
  intro old hold hsize
  have hothers : ∀ p ∈ Command.sources sortF keys env db, p.key ≠ key := fun p hp hkey =>
    hself ⟨p, hp, hkey⟩
  refine ⟨hothers, ?_⟩
  by_contra hnone
  have hnone' : ∀ p ∈ Command.sources sortF keys env db, accCount p.val = 0 := fun p hp => by
    by_contra hcount
    exact hnone ⟨p, hp, hcount⟩
  have hfit : ((Command.ssmerge combine sortF key keys).factory env db).bytes ≤ old.bytes := by
    have hkey : old.key = key := lookup_key hold
    unfold IFactoryAction.bytes Pair.bytes
    simp only [Command.factory, hkey]
    omega
  generalize hdata : ((Command.ssmerge combine sortF key keys).factory env db).hintData
    env.write old = data at h
  -- fresh memory that differs from the pair behind the count
  have hrun := congrArg Prod.fst (h old hold hfit fun i => data.getD i 0 + 1)
  rw [hdata] at hrun
  have hmerge : accMergeAll combine key (Command.sources sortF keys env db) id (accClear data) =
      accMergeAll combine key (Command.sources sortF keys env db) (fun _ => old.val)
        (accClear ((List.range sizeofAccData).map fun i => data.getD i 0 + 1)) := hrun
  rw [accMergeAll_none hothers hnone', accMergeAll_none hothers hnone'] at hmerge
  refine absurd hmerge (accClear_ne le_rfl ?_)
  rw [List.getElem?_map, List.getElem?_range (by decide), Option.map_some, List.getD_eq_getElem?_getD]
  cases data[8]? with
  | none => exact (Option.some_ne_none _).symm
  | some b =>
    rw [Option.getD_some, Ne, Option.some.injEq]
    intro heq
    have hval := congrArg Fin.val heq
    have hone : (1 : Byte).val = 1 := rfl
    have hlt := b.isLt
    rw [Fin.val_add, hone] at hval
    omega

end Agreement

/-- A factory's changes in place are those of a replacement if a pair that it would leave alone is
the filling (`Reserve`), or something else is merged (`SSMERGE`), and always for the other commands;
conversely, unless `SSMERGE` merges its own pair. -/
theorem agrees_iff {ρ : Type} (c : Command ρ) (env : Env) (db : Db) :
    (c.Fits env db → c.Agrees env db) ∧
      (¬c.MergesItself env db → c.Agrees env db → c.Fits env db) := by
  cases c with
  | update entry same_size key val_size fill action alone =>
    exact ⟨fun _ => update_agrees entry same_size key val_size fill action alone,
      fun _ _ => trivial⟩
  | overwrite copy_value same_size key val_size action overwrites =>
    exact ⟨fun _ => overwrite_agrees copy_value same_size key val_size action overwrites,
      fun _ _ => trivial⟩
  | reserve key val_size fill =>
    have hiff := @reserve_agrees_iff env db key val_size fill
    exact ⟨hiff.mpr, fun _ => hiff.mp⟩
  | ssmerge combine sortF key keys => exact ⟨ssmerge_agrees, ssmerge_fits⟩

/-- `CMSRESERVE k 1 1 8` of a counter of zero. -/
theorem agrees_iff_reserve :
    (Command.reserve [107] 1 0).Agrees ⟨0, 0, UInt64.le_refl 0⟩
      [full [107] [0] 0 0 (by decide) (by decide)] := by
  refine (agrees_iff (Command.reserve [107] 1 0) ⟨0, 0, UInt64.le_refl 0⟩ _).1 ?_
  intro old hold _ _
  have hpair : full [107] [0] 0 0 (by decide) (by decide) = old := Option.some.inj hold
  rw [← hpair]
  rfl

/-- An `AccData` of one number. -/
def oneNumber : Key := storeBE 8 1 ++ List.replicate 64 0

/-- `CMSRESERVE k 1 1 8` leaves a counter of one in place and clears it in fresh memory; and
`SSMERGE k k` clears its only source in place. -/
theorem differs :
    ¬(Command.reserve [107] 1 0).Agrees ⟨0, 0, UInt64.le_refl 0⟩
        [full [107] [1] 0 0 (by decide) (by decide)] ∧
      ¬(Command.ssmerge (fun rest _ => rest) id [107] [[107]]).Agrees ⟨0, 0, UInt64.le_refl 0⟩
        [full [107] oneNumber 0 0 (by decide) (by decide)] := by
  constructor
  · intro h
    have hval := (reserve_agrees_iff [107] 1 0).mp h _ rfl (by decide) rfl
    exact absurd hval (by decide)
  · intro h
    have hrun := congrArg (fun r => accCount r.1) ((agrees_iff_runs _).mp h _ rfl (by decide) fun _ => 0)
    exact absurd hrun (by decide +kernel)

end HM4.InPlaceUpdate
