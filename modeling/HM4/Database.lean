import HM4.MemList
import HM4.RedisProtocol

/-!
# What the commands share

A command sees one list of pairs in the order of their keys, in which dead pairs may
stand until something drops them. It reads its parameters as strings, asks the clock
whether a pair is alive, and answers with one reply.
-/

namespace HM4.Database

open Bytes Pairs PairFactory MemList KeyedList RedisProtocol

/-! ## Numbers -/

/-- `from_string` of an unsigned type of so many bits: the digits in front, or the default
value if there are none or too many. -/
def fromString (bits : ℕ) (s : Key) (default : ℕ) : ℕ :=
  if s.takeWhile isDigit = [] then default
  else if numberOf (s.takeWhile isDigit) < 2 ^ bits then numberOf (s.takeWhile isDigit)
  else default

theorem fromString_lt {bits default : ℕ} (s : Key) (h : default < 2 ^ bits) :
    fromString bits s default < 2 ^ bits := by
  unfold fromString
  split
  · exact h
  · split
    · assumption
    · exact h

/-- A number is read back from its numeral. -/
theorem fromString_numeral {bits n : ℕ} (h : n < 2 ^ bits) (default : ℕ) :
    fromString bits (numeral n) default = n := by
  have hall : (numeral n).takeWhile isDigit = numeral n :=
    List.takeWhile_eq_self_iff.mpr (isDigit_numeral n)
  unfold fromString
  rw [hall, if_neg (numeral_ne_nil n), numberOf_numeral, if_pos h]

/-! ## Time -/

/-- `mytime::to32`. -/
def to32 (timestamp : ℕ) : ℕ := timestamp / 2 ^ 32

/-- `mytime::addTime`, which stops at the largest time. -/
def addTime (date expiration : ℕ) : ℕ :=
  if 2 ^ 64 - 1 - date < expiration * 2 ^ 32 then 2 ^ 64 - 1 else date + expiration * 2 ^ 32

/-- `Pair::isExpired_` at a time. -/
def isExpired (now : UInt64) (p : Pair) : Bool :=
  p.expires ≠ 0 ∧ addTime p.created p.expires < now.toNat

/-- `Pair::getExpiresAt`, in seconds of 32 bits. -/
def getExpiresAt (p : Pair) : ℕ :=
  if p.expires = 0 then 0 else (to32 p.created + p.expires) % 2 ^ 32

/-- `Pair::isOK` at a time. -/
def isOK (now : UInt64) (p : Pair) : Bool := !p.isTombstone && !isExpired now p

/-! ## The list -/

/-- The pairs of a list in the order of their keys. -/
abbrev Db := List Pair

/-- `getPairPtr`: the pair of a key, if it is alive. -/
def getPairPtr (now : UInt64) (key : Key) (db : Db) : Option Pair := (get key db).filter (isOK now)

/-- `insertF` of a list that has memory; whether the pair of the key lies where it may be
changed in place is for its allocator to say. -/
def insertF (owned : Bool) (factory : Factory) (now : UInt64) (db : Db) : Db :=
  (plainInsert factory now owned true db).2

/-- `insertHint`: a pair is changed in place if it is as large as the whole new pair. -/
def insertHint (owned : Bool) (pair : Pair) (factory : Factory) (now : UInt64) (db : Db) : Db :=
  if h : factory.valid = true ∧ owned = true ∧ factory.bytes ≤ pair.bytes then
    put Pair.key (factory.createHint h.1 now pair) db
  else insertF owned factory now db

/-- `insertHintVFactory`: a pair is changed in place if its value alone is as large as the
whole new pair. -/
def insertHintVFactory (owned : Bool) (pair : Option Pair) (factory : Factory) (now : UInt64)
    (db : Db) : Db :=
  match pair with
  | some p =>
    if h : factory.valid = true ∧ owned = true ∧ factory.bytes ≤ p.val.length then
      put Pair.key (factory.createHint h.1 now p) db
    else insertF owned factory now db
  | none => insertF owned factory now db

/-- What is written now replaces everything. -/
theorem isValidForReplace_zero (old : Pair) : isValidForReplace 0 old = true := by
  have hmax : (prepareCreateTimeSimulate 0).toNat + 1 = 2 ^ 64 := by decide
  have hlt := old.created_lt
  exact decide_eq_true (by omega)

/-- A factory that tells no time of creation, and leaves of the pair in the list what it would
write in fresh memory, puts its pair. -/
theorem insertF_eq_of_get {factory : Factory} {now : UInt64} (owned : Bool)
    (h : factory.valid = true) (hcreated : factory.getCreated = 0) {db : Db}
    (hhint : ∀ old : Pair, get factory.getKey db = some old →
      factory.createHint h now old = factory.create h now) :
    insertF owned factory now db = put Pair.key (factory.create h now) db := by
  have hreplace : ∀ old : Pair, isValidForReplace factory.getCreated old = true := fun old => by
    rw [hcreated]
    exact isValidForReplace_zero old
  unfold insertF plainInsert
  rw [dif_pos h]
  cases hget : get factory.getKey db with
  | none => rfl
  | some old =>
    dsimp only
    rw [if_neg (not_not.mpr (hreplace old)), if_pos rfl, hhint old hget]
    split <;> rfl

/-- The same with a hint. -/
theorem insertHintVFactory_eq_of_get {factory : Factory} (now : UInt64) (owned : Bool)
    (h : factory.valid = true) (hcreated : factory.getCreated = 0) {db : Db}
    (hhint : ∀ old : Pair, get factory.getKey db = some old →
      factory.createHint h now old = factory.create h now) (pair : Option Pair)
    (hpair : ∀ p ∈ pair, get factory.getKey db = some p) :
    insertHintVFactory owned pair factory now db = put Pair.key (factory.create h now) db := by
  unfold insertHintVFactory
  cases pair with
  | none => exact insertF_eq_of_get owned h hcreated hhint
  | some p =>
    dsimp only
    split
    · rw [hhint p (hpair p rfl)]
    · exact insertF_eq_of_get owned h hcreated hhint

/-- A factory that tells no time of creation, and does in place what it does in fresh
memory, puts its pair. -/
theorem insertF_eq {factory : Factory} {now : UInt64} (owned : Bool) (h : factory.valid = true)
    (hcreated : factory.getCreated = 0)
    (hhint : ∀ old : Pair, old.key = factory.getKey →
      factory.createHint h now old = factory.create h now) (db : Db) :
    insertF owned factory now db = put Pair.key (factory.create h now) db :=
  insertF_eq_of_get owned h hcreated fun old hget => hhint old (lookup_key hget)

/-- The same with a hint. -/
theorem insertHint_eq {factory : Factory} (now : UInt64) (owned : Bool)
    (h : factory.valid = true) (hcreated : factory.getCreated = 0)
    (hhint : ∀ old : Pair, old.key = factory.getKey →
      factory.createHint h now old = factory.create h now) {pair : Pair}
    (hpair : pair.key = factory.getKey) (db : Db) :
    insertHint owned pair factory now db = put Pair.key (factory.create h now) db := by
  unfold insertHint
  split
  · rw [hhint pair hpair]
  · exact insertF_eq owned h hcreated hhint db

@[inherit_doc insertHint_eq]
theorem insertHintVFactory_eq {factory : Factory} (now : UInt64) (owned : Bool)
    (h : factory.valid = true) (hcreated : factory.getCreated = 0)
    (hhint : ∀ old : Pair, old.key = factory.getKey →
      factory.createHint h now old = factory.create h now) (pair : Option Pair)
    (hpair : ∀ p ∈ pair, p.key = factory.getKey) (db : Db) :
    insertHintVFactory owned pair factory now db = put Pair.key (factory.create h now) db := by
  unfold insertHintVFactory
  cases pair with
  | none => exact insertF_eq owned h hcreated hhint db
  | some p =>
    dsimp only
    split
    · rw [hhint p (hpair p rfl)]
    · exact insertF_eq owned h hcreated hhint db

theorem getPairPtr_key {now : UInt64} {key : Key} {db : Db} {p : Pair}
    (h : getPairPtr now key db = some p) : p.key = key :=
  lookup_key (Option.eq_some_of_filter_eq_some h)

/-! ## What a list holds -/

/-- The value of a key whose pair is alive. -/
def holds (now : UInt64) (db : Db) : Key → Option Key := fun key =>
  (getPairPtr now key db).map Pair.val

/-- What a write reads of its surroundings. -/
structure Write where
  /-- The pair of the key lies where it may be changed in place. -/
  owned : Bool
  /-- The list drops pairs that are erased, instead of leaving tombstones. -/
  drops : Bool
  /-- The clock. -/
  now : UInt64

/-- `insert` of a value that does not expire. -/
def insert (w : Write) (key val : Key) (db : Db) : Db :=
  insertF w.owned (normal key val 0 0) w.now db

/-- `erase`: a list over files leaves a tombstone. -/
def erase (w : Write) (key : Key) (db : Db) : Db :=
  if w.drops = true then (plainErase key db).2 else insertF w.owned (tombstone key 0) w.now db

theorem increasing_insertF {db : Db} (hdb : Increasing Pair.key db) (owned : Bool)
    (factory : Factory) (now : UInt64) : Increasing Pair.key (insertF owned factory now db) := by
  unfold insertF plainInsert
  split
  · split
    · exact hdb.put
    · split_ifs
      all_goals first | exact hdb.put | exact hdb
  · exact hdb

theorem increasing_insertHint {db : Db} (hdb : Increasing Pair.key db) (owned : Bool) (pair : Pair)
    (factory : Factory) (now : UInt64) :
    Increasing Pair.key (insertHint owned pair factory now db) := by
  unfold insertHint
  split
  · exact hdb.put
  · exact increasing_insertF hdb owned factory now

/-- A pair that is marked, or without a value, is a tombstone. -/
theorem isTombstone_iff (p : Pair) :
    p.isTombstone = true ↔ p.expires = expiresTombstone ∨ p.val = [] := by
  rw [Pair.isTombstone, Bool.or_eq_true_iff, beq_iff_eq, beq_iff_eq, List.length_eq_zero_iff]

/-- A factory that tells no time of creation puts what it leaves. -/
theorem plainInsert_put {factory : Factory} (h : factory.valid = true)
    (hcreated : factory.getCreated = 0) (now : UInt64) (owned : Bool) (m : List Pair) :
    ∃ p : Pair, p.key = factory.getKey ∧ factory.Leaves h now p ∧
      (plainInsert factory now owned true m).2 = put Pair.key p m := by
  have hreplace : ∀ old : Pair, isValidForReplace factory.getCreated old = true := fun old => by
    rw [hcreated]
    exact isValidForReplace_zero old
  unfold plainInsert
  rw [dif_pos h]
  cases hget : get factory.getKey m with
  | none => exact ⟨factory.create h now, factory.create_key h now, .inl rfl, rfl⟩
  | some old =>
    dsimp only
    rw [if_neg (not_not.mpr (hreplace old)), if_pos rfl]
    split
    · exact ⟨factory.createHint h now old, factory.createHint_key h now old (lookup_key hget),
        .inr ⟨old, lookup_key hget, rfl⟩, rfl⟩
    · exact ⟨factory.create h now, factory.create_key h now, .inl rfl, rfl⟩

/-- What a tombstone factory leaves is a tombstone of the time of the writing. -/
theorem tombstone_spec {key : Key} (h : (tombstone key 0).valid = true) {now : UInt64} {p : Pair}
    (hp : (tombstone key 0).Leaves h now p) : p.isTombstone = true ∧ p.created = now.toNat := by
  have hmark : (0xFFFFFFFF : UInt32).toNat = expiresTombstone := by decide
  rcases hp with rfl | ⟨old, -, rfl⟩
  · exact ⟨(isTombstone_iff _).mpr (.inr rfl), rfl⟩
  · have hexp : ((tombstone key 0).createHint h now old).expires = (0xFFFFFFFF : UInt32).toNat :=
      rfl
    exact ⟨(isTombstone_iff _).mpr (.inl (hexp.trans hmark)), rfl⟩

/-- A tombstone is put in place of the pair. -/
theorem insertF_tombstone {key : Key} (hk : isKeyValid key) (w : Write) (db : Db) :
    ∃ p : Pair, p.key = key ∧ p.isTombstone = true ∧
      insertF w.owned (tombstone key 0) w.now db = put Pair.key p db := by
  have hvalid : (tombstone key 0).valid = true := decide_eq_true hk
  obtain ⟨p, hkey, hp, hput⟩ := plainInsert_put hvalid rfl w.now w.owned db
  exact ⟨p, hkey, (tombstone_spec hvalid hp).1, hput⟩

section Holds

variable {now : UInt64} {key val : Key} {db : Db}

theorem holds_put_self {p : Pair} (hp : p.key = key) (hok : isOK now p = true) :
    holds now (put Pair.key p db) key = some p.val := by
  have hget : get key (put Pair.key p db) = some p := hp ▸ lookup_put_self Pair.key p db
  rw [holds, getPairPtr, hget, Option.filter_some, if_pos hok, Option.map_some]

theorem holds_put_dead {p : Pair} (hp : p.key = key) (hok : isOK now p = false) :
    holds now (put Pair.key p db) key = none := by
  have hget : get key (put Pair.key p db) = some p := hp ▸ lookup_put_self Pair.key p db
  rw [holds, getPairPtr, hget, Option.filter_some, if_neg (Bool.not_eq_true _ ▸ hok),
    Option.map_none]

theorem holds_put_of_ne {p : Pair} {k : Key} (hp : p.key ≠ k) :
    holds now (put Pair.key p db) k = holds now db k := by
  have hget : get k (put Pair.key p db) = get k db := lookup_put_of_ne hp db
  rw [holds, holds, getPairPtr, getPairPtr, hget]

/-- A pair that does not expire is alive if it has a value. -/
theorem isOK_of_forever {p : Pair} (hval : p.val ≠ []) (hexp : p.expires = 0) (now : UInt64) :
    isOK now p = true := by
  have hlen : p.val.length ≠ 0 := fun h => hval (List.eq_nil_of_length_eq_zero h)
  simp [isOK, Pair.isTombstone, isExpired, expiresTombstone, hexp, hlen]

/-- What a factory writes is held, at any time. -/
theorem holds_insertF {factory : Factory} (h : factory.valid = true)
    (hcreated : factory.getCreated = 0)
    (hhint : ∀ (w : UInt64) (old : Pair), old.key = factory.getKey →
      factory.createHint h w old = factory.create h w)
    (hval : ∀ w, (factory.create h w).val = val) (hexp : ∀ w, (factory.create h w).expires = 0)
    (hne : val ≠ []) (owned : Bool) (written now : UInt64) (db : Db) :
    holds now (insertF owned factory written db) =
      Function.update (holds now db) factory.getKey (some val) := by
  have hkey := factory.create_key h written
  rw [insertF_eq owned h hcreated (hhint written)]
  funext k
  by_cases hk : k = factory.getKey
  · rw [hk, Function.update_self, holds_put_self hkey
      (isOK_of_forever ((hval written).symm ▸ hne) (hexp written) now), hval]
  · rw [Function.update_of_ne hk]
    exact holds_put_of_ne fun heq => hk (heq.symm.trans hkey)

/-- A value that is inserted is held, at any time. -/
theorem holds_insert (hk : isKeyValid key) (hv : isValValid val) (hne : val ≠ []) (w : Write)
    (now : UInt64) (db : Db) :
    holds now (insert w key val db) = Function.update (holds now db) key (some val) := by
  have hvalid : (normal key val 0 0).valid = true := decide_eq_true ⟨hk, hv⟩
  exact holds_insertF hvalid rfl (fun written old hold => normal_createHint written hvalid hold)
    (fun _ => rfl) (fun _ => rfl) hne w.owned w.now now db

/-- A key that is erased holds nothing, at any time. -/
theorem holds_erase (hdb : Increasing Pair.key db) (w : Write) (key : Key) (now : UInt64) :
    holds now (erase w key db) = Function.update (holds now db) key none := by
  funext k
  by_cases hdrop : w.drops = true
  · rw [erase, if_pos hdrop]
    unfold plainErase
    cases hget : get key db with
    | none =>
      by_cases hkey : k = key
      · subst hkey
        rw [Function.update_self, holds, getPairPtr, hget, Option.filter_none, Option.map_none]
      · rw [Function.update_of_ne hkey]
    | some old =>
      by_cases hkey : k = key
      · subst hkey
        have hnone : get k (remove Pair.key k db) = none := hdb.lookup_remove_self
        rw [Function.update_self, holds, getPairPtr, hnone, Option.filter_none, Option.map_none]
      · have hget' : get k (remove Pair.key key db) = get k db :=
          lookup_remove_of_ne (fun heq => hkey heq.symm) db
        rw [Function.update_of_ne hkey, holds, holds, getPairPtr, getPairPtr, hget']
  · rw [erase, if_neg hdrop]
    by_cases hk : isKeyValid key
    · obtain ⟨p, hp, hdead, hput⟩ := insertF_tombstone hk w db
      rw [hput]
      by_cases hkey : k = key
      · subst hkey
        rw [Function.update_self]
        exact holds_put_dead hp (by rw [isOK, hdead, Bool.not_true, Bool.false_and])
      · rw [Function.update_of_ne hkey]
        exact holds_put_of_ne fun heq => hkey (heq.symm.trans hp)
    · -- no pair has an invalid key
      have hinvalid : ¬(tombstone key 0).valid = true := fun hv => hk (of_decide_eq_true hv)
      unfold insertF plainInsert
      rw [dif_neg hinvalid]
      by_cases hkey : k = key
      · subst hkey
        rw [Function.update_self, holds, Option.map_eq_none_iff]
        cases hget : getPairPtr now k db with
        | none => rfl
        | some p => exact absurd (getPairPtr_key hget ▸ p.keyValid) hk
      · rw [Function.update_of_ne hkey]

end Holds

theorem increasing_insert {db : Db} (hdb : Increasing Pair.key db) (w : Write) (key val : Key) :
    Increasing Pair.key (insert w key val db) := increasing_insertF hdb w.owned _ w.now

theorem increasing_erase {db : Db} (hdb : Increasing Pair.key db) (w : Write) (key : Key) :
    Increasing Pair.key (erase w key db) := by
  unfold erase
  split
  · unfold plainErase
    split
    · exact hdb
    · exact hdb.remove
  · exact increasing_insertF hdb w.owned _ w.now

/-! ## The pairs after a write -/

/-- A valid pair is put. -/
theorem insert_eq_put {key val : Key} (hk : isKeyValid key) (hv : isValValid val) (w : Write)
    (db : Db) : ∃ p : Pair, p.key = key ∧ p.val = val ∧ p.expires = 0 ∧
      insert w key val db = put Pair.key p db := by
  have hvalid : (normal key val 0 0).valid = true := decide_eq_true ⟨hk, hv⟩
  exact ⟨(normal key val 0 0).create hvalid w.now, rfl, rfl, rfl,
    insertF_eq w.owned hvalid rfl (fun old hold => normal_createHint w.now hvalid hold) db⟩

/-- An insert changes no other pairs. -/
theorem mem_insert_of_ne {key val : Key} (hk : isKeyValid key) (hv : isValValid val) (w : Write)
    {db : Db} {p : Pair} (hp : p.key ≠ key) : p ∈ insert w key val db ↔ p ∈ db := by
  obtain ⟨q, hq, _, _, hput⟩ := insert_eq_put hk hv w db
  rw [hput]
  exact mem_put_of_ne (hq.symm ▸ hp) db

/-- Nor does an erase. -/
theorem mem_erase_of_ne {key : Key} (hk : isKeyValid key) (w : Write) {db : Db} {p : Pair}
    (hp : p.key ≠ key) : p ∈ erase w key db ↔ p ∈ db := by
  unfold erase
  split
  · unfold plainErase
    split
    · exact Iff.rfl
    · exact mem_remove_of_ne hp db
  · obtain ⟨q, hq, _, hput⟩ := insertF_tombstone hk w db
    rw [hput]
    exact mem_put_of_ne (hq.symm ▸ hp) db

/-- What an erase leaves of a pair is a tombstone. -/
theorem isTombstone_of_mem_erase {key : Key} (hk : isKeyValid key) (w : Write) {db : Db}
    (hdb : Increasing Pair.key db) {p : Pair} (hp : p.key = key) (hmem : p ∈ erase w key db) :
    p.isTombstone = true := by
  unfold erase at hmem
  split at hmem
  · unfold plainErase at hmem
    split at hmem
    · next hnone =>
      have hget := hdb.lookup_of_mem hmem
      rw [hp] at hget
      exact absurd (hnone.symm.trans hget).symm (Option.some_ne_none p)
    · have hget := hdb.remove.lookup_of_mem hmem
      rw [hp, hdb.lookup_remove_self] at hget
      exact absurd hget.symm (Option.some_ne_none p)
  · obtain ⟨q, hq, hdead, hput⟩ := insertF_tombstone hk w db
    rw [hput] at hmem
    have hqmem : q ∈ put Pair.key q db := mem_put_self q db
    obtain rfl := (hdb.put (x := q)).eq_of_mem hmem hqmem (hp.trans hq.symm)
    exact hdead

/-- A tombstone is never alive. -/
theorem isOK_of_isTombstone {p : Pair} (h : p.isTombstone = true) (now : UInt64) :
    isOK now p = false := by
  rw [isOK, h, Bool.not_true, Bool.false_and]

/-- Some keys are erased, each with its own surroundings. -/
def eraseKeys (write : Key → Write) (keys : List Key) (db : Db) : Db :=
  keys.foldl (fun db key => erase (write key) key db) db

/-- A value is inserted under some keys. -/
def insertKeys (write : Key → Write) (keys : List Key) (val : Key) (db : Db) : Db :=
  keys.foldl (fun db key => insert (write key) key val db) db

theorem increasing_eraseKeys {db : Db} (hdb : Increasing Pair.key db) (write : Key → Write)
    (keys : List Key) : Increasing Pair.key (eraseKeys write keys db) := by
  induction keys generalizing db with
  | nil => exact hdb
  | cons key keys ih => exact ih (increasing_erase hdb (write key) key)

theorem increasing_insertKeys {db : Db} (hdb : Increasing Pair.key db) (write : Key → Write)
    (keys : List Key) (val : Key) : Increasing Pair.key (insertKeys write keys val db) := by
  induction keys generalizing db with
  | nil => exact hdb
  | cons key keys ih => exact ih (increasing_insert hdb (write key) key val)

theorem holds_eraseKeys {db : Db} (hdb : Increasing Pair.key db) (write : Key → Write)
    (keys : List Key) (now : UInt64) (k : Key) :
    holds now (eraseKeys write keys db) k = if k ∈ keys then none else holds now db k := by
  induction keys generalizing db with
  | nil => exact (if_neg List.not_mem_nil).symm
  | cons key keys ih =>
    have hrest := ih (increasing_erase hdb (write key) key)
    rw [eraseKeys, List.foldl_cons, ← eraseKeys, hrest, holds_erase hdb]
    by_cases hk : k ∈ keys
    · rw [if_pos hk, if_pos (List.mem_cons_of_mem key hk)]
    · by_cases hkey : k = key
      · rw [if_neg hk, hkey, Function.update_self, if_pos List.mem_cons_self]
      · rw [if_neg hk, Function.update_of_ne hkey,
          if_neg fun hc => (List.mem_cons.mp hc).elim hkey hk]

theorem holds_insertKeys {keys : List Key} (hk : ∀ key ∈ keys, isKeyValid key) {val : Key}
    (hv : isValValid val) (hne : val ≠ []) (write : Key → Write) (now : UInt64) (db : Db)
    (k : Key) :
    holds now (insertKeys write keys val db) k =
      if k ∈ keys then some val else holds now db k := by
  induction keys generalizing db with
  | nil => exact (if_neg List.not_mem_nil).symm
  | cons key keys ih =>
    have hrest := ih (fun key' h => hk key' (List.mem_cons_of_mem key h))
      (insert (write key) key val db)
    rw [insertKeys, List.foldl_cons, ← insertKeys, hrest,
      holds_insert (hk key List.mem_cons_self) hv hne]
    by_cases hmem : k ∈ keys
    · rw [if_pos hmem, if_pos (List.mem_cons_of_mem key hmem)]
    · by_cases hkey : k = key
      · rw [if_neg hmem, hkey, Function.update_self, if_pos List.mem_cons_self]
      · rw [if_neg hmem, Function.update_of_ne hkey,
          if_neg fun hc => (List.mem_cons.mp hc).elim hkey hmem]

/-! ## Replies -/

/-- `ResultErrorMessages`, as far as the commands use them. -/
inductive ErrorMessage
  | NEED_EXACT_PARAMS_1
  | NEED_EXACT_PARAMS_2
  | NEED_EXACT_PARAMS_3
  | NEED_EXACT_PARAMS_4
  | NEED_EXACT_PARAMS_5
  | NEED_EXACT_PARAMS_6
  | NEED_EXACT_PARAMS_7
  | NEED_EXACT_PARAMS_12
  | NEED_EXACT_PARAMS_23
  | NEED_EXACT_PARAMS_45
  | NEED_EXACT_PARAMS_67
  | NEED_MORE_PARAMS_2
  | NEED_MORE_PARAMS_4
  | NEED_GROUP_PARAMS_2
  | NEED_GROUP_PARAMS_3
  | NEED_GROUP_PARAMS_4
  | NEED_GROUP_PARAMS_5
  | NEED_GROUP_PARAMS_6
  | EMPTY_KEY
  | EMPTY_VAL
  | EMPTY_PREFIX
  | EMPTY_ENDCOND
  | INTERNAL_ERROR
  | INVALID_PARAMETERS
  | INVALID_KEY_SIZE
  | CONTAINER_CAPACITY
  deriving DecidableEq

/-- The text of a message. -/
def ErrorMessage.text : ErrorMessage → String
  | NEED_EXACT_PARAMS_1 => "The command needs exactly 1 parameter"
  | NEED_EXACT_PARAMS_2 => "The command needs exactly 2 parameters"
  | NEED_EXACT_PARAMS_3 => "The command needs exactly 3 parameters"
  | NEED_EXACT_PARAMS_4 => "The command needs exactly 4 parameters"
  | NEED_EXACT_PARAMS_5 => "The command needs exactly 5 parameters"
  | NEED_EXACT_PARAMS_6 => "The command needs exactly 6 parameters"
  | NEED_EXACT_PARAMS_7 => "The command needs exactly 7 parameters"
  | NEED_EXACT_PARAMS_12 => "The command needs exactly 1 or 2 parameters"
  | NEED_EXACT_PARAMS_23 => "The command needs exactly 2 or 3 parameters"
  | NEED_EXACT_PARAMS_45 => "The command needs exactly 4 or 5 parameters"
  | NEED_EXACT_PARAMS_67 => "The command needs exactly 6 or 7 parameters"
  | NEED_MORE_PARAMS_2 => "The command needs 2 or more parameters"
  | NEED_MORE_PARAMS_4 => "The command needs 4 or more parameters"
  | NEED_GROUP_PARAMS_2 => "The command needs 2 or more parameters in groups"
  | NEED_GROUP_PARAMS_3 => "The command needs 3 or more parameters in groups"
  | NEED_GROUP_PARAMS_4 => "The command needs 4 or more parameters in groups"
  | NEED_GROUP_PARAMS_5 => "The command needs 5 or more parameters in groups"
  | NEED_GROUP_PARAMS_6 => "The command needs 6 or more parameters in groups"
  | EMPTY_KEY => "The key can not be empty"
  | EMPTY_VAL => "The value can not be empty"
  | EMPTY_PREFIX => "The prefix can not be empty"
  | EMPTY_ENDCOND => "The end condition can not be empty"
  | INTERNAL_ERROR => "Internal error"
  | INVALID_PARAMETERS => "Invalid parameters"
  | INVALID_KEY_SIZE => "Invalid key size"
  | CONTAINER_CAPACITY => "Container capacity error"

/-- What a command sets as its `Result`. -/
inductive Reply
  | error (message : ErrorMessage)
  | ok
  | bool (b : Bool)
  | number (n : ℕ)
  | string (s : Key)
  | container (list : List Key)
  deriving DecidableEq

end HM4.Database
