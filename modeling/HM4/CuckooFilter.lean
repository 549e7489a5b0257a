import HM4.Pairs
import Mathlib.Data.List.Nodup
import Mathlib.Data.List.Perm.Subperm
import Mathlib.Data.Nat.ModEq
import Mathlib.Data.Nat.Bitwise
import Mathlib.Data.Nat.Factorization.Basic

/-!
# The cuckoo filter

A key leaves a fingerprint in one of two buckets. The second is computed from the first and the
fingerprint alone, so that a fingerprint can be kicked out of its bucket and put into the other one.
This needs that the way leads back, which it does where the number of buckets is a power of two.
-/

namespace HM4.CuckooFilter

open Bytes Pairs

/-! ## The table -/

/-- The parameters of a filter. -/
structure Filter where
  /-- The bits of a fingerprint. -/
  bits : ℕ
  /-- The fingerprints of a bucket. -/
  Slots : ℕ
  /-- The number of buckets. -/
  size : ℕ
  murmur_hash64a : Key → UInt64

/-- Buckets of fingerprints, where zero is a free slot. -/
abbrev Table := List (List ℕ)

variable (F : Filter)

/-- `bytes`, as `size_t`. -/
def Filter.bytes : ℕ := F.bits / 8 * F.Slots * F.size % 2 ^ 64

/-- `MAX_SIZE`. -/
def MAX_SIZE : ℕ := maxValSize

/-- What the commands accept. -/
structure Filter.Admitted : Prop where
  size_ne_zero : F.size ≠ 0
  size_lt : F.size < 2 ^ 64
  bits : F.bits = 8 ∨ F.bits = 16 ∨ F.bits = 32
  Slots : F.Slots = 1 ∨ F.Slots = 2 ∨ F.Slots = 4 ∨ F.Slots = 8
  bytes : F.bytes ≤ MAX_SIZE

/-- `clear`: the buckets that the value holds. -/
def Filter.clear : Table :=
  List.replicate (F.bytes / (F.bits / 8 * F.Slots)) (List.replicate F.Slots 0)

/-- `hash`. -/
def Filter.hash (s : Key) : ℕ := (F.murmur_hash64a s).toNat

/-- `hashAltIndex`. -/
def Filter.hashAltIndex (index fp : ℕ) : ℕ :=
  (index ^^^ (F.murmur_hash64a (leBytes (F.bits / 8) fp)).toNat) % F.size

/-- `createFP__`. -/
def Filter.createFP (hash : ℕ) : ℕ :=
  let fp := hash % 2 ^ F.bits
  if fp ≠ 0 then fp else fp ||| 1

/-- `tryInsert__`: the bucket with a fingerprint, if there is room. -/
def tryInsert (initial : Bool) (fp : ℕ) : List ℕ → Option (List ℕ)
  | [] => none
  | x :: bucket =>
    if initial = true ∧ x = fp then some (x :: bucket)
    else if x = 0 then some (fp :: bucket)
    else (tryInsert initial fp bucket).map (x :: ·)

/-- `tryFind__`. -/
def tryFind (fp : ℕ) (bucket : List ℕ) : Bool := bucket.contains fp

/-- What a kick changed. -/
structure RollBack where
  index : ℕ
  fp : ℕ
  slot : ℕ

/-- The last changes are taken back first. -/
def rollBack : List RollBack → Table → Table
  | [], table => table
  | it :: rollback, table =>
    rollBack rollback (table.modify it.index fun bucket => bucket.set it.slot it.fp)

/-- `MaxKicks`. -/
def MaxKicks : ℕ := 256

/-- The loop of `insert` that kicks fingerprints, with so many kicks left. Which slot is taken is
computed from the fingerprint and the number of the kick. -/
def Filter.kicks (rand : ℕ → ℕ → Fin F.Slots) :
    ℕ → (i fp index : ℕ) → List RollBack → Table → Option (Bool × Table)
  | 0, _, _, _, rollback, table => some (false, rollBack rollback table)
  | n + 1, i, fp, index, rollback, table => do
    let bucket ← table[index]?
    let slot := rand fp i
    let victim ← bucket[slot.val]?
    let table := table.set index (bucket.set slot fp)
    let index' := F.hashAltIndex index victim
    let bucket' ← table[index']?
    match tryInsert false victim bucket' with
    | some bucket' => some (true, table.set index' bucket')
    | none => Filter.kicks rand n (i + 1) victim index' (⟨index, victim, slot⟩ :: rollback) table

/-- `insert`; nothing if it leaves the table. -/
def Filter.insert (rand : ℕ → ℕ → Fin F.Slots) (table : Table) (s : Key) :
    Option (Bool × Table) := do
  let hash := F.hash s
  let fpo := F.createFP hash
  let index1 := hash % F.size
  let bucket1 ← table[index1]?
  match tryInsert true fpo bucket1 with
  | some bucket1 => some (true, table.set index1 bucket1)
  | none =>
    let index2 := F.hashAltIndex index1 fpo
    let bucket2 ← table[index2]?
    match tryInsert true fpo bucket2 with
    | some bucket2 => some (true, table.set index2 bucket2)
    | none => F.kicks rand MaxKicks 0 fpo index1 [] table

/-- `lookup`. -/
def Filter.lookup (table : Table) (s : Key) : Option Bool := do
  let hash := F.hash s
  let fp := F.createFP hash
  let index1 := hash % F.size
  if tryFind fp (← table[index1]?) = true then some true
  else
    let index2 := F.hashAltIndex index1 fp
    some (tryFind fp (← table[index2]?))

/-! ## Runs -/

/-- Inserts one after another: the table, and the keys that were inserted. -/
def Filter.run : List (Key × (ℕ → ℕ → Fin F.Slots)) → Table → Option (Table × List Key)
  | [], table => some (table, [])
  | (s, rand) :: inserts, table => do
    let (done, table) ← F.insert rand table s
    let (table, keys) ← Filter.run inserts table
    some (table, if done = true then s :: keys else keys)

/-- The parameters with another hash function. -/
def Filter.withHash (murmur : Key → UInt64) : Filter := { F with murmur_hash64a := murmur }

/-- Every key that was inserted is reported, for every hash function, whatever is kicked. -/
def Filter.NoFalseNegatives : Prop :=
  ∀ (murmur : Key → UInt64) (inserts : List (Key × (ℕ → ℕ → Fin F.Slots))),
    ∃ table keys, (F.withHash murmur).run inserts F.clear = some (table, keys) ∧
      ∀ s ∈ keys, (F.withHash murmur).lookup table s = some true

variable {F}

/-! ## A bucket -/

section Bucket

variable {initial : Bool} {fp : ℕ} {bucket bucket' : List ℕ}

/-- What an insert into a bucket leaves. -/
theorem tryInsert_some (h : tryInsert initial fp bucket = some bucket') :
    bucket'.length = bucket.length ∧ fp ∈ bucket' ∧ ∀ x ∈ bucket, x ≠ 0 → x ∈ bucket' := by
  induction bucket generalizing bucket' with
  | nil => exact absurd h.symm (Option.some_ne_none _)
  | cons x bucket ih =>
    rw [tryInsert] at h
    split at h
    · next hx =>
      obtain rfl := Option.some.inj h
      exact ⟨rfl, hx.2 ▸ List.mem_cons_self, fun _ hy _ => hy⟩
    · split at h
      · next hx =>
        obtain rfl := Option.some.inj h
        refine ⟨rfl, List.mem_cons_self, List.forall_mem_cons.mpr ⟨fun hne => absurd hx hne, ?_⟩⟩
        exact fun _ hy _ => List.mem_cons_of_mem fp hy
      · obtain ⟨rest, hrest, rfl⟩ := Option.map_eq_some_iff.mp h
        obtain ⟨hlen, hfp, hkeep⟩ := ih hrest
        exact ⟨congrArg (· + 1) hlen, List.mem_cons_of_mem x hfp, List.forall_mem_cons.mpr
          ⟨fun _ => List.mem_cons_self, fun y hy hne => List.mem_cons_of_mem x (hkeep y hy hne)⟩⟩

/-- A fingerprint that is there is not put again. -/
theorem tryInsert_of_mem {ys : List ℕ} (hys : ∀ y ∈ ys, y ≠ 0) (hin : fp ∈ ys) (rest : List ℕ) :
    tryInsert true fp (ys ++ rest) = some (ys ++ rest) := by
  induction ys with
  | nil => exact absurd hin List.not_mem_nil
  | cons y ys ih =>
    obtain ⟨hy, hys'⟩ := List.forall_mem_cons.mp hys
    rw [List.cons_append, tryInsert]
    by_cases hfp : y = fp
    · rw [if_pos ⟨rfl, hfp⟩]
    · have hin' : fp ∈ ys := (List.mem_cons.mp hin).resolve_left (Ne.symm hfp)
      rw [if_neg fun h => hfp h.2, if_neg hy, ih hys' hin']
      rfl

/-- A new fingerprint takes the first free slot. -/
theorem tryInsert_free {ys : List ℕ} (hys : ∀ y ∈ ys, y ≠ 0) (hnew : initial = true → fp ∉ ys)
    (hfp : fp ≠ 0) (rest : List ℕ) :
    tryInsert initial fp (ys ++ 0 :: rest) = some (ys ++ fp :: rest) := by
  induction ys with
  | nil =>
    rw [List.nil_append, tryInsert, if_neg fun h => hfp h.2.symm, if_pos rfl]
    rfl
  | cons y ys ih =>
    obtain ⟨hy, hys'⟩ := List.forall_mem_cons.mp hys
    have hnew' : initial = true → fp ∉ ys := fun h hin => hnew h (List.mem_cons_of_mem y hin)
    have hne : ¬(initial = true ∧ y = fp) := fun h => hnew h.1 (h.2 ▸ List.mem_cons_self)
    rw [List.cons_append, tryInsert, if_neg hne, if_neg hy, ih hys' hnew']
    rfl

/-- An empty bucket takes every fingerprint. -/
theorem tryInsert_empty (hfp : fp ≠ 0) (n : ℕ) :
    tryInsert initial fp (List.replicate (n + 1) 0) = some (fp :: List.replicate n 0) :=
  tryInsert_free (List.forall_mem_nil _) (fun _ => List.not_mem_nil) hfp (List.replicate n 0)

/-- A bucket without a free slot takes no new fingerprint. -/
theorem tryInsert_full {ys : List ℕ} (hys : ∀ y ∈ ys, y ≠ 0) (hnew : initial = true → fp ∉ ys) :
    tryInsert initial fp ys = none := by
  induction ys with
  | nil => rfl
  | cons y ys ih =>
    obtain ⟨hy, hys'⟩ := List.forall_mem_cons.mp hys
    have hnew' : initial = true → fp ∉ ys := fun h hin => hnew h (List.mem_cons_of_mem y hin)
    have hne : ¬(initial = true ∧ y = fp) := fun h => hnew h.1 (h.2 ▸ List.mem_cons_self)
    rw [tryInsert, if_neg hne, if_neg hy, ih hys' hnew']
    rfl

end Bucket

/-! ## What the table holds -/

theorem createFP_ne_zero (hash : ℕ) : F.createFP hash ≠ 0 := by
  unfold Filter.createFP
  dsimp only
  split
  · assumption
  · next h =>
    rw [not_not.mp h]
    decide

/-- The fingerprint of a key. -/
def Filter.fp (F : Filter) (s : Key) : ℕ := F.createFP (F.hash s)

/-- One of the two buckets of a key. -/
def Filter.Bucket (F : Filter) (s : Key) (i : ℕ) : Prop :=
  i = F.hash s % F.size ∨ i = F.hashAltIndex (F.hash s % F.size) (F.fp s)

/-- From its second bucket the fingerprint of a key goes to one of its buckets again. -/
def Filter.LeadsBack (F : Filter) (s : Key) : Prop :=
  F.Bucket s (F.hashAltIndex (F.hashAltIndex (F.hash s % F.size) (F.fp s)) (F.fp s))

/-- The fingerprint of a key is in one of its buckets. -/
def Filter.Holds (F : Filter) (table : Table) (s : Key) : Prop :=
  ∃ i bucket, F.Bucket s i ∧ table[i]? = some bucket ∧ F.fp s ∈ bucket

/-- All buckets are there. -/
structure Filter.Formed (F : Filter) (table : Table) : Prop where
  size : table.length = F.size
  slots : ∀ bucket ∈ table, bucket.length = F.Slots

section Table

variable {table : Table} {s : Key}

theorem Filter.Formed.getElem? (h : F.Formed table) {i : ℕ} (hi : i < F.size) :
    ∃ bucket, table[i]? = some bucket ∧ bucket.length = F.Slots := by
  have hlt : i < table.length := h.size.symm ▸ hi
  exact ⟨table[i], List.getElem?_eq_getElem hlt, h.slots _ (List.getElem_mem hlt)⟩

theorem Filter.Formed.set (h : F.Formed table) {bucket : List ℕ} (hlen : bucket.length = F.Slots)
    (i : ℕ) : F.Formed (table.set i bucket) where
  size := (List.length_set ..).trans h.size
  slots := fun b hb => (List.mem_or_eq_of_mem_set hb).elim (h.slots b) fun heq => heq ▸ hlen

/-- What is held is reported. -/
theorem lookup_of_holds (h : F.Formed table) (hsize : F.size ≠ 0) (hs : F.Holds table s) :
    F.lookup table s = some true := by
  have hpos := Nat.pos_of_ne_zero hsize
  obtain ⟨b1, hb1, -⟩ := h.getElem? (Nat.mod_lt (F.hash s) hpos)
  obtain ⟨b2, hb2, -⟩ := h.getElem? (i := F.hashAltIndex (F.hash s % F.size) (F.fp s))
    (Nat.mod_lt _ hpos)
  obtain ⟨i, b, hi, hb, hfp⟩ := hs
  have hfind : tryFind (F.fp s) b = true := List.contains_iff_mem.mpr hfp
  have hfpeq : F.createFP (F.hash s) = F.fp s := rfl
  unfold Filter.lookup
  simp only [hfpeq, hb1, hb2, Option.bind_eq_bind, Option.bind_some]
  split
  · rfl
  · next hnot =>
    rcases hi with rfl | rfl
    · obtain rfl := Option.some.inj (hb1.symm.trans hb)
      exact absurd hfind hnot
    · obtain rfl := Option.some.inj (hb2.symm.trans hb)
      rw [hfind]

/-- A bucket that gets a fingerprint holds its keys, and the others as before. -/
theorem Filter.Holds.set {i : ℕ} {b b' : List ℕ} (hb : table[i]? = some b)
    (hkeep : ∀ x ∈ b, x ≠ 0 → x ∈ b') (hs : F.Holds table s) : F.Holds (table.set i b') s := by
  obtain ⟨j, bj, hj, hbj, hfp⟩ := hs
  by_cases hij : i = j
  · subst hij
    obtain rfl := Option.some.inj (hb.symm.trans hbj)
    obtain ⟨hlt, -⟩ := List.getElem?_eq_some_iff.mp hb
    exact ⟨i, b', hj, List.getElem?_set_self hlt, hkeep _ hfp (createFP_ne_zero _)⟩
  · exact ⟨j, bj, hj, (List.getElem?_set_ne hij).trans hbj, hfp⟩

theorem Filter.holds_set {i : ℕ} {b b' : List ℕ} (hb : table[i]? = some b) (hi : F.Bucket s i)
    (hfp : F.fp s ∈ b') : F.Holds (table.set i b') s := by
  obtain ⟨hlt, -⟩ := List.getElem?_eq_some_iff.mp hb
  exact ⟨i, b', hi, List.getElem?_set_self hlt, hfp⟩

end Table

/-! ## The way back -/

/-- With a power of two buckets the other bucket of the other bucket is the first. -/
theorem hashAltIndex_hashAltIndex {k : ℕ} (hsize : F.size = 2 ^ k) {index : ℕ}
    (hi : index < F.size) (fp : ℕ) :
    F.hashAltIndex (F.hashAltIndex index fp) fp = index := by
  unfold Filter.hashAltIndex
  rw [hsize] at hi ⊢
  refine Nat.eq_of_testBit_eq fun j => ?_
  simp only [Nat.testBit_mod_two_pow, Nat.testBit_xor]
  by_cases hj : j < k
  · rw [decide_eq_true hj]
    simp only [Bool.true_and, Bool.xor_assoc, Bool.xor_self, Bool.xor_false]
  · have hout : index.testBit j = false :=
      Nat.testBit_lt_two_pow (hi.trans_le (Nat.pow_le_pow_right Nat.two_pos (Nat.not_lt.mp hj)))
    rw [decide_eq_false hj, hout]
    rfl

/-- With a power of two buckets every key leads back. -/
theorem leadsBack {k : ℕ} (hsize : F.size = 2 ^ k) (s : Key) : F.LeadsBack s := by
  refine .inl (hashAltIndex_hashAltIndex hsize (Nat.mod_lt _ ?_) _)
  rw [hsize]
  exact Nat.two_pow_pos k

/-- The other bucket of a bucket of a key that leads back. -/
theorem Filter.Bucket.alt {s : Key} (hback : F.LeadsBack s) {i : ℕ} (h : F.Bucket s i) :
    F.Bucket s (F.hashAltIndex i (F.fp s)) := by
  rcases h with rfl | rfl
  · exact .inr rfl
  · exact hback

/-- A kick is taken back. -/
theorem modify_set {table : Table} {index slot fp victim : ℕ} {bucket : List ℕ}
    (hbucket : table[index]? = some bucket) (hvictim : bucket[slot]? = some victim) :
    (table.set index (bucket.set slot fp)).modify index (fun b => b.set slot victim) = table := by
  obtain ⟨hlt, -⟩ := List.getElem?_eq_some_iff.mp hbucket
  obtain ⟨hslot, rfl⟩ := List.getElem?_eq_some_iff.mp hvictim
  refine List.ext_getElem? fun j => ?_
  by_cases hj : index = j
  · subst hj
    rw [List.getElem?_modify_eq, List.getElem?_set_self hlt, hbucket]
    change some ((bucket.set slot fp).set slot bucket[slot]) = some bucket
    rw [List.set_set, List.set_getElem_self]
  · rw [List.getElem?_modify_ne _ _ hj, List.getElem?_set_ne hj]

/-- Kicks that fail leave the table as it was. -/
theorem kicks_false {rand : ℕ → ℕ → Fin F.Slots} {n i fp index : ℕ} {rollback : List RollBack}
    {table table' : Table} (h : F.kicks rand n i fp index rollback table = some (false, table')) :
    table' = rollBack rollback table := by
  induction n generalizing i fp index rollback table with
  | zero => exact (Prod.mk.inj (Option.some.inj h)).2.symm
  | succ n ih =>
    unfold Filter.kicks at h
    obtain ⟨bucket, hbucket, h⟩ := Option.bind_eq_some_iff.mp h
    obtain ⟨victim, hvictim, h⟩ := Option.bind_eq_some_iff.mp h
    obtain ⟨bucket', -, h⟩ := Option.bind_eq_some_iff.mp h
    split at h
    · exact absurd (Prod.mk.inj (Option.some.inj h)).1 (by decide)
    · rw [ih h, rollBack]
      exact congrArg _ (modify_set hbucket hvictim)

/-- What is kept while fingerprints are kicked. -/
theorem kicks_spec {keys : List Key} (hback : ∀ s ∈ keys, F.LeadsBack s)
    {rand : ℕ → ℕ → Fin F.Slots} {n i fp index : ℕ} {rollback : List RollBack} {table : Table}
    (hformed : F.Formed table) (hindex : index < F.size)
    (hkeys : ∀ s ∈ keys, F.Holds table s ∨ F.fp s = fp ∧ F.Bucket s index) :
    ∃ done table', F.kicks rand n i fp index rollback table = some (done, table') ∧
      (done = true → F.Formed table' ∧ ∀ s ∈ keys, F.Holds table' s) := by
  have hpos : 0 < F.size := (Nat.zero_le index).trans_lt hindex
  induction n generalizing i fp index rollback table with
  | zero => exact ⟨false, _, rfl, fun h => Bool.noConfusion h⟩
  | succ n ih =>
    obtain ⟨bucket, hbucket, hlen⟩ := hformed.getElem? hindex
    have hslot : (rand fp i).val < bucket.length := hlen.symm ▸ (rand fp i).isLt
    have hformed1 : F.Formed (table.set index (bucket.set (rand fp i) fp)) :=
      hformed.set ((List.length_set ..).trans hlen) index
    have halt : F.hashAltIndex index bucket[(rand fp i).val] < F.size := Nat.mod_lt _ hpos
    obtain ⟨bucket', hbucket', hlen'⟩ := hformed1.getElem? halt
    have hkeys1 : ∀ s ∈ keys, F.Holds (table.set index (bucket.set (rand fp i) fp)) s ∨
        F.fp s = bucket[(rand fp i).val] ∧
          F.Bucket s (F.hashAltIndex index bucket[(rand fp i).val]) := by
      intro s hs
      rcases hkeys s hs with ⟨j, b, hj, hb, hfp⟩ | ⟨hfp, hwhere⟩
      · by_cases hij : index = j
        · subst hij
          obtain rfl := Option.some.inj (hbucket.symm.trans hb)
          by_cases hvictim : F.fp s = bucket[(rand fp i).val]
          · exact .inr ⟨hvictim, hvictim ▸ hj.alt (hback s hs)⟩
          · refine .inl (Filter.holds_set hbucket hj ?_)
            obtain ⟨l, hl, heq⟩ := List.mem_iff_getElem.mp hfp
            refine List.mem_iff_getElem.mpr ⟨l, (List.length_set ..).symm ▸ hl, ?_⟩
            rw [List.getElem_set_ne fun h => hvictim (by subst h; exact heq.symm), heq]
        · exact .inl ⟨j, b, hj, (List.getElem?_set_ne hij).trans hb, hfp⟩
      · exact .inl (Filter.holds_set hbucket hwhere (hfp ▸ List.mem_set hslot fp))
    unfold Filter.kicks
    simp only [hbucket, List.getElem?_eq_getElem hslot, hbucket', Option.bind_eq_bind,
      Option.bind_some]
    split
    · next b hb =>
      obtain ⟨hblen, hbfp, hbkeep⟩ := tryInsert_some hb
      refine ⟨true, _, rfl, fun _ => ⟨hformed1.set (hblen.trans hlen') _, fun s hs => ?_⟩⟩
      rcases hkeys1 s hs with hholds | ⟨hfp, hwhere⟩
      · exact hholds.set hbucket' hbkeep
      · exact Filter.holds_set hbucket' hwhere (hfp ▸ hbfp)
    · exact ih hformed1 halt hkeys1

/-- Both buckets of a key are full, and its fingerprint is in none of them. -/
def Filter.Kicks (F : Filter) (table : Table) (s : Key) : Prop :=
  ∀ i bucket, F.Bucket s i → table[i]? = some bucket → tryInsert true (F.fp s) bucket = none

/-- An insert keeps all keys, and the new one if it succeeds, if its kicks lead back. -/
theorem insert_spec {keys : List Key} (rand : ℕ → ℕ → Fin F.Slots) {table : Table}
    (hformed : F.Formed table) (hpos : 0 < F.size) (hkeys : ∀ s ∈ keys, F.Holds table s) {s : Key}
    (hback : F.Kicks table s → ∀ x ∈ s :: keys, F.LeadsBack x) :
    ∃ done table', F.insert rand table s = some (done, table') ∧ F.Formed table' ∧
      (∀ s ∈ keys, F.Holds table' s) ∧ (done = true → F.Holds table' s) := by
  have hindex : F.hash s % F.size < F.size := Nat.mod_lt _ hpos
  obtain ⟨b1, hb1, hlen1⟩ := hformed.getElem? hindex
  obtain ⟨b2, hb2, hlen2⟩ := hformed.getElem? (i := F.hashAltIndex (F.hash s % F.size) (F.fp s))
    (Nat.mod_lt _ hpos)
  have hput : ∀ {i : ℕ} {b b' : List ℕ}, F.Bucket s i → table[i]? = some b → b.length = F.Slots →
      tryInsert true (F.fp s) b = some b' → F.Formed (table.set i b') ∧
        (∀ x ∈ keys, F.Holds (table.set i b') x) ∧ F.Holds (table.set i b') s := by
    intro i b b' hi hb hlen hinsert
    obtain ⟨hlen', hfp, hkeep⟩ := tryInsert_some hinsert
    exact ⟨hformed.set (hlen'.trans hlen) i, fun x hx => (hkeys x hx).set hb hkeep,
      Filter.holds_set hb hi hfp⟩
  have hfpeq : F.createFP (F.hash s) = F.fp s := rfl
  unfold Filter.insert
  simp only [hfpeq, hb1, hb2, Option.bind_eq_bind, Option.bind_some]
  cases h1 : tryInsert true (F.fp s) b1 with
  | some b =>
    obtain ⟨hformed', hkeys', hs⟩ := hput (.inl rfl) hb1 hlen1 h1
    exact ⟨true, _, rfl, hformed', hkeys', fun _ => hs⟩
  | none =>
    cases h2 : tryInsert true (F.fp s) b2 with
    | some b =>
      obtain ⟨hformed', hkeys', hs⟩ := hput (.inr rfl) hb2 hlen2 h2
      exact ⟨true, _, rfl, hformed', hkeys', fun _ => hs⟩
    | none =>
      have hfull : F.Kicks table s := by
        rintro i b (rfl | rfl) hb
        · rwa [Option.some.inj (hb.symm.trans hb1)]
        · rwa [Option.some.inj (hb.symm.trans hb2)]
      obtain ⟨done, table', hkicks, hdone⟩ := @kicks_spec F (s :: keys) (hback hfull) rand MaxKicks
        0 (F.fp s) (F.hash s % F.size) [] table hformed hindex
        (List.forall_mem_cons.mpr ⟨.inr ⟨rfl, .inl rfl⟩, fun x hx => .inl (hkeys x hx)⟩)
      refine ⟨done, table', hkicks, ?_⟩
      cases done with
      | true =>
        obtain ⟨hformed', hall⟩ := hdone rfl
        obtain ⟨hs, hkeys'⟩ := List.forall_mem_cons.mp hall
        exact ⟨hformed', hkeys', fun _ => hs⟩
      | false =>
        obtain rfl := kicks_false hkicks
        exact ⟨hformed, hkeys, fun h => Bool.noConfusion h⟩

/-- With a power of two buckets every key that was inserted is held. -/
theorem run_spec {k : ℕ} (hsize : F.size = 2 ^ k)
    (inserts : List (Key × (ℕ → ℕ → Fin F.Slots))) {held : List Key} {table : Table}
    (hformed : F.Formed table) (hheld : ∀ s ∈ held, F.Holds table s) :
    ∃ table' keys, F.run inserts table = some (table', keys) ∧ F.Formed table' ∧
      ∀ s ∈ held ++ keys, F.Holds table' s := by
  induction inserts generalizing held table with
  | nil => exact ⟨table, [], rfl, hformed, by rwa [List.append_nil]⟩
  | cons x inserts ih =>
    obtain ⟨s, rand⟩ := x
    obtain ⟨done, table1, hinsert, hformed1, hheld1, hs⟩ :=
      insert_spec rand hformed (hsize ▸ Nat.two_pow_pos k) hheld fun _ x _ => leadsBack hsize x
    have hheld2 : ∀ x ∈ if done = true then held ++ [s] else held, F.Holds table1 x := by
      cases done with
      | true => exact List.forall_mem_append.mpr ⟨hheld1, List.forall_mem_singleton.mpr (hs rfl)⟩
      | false => exact hheld1
    obtain ⟨table', keys, hrun, hformed', hall⟩ := ih hformed1 hheld2
    refine ⟨table', if done = true then s :: keys else keys, ?_, hformed', fun x hx => hall x ?_⟩
    · rw [Filter.run, hinsert, Option.bind_eq_bind, Option.bind_some]
      dsimp only
      rw [hrun]
      rfl
    · cases done with
      | true => simpa using hx
      | false => exact hx

/-! ## Where nothing is kicked -/

/-- The fingerprints of the keys whose first bucket is at some place. -/
def Filter.Own (F : Filter) (j y : ℕ) : Prop := ∃ h, h % F.size = j ∧ F.createFP h = y

/-- The low bits of a hash make the fingerprint. -/
theorem createFP_mod (h : ℕ) : F.createFP (h % 2 ^ F.bits) = F.createFP h := by
  unfold Filter.createFP
  rw [Nat.mod_mod]

/-- A bucket has slots for all fingerprints of its own, if the number of buckets has enough in
common with the number of fingerprints. -/
theorem length_le_of_own (hroom : 2 ^ F.bits ≤ F.Slots * F.size.gcd (2 ^ F.bits)) {j : ℕ}
    {ys : List ℕ} (hnodup : ys.Nodup) (hown : ∀ y ∈ ys, F.Own j y) : ys.length ≤ F.Slots := by
  set g := F.size.gcd (2 ^ F.bits) with hg
  have hgpos : 0 < g := Nat.gcd_pos_of_pos_right _ (Nat.two_pow_pos _)
  have hdvd : g ∣ 2 ^ F.bits := Nat.gcd_dvd_right _ _
  have hn : 2 ^ F.bits / g ≤ F.Slots := Nat.div_le_of_le_mul (Nat.mul_comm g _ ▸ hroom)
  have hsub : ys ⊆ (List.range (2 ^ F.bits / g)).map fun t => F.createFP (j % g + g * t) := by
    intro y hy
    obtain ⟨h, rfl, rfl⟩ := hown y hy
    have hrest : h % F.size % g = h % 2 ^ F.bits % g := by
      rw [Nat.mod_mod_of_dvd h (Nat.gcd_dvd_left F.size _), Nat.mod_mod_of_dvd h hdvd]
    refine List.mem_map.mpr ⟨h % 2 ^ F.bits / g, List.mem_range.mpr ?_, ?_⟩
    · exact Nat.div_lt_div_of_lt_of_dvd hdvd (Nat.mod_lt _ (Nat.two_pow_pos _))
    · rw [hrest, Nat.mod_add_div, createFP_mod]
  have hle := (List.subperm_of_subset hnodup hsub).length_le
  rw [List.length_map, List.length_range] at hle
  exact hle.trans hn

/-- A bucket of different fingerprints of its own, with its free slots behind. -/
def Filter.Quiet (F : Filter) (j : ℕ) (bucket : List ℕ) : Prop :=
  ∃ ys m, bucket = ys ++ List.replicate m 0 ∧ ys.Nodup ∧ ∀ y ∈ ys, y ≠ 0 ∧ F.Own j y

/-- An own fingerprint finds room. -/
theorem Filter.Quiet.tryInsert (hroom : 2 ^ F.bits ≤ F.Slots * F.size.gcd (2 ^ F.bits)) {j : ℕ}
    {bucket : List ℕ} (h : F.Quiet j bucket) (hlen : bucket.length = F.Slots) {fp : ℕ}
    (hfp : fp ≠ 0) (hown : F.Own j fp) :
    ∃ bucket', CuckooFilter.tryInsert true fp bucket = some bucket' ∧ F.Quiet j bucket' := by
  obtain ⟨ys, m, rfl, hnodup, hys⟩ := h
  have hne : ∀ y ∈ ys, y ≠ 0 := fun y hy => (hys y hy).1
  by_cases hin : fp ∈ ys
  · exact ⟨_, tryInsert_of_mem hne hin _, ys, m, rfl, hnodup, hys⟩
  · have hnodup' : (fp :: ys).Nodup := List.nodup_cons.mpr ⟨hin, hnodup⟩
    have hle := length_le_of_own hroom hnodup'
      (List.forall_mem_cons.mpr ⟨hown, fun y hy => (hys y hy).2⟩)
    cases m with
    | zero =>
      rw [List.replicate_zero, List.append_nil] at hlen
      rw [List.length_cons, hlen] at hle
      exact absurd hle (Nat.not_succ_le_self _)
    | succ m =>
      refine ⟨_, tryInsert_free hne (fun _ => hin) hfp (List.replicate m 0), ys ++ [fp], m, ?_, ?_,
        ?_⟩
      · rw [List.append_assoc, List.singleton_append]
      · exact (List.perm_append_singleton fp ys).nodup_iff.mpr hnodup'
      · exact List.forall_mem_append.mpr ⟨hys, List.forall_mem_singleton.mpr ⟨hfp, hown⟩⟩

/-- An insert into the first bucket. -/
theorem insert_first {rand : ℕ → ℕ → Fin F.Slots} {table : Table} {s : Key} {b b' : List ℕ}
    (hb : table[F.hash s % F.size]? = some b)
    (hb' : CuckooFilter.tryInsert true (F.fp s) b = some b') :
    F.insert rand table s = some (true, table.set (F.hash s % F.size) b') := by
  have hfpeq : F.createFP (F.hash s) = F.fp s := rfl
  unfold Filter.insert
  simp only [hfpeq, hb, hb', Option.bind_eq_bind, Option.bind_some]

/-- Where each bucket has room for its own fingerprints, every insert succeeds. -/
theorem run_quiet (hroom : 2 ^ F.bits ≤ F.Slots * F.size.gcd (2 ^ F.bits)) (hsize : F.size ≠ 0)
    (inserts : List (Key × (ℕ → ℕ → Fin F.Slots))) {held : List Key} {table : Table}
    (hformed : F.Formed table) (hquiet : ∀ j b, table[j]? = some b → F.Quiet j b)
    (hheld : ∀ s ∈ held, F.Holds table s) :
    ∃ table' keys, F.run inserts table = some (table', keys) ∧ F.Formed table' ∧
      ∀ s ∈ held ++ keys, F.Holds table' s := by
  induction inserts generalizing held table with
  | nil => exact ⟨table, [], rfl, hformed, by rwa [List.append_nil]⟩
  | cons x inserts ih =>
    obtain ⟨s, rand⟩ := x
    obtain ⟨b, hb, hlen⟩ := hformed.getElem? (Nat.mod_lt (F.hash s) (Nat.pos_of_ne_zero hsize))
    obtain ⟨b', hb', hquiet'⟩ := (hquiet _ _ hb).tryInsert hroom hlen
      (createFP_ne_zero (F := F) (F.hash s)) ⟨F.hash s, rfl, rfl⟩
    obtain ⟨hlen', hfp, hkeep⟩ := tryInsert_some hb'
    have hheld' : ∀ x ∈ held ++ [s], F.Holds (table.set (F.hash s % F.size) b') x :=
      List.forall_mem_append.mpr ⟨fun x hx => (hheld x hx).set hb hkeep,
        List.forall_mem_singleton.mpr (Filter.holds_set hb (.inl rfl) hfp)⟩
    have hquiet1 : ∀ j c, (table.set (F.hash s % F.size) b')[j]? = some c → F.Quiet j c := by
      intro j c hc
      by_cases hj : F.hash s % F.size = j
      · subst hj
        rw [List.getElem?_set_self (List.getElem?_eq_some_iff.mp hb).1] at hc
        exact Option.some.inj hc ▸ hquiet'
      · exact hquiet j c ((List.getElem?_set_ne hj).symm.trans hc)
    obtain ⟨table', keys, hrun, hformed', hall⟩ := ih (hformed.set (hlen'.trans hlen) _) hquiet1
      hheld'
    refine ⟨table', s :: keys, ?_, hformed', fun x hx => hall x (by simpa using hx)⟩
    rw [Filter.run, insert_first hb hb', Option.bind_eq_bind, Option.bind_some]
    dsimp only
    rw [hrun]
    rfl

/-! ## Where the way does not lead back -/

section Lost

variable {rand : ℕ → ℕ → Fin F.Slots} {table : Table}

/-- One insert of a run. -/
theorem run_cons {s : Key} {inserts : List (Key × (ℕ → ℕ → Fin F.Slots))} {table1 table2 : Table}
    {keys : List Key} (h : F.insert rand table s = some (true, table1))
    (hrest : F.run inserts table1 = some (table2, keys)) :
    F.run ((s, rand) :: inserts) table = some (table2, s :: keys) := by
  rw [Filter.run, h, Option.bind_eq_bind, Option.bind_some]
  dsimp only
  rw [hrest]
  rfl

/-- An insert that leaves the table. -/
theorem run_leaves {s : Key} {inserts : List (Key × (ℕ → ℕ → Fin F.Slots))}
    (h : table[F.hash s % F.size]? = none) : F.run ((s, rand) :: inserts) table = none := by
  rw [Filter.run, Filter.insert, h]
  rfl

/-- Inserts into one bucket that has room, behind which a run goes on. -/
theorem run_fill {key : ℕ → Key} {e : ℕ → ℕ} {i : ℕ} {ts : List ℕ}
    (hkey : ∀ t ∈ ts, F.hash (key t) % F.size = i ∧ F.fp (key t) = e t) (hne : ∀ t ∈ ts, e t ≠ 0)
    {ys zs : List ℕ} (hys : ∀ y ∈ ys, y ≠ 0) (hnodup : (ys ++ ts.map e).Nodup)
    (hb : table[i]? = some (ys ++ (List.replicate ts.length 0 ++ zs)))
    {inserts : List (Key × (ℕ → ℕ → Fin F.Slots))} {table2 : Table} {keys : List Key}
    (hrest : F.run inserts (table.set i (ys ++ ts.map e ++ zs)) = some (table2, keys)) :
    F.run (ts.map (fun t => (key t, rand)) ++ inserts) table =
      some (table2, ts.map key ++ keys) := by
  induction ts generalizing ys table with
  | nil =>
    have hsame : table.set i (ys ++ zs) = table := by
      obtain ⟨hlt, heq⟩ := List.getElem?_eq_some_iff.mp hb
      rw [List.length_nil, List.replicate_zero, List.nil_append] at heq
      rw [← heq, List.set_getElem_self]
    rw [List.map_nil, List.append_nil, hsame] at hrest
    exact hrest
  | cons t ts ih =>
    obtain ⟨⟨hhash, hfp⟩, hkey'⟩ := List.forall_mem_cons.mp hkey
    obtain ⟨het, hne'⟩ := List.forall_mem_cons.mp hne
    obtain ⟨hlt, -⟩ := List.getElem?_eq_some_iff.mp hb
    have hnew : e t ∉ ys := fun hin => by
      have hdisj := (List.nodup_append.mp hnodup).2.2
      exact hdisj _ hin (e t) (by rw [List.map_cons]; exact List.mem_cons_self) rfl
    rw [List.length_cons, List.replicate_succ, List.cons_append] at hb
    have hput : CuckooFilter.tryInsert true (e t) (ys ++ 0 :: (List.replicate ts.length 0 ++ zs)) =
        _ := tryInsert_free hys (fun _ => hnew) het (List.replicate ts.length 0 ++ zs)
    rw [List.map_cons, List.cons_append, List.map_cons, List.cons_append]
    subst hhash
    have hins : F.insert rand table (key t) = _ := insert_first hb (hfp.symm ▸ hput)
    refine run_cons hins (ih hkey' hne' (?_ : ∀ y ∈ ys ++ [e t], y ≠ 0) ?_ ?_ ?_)
    · exact List.forall_mem_append.mpr ⟨hys, List.forall_mem_singleton.mpr het⟩
    · rwa [List.append_assoc, List.singleton_append]
    · rw [List.getElem?_set_self hlt, hfp, List.append_assoc, List.singleton_append]
    · rw [List.set_set, List.append_assoc ys, List.singleton_append]
      exact hrest

/-- An insert into the second bucket. -/
theorem insert_second {s : Key} {b1 b2 b' : List ℕ} (hb1 : table[F.hash s % F.size]? = some b1)
    (hfull : CuckooFilter.tryInsert true (F.fp s) b1 = none)
    (hb2 : table[F.hashAltIndex (F.hash s % F.size) (F.fp s)]? = some b2)
    (hb' : CuckooFilter.tryInsert true (F.fp s) b2 = some b') :
    F.insert rand table s =
      some (true, table.set (F.hashAltIndex (F.hash s % F.size) (F.fp s)) b') := by
  have hfpeq : F.createFP (F.hash s) = F.fp s := rfl
  unfold Filter.insert
  simp only [hfpeq, hb1, hfull, hb2, hb', Option.bind_eq_bind, Option.bind_some]

/-- An insert where both buckets are full. -/
theorem insert_full {s : Key} {b1 b2 : List ℕ} (hb1 : table[F.hash s % F.size]? = some b1)
    (hfull : CuckooFilter.tryInsert true (F.fp s) b1 = none)
    (hb2 : table[F.hashAltIndex (F.hash s % F.size) (F.fp s)]? = some b2)
    (hfull2 : CuckooFilter.tryInsert true (F.fp s) b2 = none) :
    F.insert rand table s = F.kicks rand MaxKicks 0 (F.fp s) (F.hash s % F.size) [] table := by
  have hfpeq : F.createFP (F.hash s) = F.fp s := rfl
  unfold Filter.insert
  simp only [hfpeq, hb1, hfull, hb2, hfull2, Option.bind_eq_bind, Option.bind_some]

/-- A kick after which the victim finds room. -/
theorem kicks_room {n i fp index victim : ℕ} {rollback : List RollBack} {b b2 b' : List ℕ}
    (hb : table[index]? = some b) (hvictim : b[(rand fp i).val]? = some victim)
    (hb2 : (table.set index (b.set (rand fp i) fp))[F.hashAltIndex index victim]? = some b2)
    (hb' : CuckooFilter.tryInsert false victim b2 = some b') :
    F.kicks rand (n + 1) i fp index rollback table = some (true,
      (table.set index (b.set (rand fp i) fp)).set (F.hashAltIndex index victim) b') := by
  unfold Filter.kicks
  simp only [hb, hvictim, hb2, hb', Option.bind_eq_bind, Option.bind_some]

/-- What is in neither bucket is not reported. -/
theorem lookup_lost {s : Key} {b1 b2 : List ℕ} (hb1 : table[F.hash s % F.size]? = some b1)
    (hb2 : table[F.hashAltIndex (F.hash s % F.size) (F.fp s)]? = some b2) (h1 : F.fp s ∉ b1)
    (h2 : F.fp s ∉ b2) : F.lookup table s = some false := by
  have hfpeq : F.createFP (F.hash s) = F.fp s := rfl
  have hfind1 : tryFind (F.fp s) b1 = false :=
    Bool.eq_false_iff.mpr fun h => h1 (List.contains_iff_mem.mp h)
  have hfind2 : tryFind (F.fp s) b2 = false :=
    Bool.eq_false_iff.mpr fun h => h2 (List.contains_iff_mem.mp h)
  unfold Filter.lookup
  simp only [hfpeq, hb1, hb2, hfind1, hfind2, Option.bind_eq_bind, Option.bind_some]
  rfl

/-! ### A key that is kicked out of its buckets -/

section Kicked

variable {n : ℕ} {e : ℕ → ℕ}

theorem not_mem_range_map (hinj : ∀ t ≤ n + 1, ∀ u ≤ n + 1, e t = e u → t = u) {t m : ℕ}
    (ht : t ≤ n + 1) (hm : m ≤ t) : e t ∉ (List.range m).map e := by
  intro hin
  obtain ⟨u, hu, heq⟩ := List.mem_map.mp hin
  have hu := List.mem_range.mp hu
  have hut := hinj u (by omega) t ht heq
  omega

theorem range_map_ne_zero (hne : ∀ t ≤ n + 1, e t ≠ 0) {m : ℕ} (hm : m ≤ n + 1) :
    ∀ y ∈ (List.range m).map e, y ≠ 0 := by
  intro y hy
  obtain ⟨u, hu, rfl⟩ := List.mem_map.mp hy
  have hu := List.mem_range.mp hu
  exact hne u (by omega)

theorem range_map_nodup (hinj : ∀ t ≤ n + 1, ∀ u ≤ n + 1, e t = e u → t = u) {m : ℕ}
    (hm : m ≤ n + 1) : ((List.range m).map e).Nodup := by
  refine List.Nodup.map_on (fun u hu v hv heq => hinj u ?_ v ?_ heq) List.nodup_range
  · have hu := List.mem_range.mp hu
    omega
  · have hv := List.mem_range.mp hv
    omega

variable (hslots : F.Slots = n + 1) (hne : ∀ t ≤ n + 1, e t ≠ 0)
  (hinj : ∀ t ≤ n + 1, ∀ u ≤ n + 1, e t = e u → t = u)
include hslots hne hinj

/-- Two full buckets of the same length, and the second one holds a fingerprint of the first. The
next key takes its place, and it goes to a third bucket, where its key does not look for it. -/
theorem lost_kick (hrand : ∀ fp i, (rand fp i).val = 0) {keyA keyB : Key} {i c : ℕ}
    (hA : F.hash keyA % F.size = i ∧ F.fp keyA = e (n + 1))
    (hB : F.hash keyB % F.size = 0 ∧ F.fp keyB = e n)
    (hi0 : i ≠ 0) (hc0 : c ≠ 0) (hci : c ≠ i)
    (hback : F.hashAltIndex i (e (n + 1)) = 0) (hstay : F.hashAltIndex 0 (e n) = 0)
    (haway : F.hashAltIndex 0 (e (n + 1)) = c)
    (hfirst : table[i]? = some ((List.range (n + 1)).map e))
    (hsecond : table[0]? = some (e (n + 1) :: (List.range n).map e))
    (hthird : table[c]? = some (List.replicate F.Slots 0)) :
    ∃ table', F.run [(keyB, rand)] table = some (table', [keyB]) ∧
      F.lookup table' keyA = some false := by
  obtain ⟨hAi, hAfp⟩ := hA
  obtain ⟨hB0, hBfp⟩ := hB
  have hne' : e n ≠ e (n + 1) := fun heq =>
    absurd (hinj n (Nat.le_succ n) (n + 1) le_rfl heq) (Nat.ne_of_lt (Nat.lt_succ_self n))
  have hnew : e n ∉ (List.range n).map e := not_mem_range_map hinj (Nat.le_succ n) le_rfl
  have hfull : CuckooFilter.tryInsert true (e n) (e (n + 1) :: (List.range n).map e) = none := by
    refine tryInsert_full ?_ fun _ hin => (List.mem_cons.mp hin).elim hne' hnew
    exact List.forall_mem_cons.mpr ⟨hne _ le_rfl, range_map_ne_zero hne (Nat.le_succ n)⟩
  have hput : CuckooFilter.tryInsert false (e (n + 1)) (List.replicate F.Slots 0) =
      some (e (n + 1) :: List.replicate n 0) := by
    rw [hslots]
    exact tryInsert_empty (hne _ le_rfl) n
  have hzero : 0 < table.length := (List.getElem?_eq_some_iff.mp hsecond).1
  set kicked : Table := table.set 0 (e n :: (List.range n).map e) with hkicked
  have hins : F.insert rand table keyB =
      some (true, kicked.set c (e (n + 1) :: List.replicate n 0)) := by
    have h := @insert_full F rand table keyB (e (n + 1) :: (List.range n).map e)
      (e (n + 1) :: (List.range n).map e)
    rw [hB0, hBfp, hstay] at h
    rw [h hsecond hfull hsecond hfull]
    have hk := @kicks_room F rand table 255 0 (e n) 0 (e (n + 1)) []
      (e (n + 1) :: (List.range n).map e) (List.replicate F.Slots 0)
      (e (n + 1) :: List.replicate n 0)
    rw [hrand, haway, List.set_cons_zero] at hk
    exact hk hsecond rfl ((List.getElem?_set_ne (Ne.symm hc0)).trans hthird) hput
  refine ⟨_, run_cons hins rfl, ?_⟩
  have h := @lookup_lost F (kicked.set c (e (n + 1) :: List.replicate n 0)) keyA
    ((List.range (n + 1)).map e) (e n :: (List.range n).map e)
  rw [hAi, hAfp, hback] at h
  refine h ?_ ?_ (not_mem_range_map hinj le_rfl le_rfl) fun hin => ?_
  · exact (List.getElem?_set_ne hci).trans ((List.getElem?_set_ne (Ne.symm hi0)).trans hfirst)
  · exact (List.getElem?_set_ne hc0).trans (List.getElem?_set_self hzero)
  · refine (List.mem_cons.mp hin).elim (Ne.symm hne') ?_
    exact not_mem_range_map hinj le_rfl (Nat.le_succ n)

/-- The first bucket of a key is full, so that it goes to its second one. -/
theorem lost_second {keyA : Key} {i : ℕ}
    (hA : F.hash keyA % F.size = i ∧ F.fp keyA = e (n + 1))
    (hback : F.hashAltIndex i (e (n + 1)) = 0)
    (hfirst : table[i]? = some ((List.range (n + 1)).map e))
    (hsecond : table[0]? = some (List.replicate F.Slots 0)) :
    F.insert rand table keyA =
      some (true, table.set 0 (e (n + 1) :: List.replicate n 0)) := by
  obtain ⟨hAi, hAfp⟩ := hA
  have hfull : CuckooFilter.tryInsert true (e (n + 1)) ((List.range (n + 1)).map e) = none :=
    tryInsert_full (range_map_ne_zero hne le_rfl) fun _ => not_mem_range_map hinj le_rfl le_rfl
  have hput : CuckooFilter.tryInsert true (e (n + 1)) (List.replicate F.Slots 0) =
      some (e (n + 1) :: List.replicate n 0) := by
    rw [hslots]
    exact tryInsert_empty (hne _ le_rfl) n
  have h := @insert_second F rand table keyA ((List.range (n + 1)).map e)
    (List.replicate F.Slots 0) (e (n + 1) :: List.replicate n 0)
  rw [hAi, hAfp, hback] at h
  exact h hfirst hfull hsecond hput

/-- One key goes to its second bucket and is kicked out of it to a third one. -/
theorem lost (hrand : ∀ fp i, (rand fp i).val = 0) {keyA keyB : ℕ → Key} {i c : ℕ}
    (hA : ∀ t ≤ n + 1, F.hash (keyA t) % F.size = i ∧ F.fp (keyA t) = e t)
    (hB : ∀ t ≤ n, F.hash (keyB t) % F.size = 0 ∧ F.fp (keyB t) = e t)
    (hi : i < F.size) (hc : c < F.size) (hi0 : i ≠ 0) (hc0 : c ≠ 0) (hci : c ≠ i)
    (hback : F.hashAltIndex i (e (n + 1)) = 0) (hstay : F.hashAltIndex 0 (e n) = 0)
    (haway : F.hashAltIndex 0 (e (n + 1)) = c) :
    ∃ inserts table keys, F.run inserts
        (List.replicate F.size (List.replicate F.Slots 0)) = some (table, keys) ∧
      keyA (n + 1) ∈ keys ∧ F.lookup table (keyA (n + 1)) = some false := by
  have hpos : 0 < F.size := (Nat.zero_le i).trans_lt hi
  set T0 : Table := List.replicate F.size (List.replicate F.Slots 0) with hT0
  have hlen0 : T0.length = F.size := List.length_replicate
  have hT0at : ∀ j < F.size, T0[j]? = some (List.replicate F.Slots 0) := fun j hj => by
    rw [hT0, List.getElem?_replicate, if_pos hj]
  -- the first bucket is full
  set T1 : Table := T0.set i ((List.range (n + 1)).map e) with hT1
  have hlen1 : T1.length = F.size := (List.length_set ..).trans hlen0
  have hT1i : T1[i]? = some ((List.range (n + 1)).map e) :=
    List.getElem?_set_self (hlen0.symm ▸ hi)
  have hT1at : ∀ j < F.size, j ≠ i → T1[j]? = some (List.replicate F.Slots 0) := fun j hj hne =>
    (List.getElem?_set_ne (Ne.symm hne)).trans (hT0at j hj)
  have hins : F.insert rand T1 (keyA (n + 1)) = _ :=
    lost_second hslots hne hinj (hA (n + 1) le_rfl) hback hT1i (hT1at 0 hpos (Ne.symm hi0))
  set T2 : Table := T1.set 0 (e (n + 1) :: List.replicate n 0) with hT2
  have hlen2 : T2.length = F.size := (List.length_set ..).trans hlen1
  -- and so is the second
  set T3 : Table := T2.set 0 (e (n + 1) :: (List.range n).map e) with hT3
  have hT3at : ∀ j, j ≠ 0 → T3[j]? = T1[j]? := fun j hj =>
    (List.getElem?_set_ne (Ne.symm hj)).trans (List.getElem?_set_ne (Ne.symm hj))
  obtain ⟨table, hrun, hlost⟩ := lost_kick hslots hne hinj hrand (hA (n + 1) le_rfl) (hB n le_rfl)
    hi0 hc0 hci hback hstay haway ((hT3at i hi0).trans hT1i)
    (List.getElem?_set_self (hlen2.symm ▸ hpos)) ((hT3at c hc0).trans (hT1at c hc hci))
  have hfillB := @run_fill F rand T2 keyB e 0 (List.range n)
    (fun t ht => hB t (List.mem_range.mp ht).le)
    (fun t ht => hne t ((List.mem_range.mp ht).le.trans (Nat.le_succ n))) [e (n + 1)] []
    (List.forall_mem_singleton.mpr (hne _ le_rfl))
    (List.nodup_cons.mpr ⟨not_mem_range_map hinj le_rfl (Nat.le_succ n),
      range_map_nodup hinj (Nat.le_succ n)⟩)
    (by
      rw [List.append_nil, List.length_range]
      exact List.getElem?_set_self (hlen1.symm ▸ hpos))
    [(keyB n, rand)] _ _ (by rw [List.append_nil]; exact hrun)
  have hfillA := @run_fill F rand T0 keyA e i (List.range (n + 1))
    (fun t ht => hA t (List.mem_range.mp ht).le)
    (fun t ht => hne t (List.mem_range.mp ht).le) [] [] (List.forall_mem_nil _)
    (range_map_nodup hinj le_rfl)
    (by
      rw [List.append_nil, List.length_range, List.nil_append, ← hslots]
      exact hT0at i hi)
    _ _ _ (by rw [List.append_nil]; exact run_cons hins hfillB)
  exact ⟨_, _, _, hfillA, List.mem_append_right _ List.mem_cons_self, hlost⟩

end Kicked

end Lost

/-! ## Which numbers of buckets lose a key -/

section Choice

/-- Hashes for keys of five octets by the first two of them, and for the octets of fingerprints. -/
def lure (hashes : ℕ → ℕ → ℕ) (alts : ℕ → ℕ) : Key → UInt64
  | [a, t, _, _, _] => UInt64.ofNat (hashes a.val t.val)
  | s => UInt64.ofNat (alts (leValue s))

/-- A key of five octets. -/
def lureKey (a t : ℕ) : Key := [Fin.ofNat 256 a, Fin.ofNat 256 t, 0, 0, 0]

variable {hashes : ℕ → ℕ → ℕ} {alts : ℕ → ℕ}

theorem hash_lureKey {a t : ℕ} (ha : a < 256) (ht : t < 256) (h : hashes a t < 2 ^ 64) :
    (F.withHash (lure hashes alts)).hash (lureKey a t) = hashes a t := by
  change (UInt64.ofNat (hashes (a % 256) (t % 256))).toNat = hashes a t
  rw [Nat.mod_eq_of_lt ha, Nat.mod_eq_of_lt ht]
  exact UInt64.toNat_ofNat_of_lt' h

theorem lure_eq {s : Key} (h : s.length ≤ 4) :
    lure hashes alts s = UInt64.ofNat (alts (leValue s)) := by
  unfold lure
  split
  · simp at h
  · rfl

/-- A fingerprint of the width of the filter. -/
theorem hashAltIndex_lure (hbits : F.bits = 8 ∨ F.bits = 16 ∨ F.bits = 32) {fp : ℕ}
    (hfp : fp < 2 ^ F.bits) (h : alts fp < 2 ^ 64) (index : ℕ) :
    (F.withHash (lure hashes alts)).hashAltIndex index fp = (index ^^^ alts fp) % F.size := by
  have hwidth : F.bits / 8 ≤ 4 ∧ 2 ^ F.bits = 256 ^ (F.bits / 8) := by
    rcases hbits with hb | hb | hb <;> rw [hb] <;> decide
  change (index ^^^ (lure hashes alts (leBytes (F.bits / 8) fp)).toNat) % F.size = _
  rw [lure_eq ((leBytes_length ..).trans_le hwidth.1), leValue_leBytes (hwidth.2 ▸ hfp),
    UInt64.toNat_ofNat_of_lt' h]

/-- The hash with a given first bucket and given low bits. -/
theorem exists_hash {g m i x w : ℕ} (hw : Nat.gcd m (2 ^ w) = g) (hm : m ≠ 0)
    (hi : i % g = 0) (hx : x % g = 0) (him : i < m) (hxw : x < 2 ^ w) :
    ∃ h, h < m * 2 ^ w ∧ h % m = i ∧ h % 2 ^ w = x := by
  have hcompat : i ≡ x [MOD Nat.gcd m (2 ^ w)] := by
    rw [hw]
    exact hi.trans hx.symm
  refine ⟨Nat.chineseRemainder' hcompat, ?_, ?_, ?_⟩
  · refine (Nat.chineseRemainder'_lt_lcm hcompat hm (Nat.two_pow_pos w).ne').trans_le ?_
    exact Nat.le_of_dvd (Nat.mul_pos (Nat.pos_of_ne_zero hm) (Nat.two_pow_pos w))
      (Nat.lcm_dvd_mul _ _)
  · have h : _ % m = i % m := (Nat.chineseRemainder' hcompat).2.1
    rw [h, Nat.mod_eq_of_lt him]
  · have h : _ % 2 ^ w = x % 2 ^ w := (Nat.chineseRemainder' hcompat).2.2
    rw [h, Nat.mod_eq_of_lt hxw]

/-- An odd multiple of a power of two. -/
theorem two_pow_xor_mul {j m : ℕ} (hm : Odd m) : 2 ^ j ^^^ 2 ^ j * m = 2 ^ j * (m - 1) := by
  rw [← Nat.xor_one_of_odd hm, Nat.xor_comm m 1]
  have h := @Nat.shiftLeft_xor_distrib j 1 m
  rw [Nat.shiftLeft_eq, Nat.shiftLeft_eq, Nat.shiftLeft_eq, Nat.one_mul] at h
  rw [Nat.mul_comm _ m, ← h, Nat.mul_comm]

theorem createFP_of_mod {h x : ℕ} (hx : h % 2 ^ F.bits = x) :
    F.createFP h = if x = 0 then 1 else x := by
  unfold Filter.createFP
  dsimp only
  rw [hx]
  by_cases h0 : x = 0
  · rw [if_neg (not_not.mpr h0), if_pos h0, h0]
    rfl
  · rw [if_pos h0, if_neg h0]

/-- The low bits of the hashes: multiples of a power of two. -/
def low (j t : ℕ) : ℕ := (t + if j = 0 then 1 else 0) * 2 ^ j

/-- The fingerprints that they make. -/
def lowFP (j t : ℕ) : ℕ := if low j t = 0 then 1 else low j t

theorem low_lt {j t w n : ℕ} (ht : t ≤ n) (hw : n + 1 < 2 ^ w) (hroom : n * 2 ^ j < 2 ^ w) :
    low j t < 2 ^ w := by
  unfold low
  by_cases hj : j = 0
  · rw [if_pos hj, hj, pow_zero, Nat.mul_one]
    exact (Nat.succ_le_succ ht).trans_lt hw
  · rw [if_neg hj]
    exact (Nat.mul_le_mul_right _ ht).trans_lt hroom

theorem lowFP_lt {j t w n : ℕ} (ht : t ≤ n) (hw : n + 1 < 2 ^ w) (hroom : n * 2 ^ j < 2 ^ w) :
    lowFP j t < 2 ^ w := by
  unfold lowFP
  split
  · omega
  · exact low_lt ht hw hroom

theorem lowFP_ne_zero (j t : ℕ) : lowFP j t ≠ 0 := by
  unfold lowFP
  split
  · exact Nat.one_ne_zero
  · assumption

/-- They are different. -/
theorem lowFP_injective {j t u : ℕ} (h : lowFP j t = lowFP j u) : t = u := by
  unfold lowFP low at h
  by_cases hj : j = 0
  · rw [if_pos hj, hj, pow_zero, Nat.mul_one, Nat.mul_one, if_neg (Nat.succ_ne_zero t),
      if_neg (Nat.succ_ne_zero u)] at h
    exact Nat.succ.inj h
  · have hpow : 2 ≤ 2 ^ j := Nat.le_self_pow hj 2
    rw [if_neg hj, Nat.add_zero, Nat.add_zero] at h
    have hone : ∀ v : ℕ, v * 2 ^ j ≠ 1 := fun v hv => by
      have := Nat.eq_one_of_mul_eq_one_left hv
      omega
    by_cases ht : t * 2 ^ j = 0
    · by_cases hu : u * 2 ^ j = 0
      · have := (Nat.mul_eq_zero.mp ht).resolve_right (by omega)
        have := (Nat.mul_eq_zero.mp hu).resolve_right (by omega)
        omega
      · rw [if_pos ht, if_neg hu] at h
        exact absurd h.symm (hone u)
    · by_cases hu : u * 2 ^ j = 0
      · rw [if_neg ht, if_pos hu] at h
        exact absurd h (hone t)
      · rw [if_neg ht, if_neg hu] at h
        exact Nat.eq_of_mul_eq_mul_right (by omega) h

theorem gcd_two_pow_mul {j m w : ℕ} (hm : Odd m) (hj : j ≤ w) :
    Nat.gcd (2 ^ j * m) (2 ^ w) = 2 ^ j := by
  have hcop : Nat.Coprime m (2 ^ (w - j)) := (Nat.coprime_two_right.mpr hm).pow_right _
  rw [← Nat.add_sub_cancel' hj, pow_add, Nat.gcd_mul_left, hcop.gcd_eq_one, Nat.mul_one]

/-- Hashes with the first bucket `2 ^ j` or zero, and with given low bits. -/
theorem exists_hashes {size w n j : ℕ} (hg : size.gcd (2 ^ w) = 2 ^ j) (hi : 2 ^ j < size)
    (hlt : size < 2 ^ 30) (hw : w ≤ 32) (hxw : ∀ t ≤ n, low j t < 2 ^ w) (a t : ℕ) :
    ∃ h, h < 2 ^ 64 ∧
      (t ≤ n → h % size = (if a = 0 then 2 ^ j else 0) ∧ h % 2 ^ w = low j t) := by
  by_cases ht : t ≤ n
  · have hfirst : (if a = 0 then 2 ^ j else 0) % 2 ^ j = 0 := by split <;> simp
    obtain ⟨h, hlt', h1, h2⟩ := exists_hash hg (Nat.ne_of_gt ((Nat.zero_le _).trans_lt hi)) hfirst
      (Nat.mul_mod_left _ _) (by split <;> omega) (hxw t ht)
    refine ⟨h, hlt'.trans_le ?_, fun _ => ⟨h1, h2⟩⟩
    calc size * 2 ^ w ≤ 2 ^ 30 * 2 ^ 32 :=
          Nat.mul_le_mul hlt.le (Nat.pow_le_pow_right Nat.two_pos hw)
      _ ≤ 2 ^ 64 := by decide
  · exact ⟨0, by decide, fun h => absurd h ht⟩

/-- A number of buckets that is no power of two loses a key for some hash function, if there are
more fingerprints than its first bucket has slots for. -/
theorem exists_lost (hbits : F.bits = 8 ∨ F.bits = 16 ∨ F.bits = 32) {n : ℕ}
    (hslots : F.Slots = n + 1) (hn : n ≤ 7) {j m : ℕ} (hsize : F.size = 2 ^ j * m) (hm : Odd m)
    (hm1 : m ≠ 1) (hlt : F.size < 2 ^ 30) (hroom : F.Slots * 2 ^ j < 2 ^ F.bits) :
    ∃ murmur inserts table keys, (F.withHash murmur).run inserts
        (List.replicate F.size (List.replicate F.Slots 0)) = some (table, keys) ∧
      ∃ s ∈ keys, (F.withHash murmur).lookup table s = some false := by
  have hwidth : n + 2 < 2 ^ F.bits ∧ F.bits ≤ 32 := by
    rcases hbits with hb | hb | hb <;> rw [hb] <;> omega
  have hpow : 0 < 2 ^ j := Nat.two_pow_pos j
  have hm3 : 3 ≤ m := by
    obtain ⟨k, rfl⟩ := hm
    omega
  have hj : j < F.bits := by
    refine (@Nat.pow_lt_pow_iff_right 2 j F.bits (by decide)).mp ?_
    exact (Nat.le_mul_of_pos_left _ (hslots ▸ Nat.succ_pos n)).trans_lt hroom
  have hg : Nat.gcd F.size (2 ^ F.bits) = 2 ^ j := hsize ▸ gcd_two_pow_mul hm hj.le
  have hi : 2 ^ j < F.size := by
    rw [hsize]
    exact (Nat.lt_mul_iff_one_lt_right hpow).mpr (by omega)
  have hxor : 2 ^ j ^^^ F.size = 2 ^ j * (m - 1) := hsize ▸ two_pow_xor_mul hm
  have hxlt : 2 ^ j ^^^ F.size < F.size := by
    rw [hxor, hsize]
    exact (Nat.mul_lt_mul_left hpow).mpr (by omega)
  have hxne : 2 ^ j ^^^ F.size ≠ 2 ^ j := by
    rw [hxor]
    intro heq
    have := Nat.eq_of_mul_eq_mul_left hpow (heq.trans (Nat.mul_one _).symm)
    omega
  rw [hslots] at hroom
  choose hashes hhashes hhash using
    exists_hashes hg hi hlt hwidth.2 fun t ht => low_lt ht hwidth.1 hroom
  -- the last fingerprint leads from bucket `2 ^ j` to bucket zero, and from there elsewhere
  set alts : ℕ → ℕ := fun fp => if fp = lowFP j (n + 1) then 2 ^ j ^^^ F.size else 0 with halts
  have haltslt : ∀ fp, alts fp < 2 ^ 64 := by
    intro fp
    simp only [halts]
    split <;> omega
  have hkey : ∀ a t, a < 256 → t ≤ n + 1 →
      (F.withHash (lure hashes alts)).hash (lureKey a t) % F.size = (if a = 0 then 2 ^ j else 0) ∧
        (F.withHash (lure hashes alts)).fp (lureKey a t) = lowFP j t := by
    intro a t ha ht
    have h := @hash_lureKey F hashes alts a t ha (by omega) (hhashes a t)
    unfold Filter.fp
    rw [h]
    exact ⟨(hhash a t ht).1, @createFP_of_mod F _ _ (hhash a t ht).2⟩
  have halt : ∀ t ≤ n + 1, ∀ index,
      (F.withHash (lure hashes alts)).hashAltIndex index (lowFP j t) =
        (index ^^^ alts (lowFP j t)) % F.size := fun t ht index =>
    hashAltIndex_lure hbits (lowFP_lt ht hwidth.1 hroom) (haltslt _) index
  have hlast : alts (lowFP j (n + 1)) = 2 ^ j ^^^ F.size := if_pos rfl
  have hother : alts (lowFP j n) = 0 := if_neg fun heq =>
    Nat.ne_of_lt (Nat.lt_succ_self n) (lowFP_injective heq)
  obtain ⟨inserts, table, keys, hrun, hin, hlost⟩ :=
    @lost (F.withHash (lure hashes alts)) (fun _ _ => ⟨0, by rw [Filter.withHash, hslots]; omega⟩)
      n (lowFP j) hslots (fun t _ => lowFP_ne_zero j t) (fun _ _ _ _ h => lowFP_injective h)
      (fun _ _ => rfl) (lureKey 0) (lureKey 1) (2 ^ j) (2 ^ j ^^^ F.size)
      (fun t ht => hkey 0 t (by decide) ht)
      (fun t ht => hkey 1 t (by decide) (ht.trans (Nat.le_succ n)))
      hi hxlt hpow.ne' (by rw [hxor]; exact (Nat.mul_pos hpow (by omega)).ne') hxne
      (by rw [halt _ le_rfl, hlast, ← Nat.xor_assoc, Nat.xor_self, Nat.zero_xor, Nat.mod_self])
      (by rw [halt _ (Nat.le_succ n), hother, Nat.xor_self, Nat.zero_mod])
      (by rw [halt _ le_rfl, hlast, Nat.zero_xor, Nat.mod_eq_of_lt hxlt])
  exact ⟨_, inserts, table, keys, hrun, _, hin, hlost⟩

end Choice

/-! ## The whole filter -/

/-- The octets of a bucket. -/
theorem Filter.Admitted.bucket_pos (h : F.Admitted) : 0 < F.bits / 8 * F.Slots := by
  rcases h.bits with hb | hb | hb <;> rcases h.Slots with hs | hs | hs | hs <;> rw [hb, hs] <;>
    decide

/-- The table as `size_t` counts it. -/
theorem clear_length (h : F.Admitted) (hlt : F.bits / 8 * F.Slots * F.size < 2 ^ 64) :
    F.clear = List.replicate F.size (List.replicate F.Slots 0) := by
  unfold Filter.clear Filter.bytes
  rw [Nat.mod_eq_of_lt hlt, Nat.mul_div_cancel_left _ h.bucket_pos]

/-- Where the octets do not fit into `size_t`, an insert leaves the table. -/
theorem not_noFalseNegatives_of_le (h : F.Admitted)
    (hle : 2 ^ 64 ≤ F.bits / 8 * F.Slots * F.size) : ¬F.NoFalseNegatives := by
  intro hall
  set count := F.bytes / (F.bits / 8 * F.Slots) with hcount
  have hshort : count < F.size := by
    refine (Nat.div_lt_iff_lt_mul h.bucket_pos).mpr ?_
    rw [Nat.mul_comm F.size]
    exact (Nat.mod_lt _ (Nat.two_pow_pos 64)).trans_le hle
  have hclear : F.clear.length = count := List.length_replicate
  have hhash : (F.withHash fun _ => UInt64.ofNat count).hash [] % F.size = count := by
    change (UInt64.ofNat count).toNat % F.size = count
    rw [UInt64.toNat_ofNat_of_lt' (hshort.trans h.size_lt), Nat.mod_eq_of_lt hshort]
  have hslots : 0 < F.Slots := Nat.pos_of_mul_pos_left h.bucket_pos
  obtain ⟨table, keys, hrun, -⟩ := hall (fun _ => UInt64.ofNat count)
    [([], fun _ _ => ⟨0, hslots⟩)]
  have hnone : F.clear[count]? = none := List.getElem?_eq_none hclear.le
  have hleaves := @run_leaves (F.withHash fun _ => UInt64.ofNat count) (fun _ _ => ⟨0, hslots⟩)
    F.clear [] [] ((congrArg (F.clear[·]?) hhash).trans hnone)
  exact absurd (hrun.symm.trans hleaves) (Option.some_ne_none _)

/-- No key is lost exactly if the octets of the table fit into `size_t` and either the number of
buckets is a power of two, or each bucket has a slot for every fingerprint whose keys have it as
their first one. -/
theorem noFalseNegatives_iff (h : F.Admitted) :
    F.NoFalseNegatives ↔ F.bits / 8 * F.Slots * F.size < 2 ^ 64 ∧
      ((∃ k, F.size = 2 ^ k) ∨ 2 ^ F.bits ≤ F.Slots * F.size.gcd (2 ^ F.bits)) := by
  constructor
  · intro hall
    have hlt : F.bits / 8 * F.Slots * F.size < 2 ^ 64 := by
      by_contra hle
      exact not_noFalseNegatives_of_le h (not_lt.mp hle) hall
    refine ⟨hlt, ?_⟩
    by_contra hnot
    obtain ⟨hpow, hroom⟩ := not_or.mp hnot
    obtain ⟨n, hslots, hn⟩ : ∃ n, F.Slots = n + 1 ∧ n ≤ 7 := by
      rcases h.Slots with hs | hs | hs | hs <;> rw [hs]
      · exact ⟨0, rfl, by decide⟩
      · exact ⟨1, rfl, by decide⟩
      · exact ⟨3, rfl, by decide⟩
      · exact ⟨7, rfl, by decide⟩
    obtain ⟨j, m, hm, hsize⟩ := Nat.exists_eq_two_pow_mul_odd h.size_ne_zero
    have hm1 : m ≠ 1 := by
      rintro rfl
      exact hpow ⟨j, hsize.trans (Nat.mul_one _)⟩
    have hbytes : F.bits / 8 * F.Slots * F.size ≤ MAX_SIZE := by
      have hb := h.bytes
      unfold Filter.bytes at hb
      rwa [Nat.mod_eq_of_lt hlt] at hb
    have hsize30 : F.size < 2 ^ 30 :=
      ((Nat.le_mul_of_pos_left _ h.bucket_pos).trans hbytes).trans_lt (by decide)
    have hgcd : 2 ^ j ≤ F.size.gcd (2 ^ F.bits) ∨ 2 ^ F.bits ≤ F.size.gcd (2 ^ F.bits) := by
      rcases Nat.le_total j F.bits with hj | hj
      · refine .inl (Nat.le_of_dvd (Nat.gcd_pos_of_pos_right _ (Nat.two_pow_pos _)) ?_)
        exact Nat.dvd_gcd (hsize ▸ Nat.dvd_mul_right _ _) (Nat.pow_dvd_pow 2 hj)
      · refine .inr (Nat.le_of_dvd (Nat.gcd_pos_of_pos_right _ (Nat.two_pow_pos _)) ?_)
        exact Nat.dvd_gcd (hsize ▸ (Nat.pow_dvd_pow 2 hj).mul_right _) dvd_rfl
    have hroom' : F.Slots * 2 ^ j < 2 ^ F.bits := by
      rcases hgcd with hg | hg
      · exact (Nat.mul_le_mul_left _ hg).trans_lt (not_le.mp hroom)
      · exact absurd (hg.trans (Nat.le_mul_of_pos_left _ (hslots ▸ Nat.succ_pos n))) hroom
    obtain ⟨murmur, inserts, table, keys, hrun, s, hs, hlost⟩ :=
      exists_lost h.bits hslots hn hsize hm hm1 hsize30 hroom'
    obtain ⟨table', keys', hrun', hfound⟩ := hall murmur inserts
    rw [clear_length h hlt, hrun] at hrun'
    obtain ⟨rfl, rfl⟩ := Prod.mk.inj (Option.some.inj hrun')
    exact absurd (hlost.symm.trans (hfound s hs)) (by decide)
  · rintro ⟨hlt, hgood⟩ murmur inserts
    rw [clear_length h hlt]
    have hformed : (F.withHash murmur).Formed
        (List.replicate F.size (List.replicate F.Slots 0)) := by
      refine ⟨List.length_replicate, fun bucket hbucket => ?_⟩
      rw [List.eq_of_mem_replicate hbucket]
      exact List.length_replicate
    obtain ⟨table, keys, hrun, hformed', hheld⟩ : ∃ table keys,
        (F.withHash murmur).run inserts (List.replicate F.size (List.replicate F.Slots 0)) =
          some (table, keys) ∧ (F.withHash murmur).Formed table ∧
            ∀ s ∈ [] ++ keys, (F.withHash murmur).Holds table s := by
      rcases hgood with ⟨k, hk⟩ | hroom
      · exact run_spec (F := F.withHash murmur) hk inserts hformed (List.forall_mem_nil _)
      · refine run_quiet (F := F.withHash murmur) hroom h.size_ne_zero inserts hformed ?_
          (List.forall_mem_nil _)
        intro j b hb
        refine ⟨[], F.Slots, ?_, List.nodup_nil, List.forall_mem_nil _⟩
        exact List.eq_of_mem_replicate (List.mem_of_getElem? hb)
    exact ⟨table, keys, hrun, fun s hs => lookup_of_holds hformed' h.size_ne_zero (hheld s hs)⟩

/-- Fingerprints of eight bits in three buckets of four slots. -/
def threeBuckets : Filter := ⟨8, 4, 3, fun _ => 0⟩

/-- Fingerprints of eight bits in four buckets of four slots. -/
def fourBuckets : Filter := ⟨8, 4, 4, fun _ => 0⟩

theorem noFalseNegatives_four_buckets : fourBuckets.NoFalseNegatives :=
  (noFalseNegatives_iff ⟨by decide, by decide, .inl rfl, .inr (.inr (.inl rfl)), by decide⟩).mpr
    ⟨by decide, .inl ⟨2, rfl⟩⟩

/-- The first five keys belong into bucket one, the last of them goes to bucket zero. Four keys of
bucket zero follow, and the last of them kicks its fingerprint to bucket two. -/
theorem lost_in_three_buckets : threeBuckets.Admitted ∧ ¬threeBuckets.NoFalseNegatives := by
  refine ⟨⟨by decide, by decide, .inl rfl, .inr (.inr (.inl rfl)), by decide⟩, fun hall => ?_⟩
  obtain ⟨table, keys, hrun, hfound⟩ := hall
    (lure (fun a t => t + 1 + 256 * (2 * (t + a) % 3)) fun fp => if fp = 5 then 2 else 0)
    ((List.range 5).map (fun t => (lureKey 0 t, fun _ _ => (0 : Fin 4))) ++
      (List.range 4).map fun t => (lureKey 1 t, fun _ _ => (0 : Fin 4)))
  have heval : ((threeBuckets.withHash (lure (fun a t => t + 1 + 256 * (2 * (t + a) % 3))
      fun fp => if fp = 5 then 2 else 0)).run
      ((List.range 5).map (fun t => (lureKey 0 t, fun _ _ => (0 : Fin 4))) ++
        (List.range 4).map fun t => (lureKey 1 t, fun _ _ => (0 : Fin 4))) threeBuckets.clear) =
      some ([[4, 1, 2, 3], [1, 2, 3, 4], [5, 0, 0, 0]],
        (List.range 5).map (lureKey 0) ++ (List.range 4).map (lureKey 1)) := by
    decide +kernel
  obtain ⟨rfl, rfl⟩ := Prod.mk.inj (Option.some.inj (heval.symm.trans hrun))
  exact absurd (hfound (lureKey 0 4) (by decide)) (by decide +kernel)

end HM4.CuckooFilter
