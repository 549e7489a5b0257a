import HM4.CuckooFilter
import Mathlib.Algebra.BigOperators.Group.Finset.Basic
import Mathlib.Algebra.Order.BigOperators.Group.Finset

/-!
# Removal from the cuckoo filter

A removal takes one copy of a fingerprint out of the table. An insert of a key whose fingerprint is
already in its bucket leaves the table as it is, so that two keys may share one copy, and the
removal of one of them takes the other away too.
-/

namespace HM4.CuckooFilter

open Bytes Pairs

variable (F : Filter)

/-! ## The hash function -/

/-- `m` of `murmur_hash64a`. -/
def murmurM : UInt64 := 0xc6a4a7935bd1e995

/-- The octets of a key from eight to eight, and those that are left. -/
def murmurWords : Key → UInt64 → UInt64
  | b0 :: b1 :: b2 :: b3 :: b4 :: b5 :: b6 :: b7 :: rest, h =>
    let k := UInt64.ofNat (leValue [b0, b1, b2, b3, b4, b5, b6, b7]) * murmurM
    let k := (k ^^^ (k >>> 47)) * murmurM
    murmurWords rest ((h ^^^ k) * murmurM)
  | [], h => h
  | rest, h => (h ^^^ UInt64.ofNat (leValue rest)) * murmurM

/-- `murmur_hash64a`. -/
def murmur_hash64a (seed : UInt64) (s : Key) : UInt64 :=
  let h := murmurWords s (seed ^^^ (UInt64.ofNat s.length * murmurM))
  let h := (h ^^^ (h >>> 47)) * murmurM
  h ^^^ (h >>> 47)

/-! ## The removal -/

/-- The bucket with its first copy of a fingerprint set to zero, if it has one. -/
def tryRemove (fp : ℕ) : List ℕ → Option (List ℕ)
  | [] => none
  | x :: bucket => if x = fp then some (0 :: bucket) else (tryRemove fp bucket).map (x :: ·)

/-- `remove`; nothing if it leaves the table. -/
def Filter.remove (table : Table) (s : Key) : Option (Bool × Table) := do
  let hash := F.hash s
  let fp := F.createFP hash
  let index1 := hash % F.size
  let bucket1 ← table[index1]?
  match tryRemove fp bucket1 with
  | some bucket1 => some (true, table.set index1 bucket1)
  | none =>
    let index2 := F.hashAltIndex index1 fp
    let bucket2 ← table[index2]?
    match tryRemove fp bucket2 with
    | some bucket2 => some (true, table.set index2 bucket2)
    | none => some (false, table)

/-- An insert or a removal, with the choices of the insert. -/
inductive Op (F : Filter) where
  | insert (s : Key) (rand : ℕ → ℕ → Fin F.Slots)
  | remove (s : Key)

/-- A successful insert, or a successful removal of a key that is inserted: the table, and the keys
that are inserted and not removed since. -/
def Filter.step : Op F → Table → List Key → Option (Table × List Key)
  | .insert s rand, table, keys =>
    match F.insert rand table s with
    | some (true, table) => some (table, s :: keys)
    | _ => none
  | .remove s, table, keys =>
    if keys.contains s = true then
      match F.remove table s with
      | some (true, table) => some (table, keys.filter (· ≠ s))
      | _ => none
    else none

/-- Something holds in every state of a run. -/
def Filter.Always (P : Table → List Key → Prop) : List (Op F) → Table → List Key → Prop
  | [], table, keys => P table keys
  | op :: ops, table, keys =>
    P table keys ∧ ∀ table' keys', F.step op table keys = some (table', keys') →
      Filter.Always P ops table' keys'

/-- Every step of a run meets a condition on the state before it. -/
def Filter.Along (C : Op F → Table → List Key → Prop) : List (Op F) → Table → List Key → Prop
  | [], _, _ => True
  | op :: ops, table, keys =>
    C op table keys ∧ ∀ table' keys', F.step op table keys = some (table', keys') →
      Filter.Along C ops table' keys'

/-- Every key that is inserted and not removed since is reported. -/
def Filter.Reports (table : Table) (keys : List Key) : Prop :=
  ∀ s ∈ keys, F.lookup table s = some true

/-- The bucket from which a copy of the fingerprint of a key is taken. -/
def Filter.holder (table : Table) (s : Key) : ℕ :=
  if F.fp s ∈ table.getD (F.hash s % F.size) [] then F.hash s % F.size
  else F.hashAltIndex (F.hash s % F.size) (F.fp s)

/-- The copies of the fingerprint of a key in its buckets. -/
def Filter.copies (table : Table) (s : Key) : ℕ :=
  ∑ i ∈ {F.hash s % F.size, F.hashAltIndex (F.hash s % F.size) (F.fp s)},
    (table.getD i []).count (F.fp s)

/-- An insert that kicks fingerprints does so while all keys lead back. -/
def Filter.KicksLeadBack : Op F → Table → List Key → Prop
  | .insert s _, table, keys => F.Kicks table s → ∀ x ∈ s :: keys, F.LeadsBack x
  | .remove _, _, _ => True

/-- A removal leaves every other key with the same fingerprint, one of whose buckets it takes the
copy from, another copy. -/
def Filter.LeavesCopy : Op F → Table → List Key → Prop
  | .insert _ _, _, _ => True
  | .remove s, table, keys => s ∈ keys → ∀ k ∈ keys, k ≠ s → F.fp k = F.fp s →
      F.Bucket k (F.holder table s) → 2 ≤ F.copies table k

variable {F}

/-! ## An insert that fails -/

/-- An insert that fails takes all its kicks back. -/
theorem insert_false (rand : ℕ → ℕ → Fin F.Slots) (table table' : Table) (s : Key)
    (h : F.insert rand table s = some (false, table')) : table' = table := by
  unfold Filter.insert at h
  obtain ⟨bucket1, -, h⟩ := Option.bind_eq_some_iff.mp h
  split at h
  · exact absurd (Prod.mk.inj (Option.some.inj h)).1 (by decide)
  · obtain ⟨bucket2, -, h⟩ := Option.bind_eq_some_iff.mp h
    split at h
    · exact absurd (Prod.mk.inj (Option.some.inj h)).1 (by decide)
    · exact kicks_false h

/-- One bucket of one slot: the two fingerprints kick each other out until the kicks are used up. -/
theorem insert_false_full : ∃ table,
    Filter.insert ⟨8, 1, 1, fun _ => 7⟩ (fun _ _ => 0) [[5]] [] = some (false, table) ∧
      table = [[5]] :=
  ⟨[[5]], by decide +kernel, @insert_false ⟨8, 1, 1, fun _ => 7⟩ (fun _ _ => (0 : Fin 1)) [[5]]
    [[5]] [] (by decide +kernel)⟩

/-! ## A bucket -/

section Bucket

variable {fp : ℕ} {bucket bucket' : List ℕ}

theorem tryRemove_eq_none : tryRemove fp bucket = none ↔ fp ∉ bucket := by
  induction bucket with
  | nil => exact iff_of_true rfl List.not_mem_nil
  | cons x bucket ih =>
    rw [tryRemove]
    by_cases hx : x = fp
    · rw [if_pos hx, hx]
      exact iff_of_false (Option.some_ne_none _) (not_not.mpr List.mem_cons_self)
    · rw [if_neg hx, Option.map_eq_none_iff, ih, List.mem_cons, not_or]
      exact (and_iff_right (Ne.symm hx)).symm

/-- A removal takes one copy of a fingerprint, and no other one. -/
theorem tryRemove_some (hfp : fp ≠ 0) (h : tryRemove fp bucket = some bucket') :
    bucket'.length = bucket.length ∧ bucket.count fp = bucket'.count fp + 1 ∧
      ∀ x, x ≠ fp → x ≠ 0 → bucket'.count x = bucket.count x := by
  induction bucket generalizing bucket' with
  | nil => exact absurd h.symm (Option.some_ne_none _)
  | cons x bucket ih =>
    rw [tryRemove] at h
    by_cases hx : x = fp
    · rw [if_pos hx] at h
      obtain rfl := Option.some.inj h
      refine ⟨rfl, ?_, fun y hy h0 => ?_⟩
      · rw [hx, List.count_cons_self, List.count_cons_of_ne hfp.symm]
      · rw [List.count_cons_of_ne h0.symm, List.count_cons_of_ne (hx.trans_ne hy.symm)]
    · rw [if_neg hx] at h
      obtain ⟨rest, hrest, rfl⟩ := Option.map_eq_some_iff.mp h
      obtain ⟨hlen, hcount, hother⟩ := ih hrest
      refine ⟨congrArg (· + 1) hlen, ?_, fun y hy h0 => ?_⟩
      · rw [List.count_cons_of_ne hx, List.count_cons_of_ne hx, hcount]
      · rw [List.count_cons, List.count_cons, hother y hy h0]

end Bucket

/-! ## The copies of a fingerprint -/

section Copies

variable {table : Table} {s k : Key} {i : ℕ}

theorem mem_buckets :
    i ∈ ({F.hash s % F.size, F.hashAltIndex (F.hash s % F.size) (F.fp s)} : Finset ℕ) ↔
      F.Bucket s i := by
  rw [Finset.mem_insert, Finset.mem_singleton]
  exact Iff.rfl

/-- A key is held where there is a copy of its fingerprint. -/
theorem holds_iff : F.Holds table s ↔ 0 < F.copies table s := by
  unfold Filter.copies
  rw [Finset.sum_pos_iff]
  constructor
  · rintro ⟨i, bucket, hi, hbucket, hfp⟩
    refine ⟨i, mem_buckets.mpr hi, List.count_pos_iff.mpr ?_⟩
    rwa [List.getD_eq_getElem?_getD, hbucket]
  · rintro ⟨i, hi, hcount⟩
    have hfp := List.count_pos_iff.mp hcount
    rw [List.getD_eq_getElem?_getD] at hfp
    cases hbucket : table[i]? with
    | none => simp [hbucket] at hfp
    | some bucket =>
      rw [hbucket] at hfp
      exact ⟨i, bucket, mem_buckets.mp hi, hbucket, hfp⟩

theorem getD_set_self {b b' : List ℕ} (hb : table[i]? = some b) :
    (table.set i b').getD i [] = b' := by
  rw [List.getD_eq_getElem?_getD, List.getElem?_set_self (List.getElem?_eq_some_iff.mp hb).1]
  rfl

theorem getD_set_ne {b' : List ℕ} {j : ℕ} (hij : i ≠ j) :
    (table.set i b').getD j [] = table.getD j [] := by
  rw [List.getD_eq_getElem?_getD, List.getElem?_set_ne hij, List.getD_eq_getElem?_getD]

/-- A bucket that loses a copy. -/
theorem copies_set {b b' : List ℕ} (hb : table[i]? = some b) (hi : F.Bucket k i)
    (hcount : b.count (F.fp k) = b'.count (F.fp k) + 1) :
    F.copies table k = F.copies (table.set i b') k + 1 := by
  unfold Filter.copies
  have hrest : ∀ is : Finset ℕ, ∀ j ∈ is.erase i,
      ((table.set i b').getD j []).count (F.fp k) = (table.getD j []).count (F.fp k) :=
    fun is j hj => by rw [getD_set_ne (Finset.ne_of_mem_erase hj).symm]
  rw [← Finset.add_sum_erase _ _ (mem_buckets.mpr hi), ← Finset.add_sum_erase _ _
    (mem_buckets.mpr hi), Finset.sum_congr rfl (hrest _), getD_set_self hb,
    List.getD_eq_getElem?_getD, hb, Option.getD_some, hcount]
  omega

/-- A bucket that keeps its copies, or is none of the key. -/
theorem copies_set_of_same {b b' : List ℕ} (hb : table[i]? = some b)
    (hsame : F.Bucket k i → b'.count (F.fp k) = b.count (F.fp k)) :
    F.copies (table.set i b') k = F.copies table k := by
  refine Finset.sum_congr rfl fun j hj => ?_
  by_cases hij : i = j
  · subst hij
    rw [getD_set_self hb, hsame (mem_buckets.mp hj), List.getD_eq_getElem?_getD, hb,
      Option.getD_some]
  · rw [getD_set_ne hij]

end Copies

/-! ## One step -/

section Step

variable {table : Table} {keys : List Key} {s : Key}

/-- What is reported is held. -/
theorem lookup_iff (h : F.Formed table) (hsize : F.size ≠ 0) :
    F.lookup table s = some true ↔ F.Holds table s := by
  refine ⟨fun hlookup => ?_, lookup_of_holds h hsize⟩
  unfold Filter.lookup at hlookup
  obtain ⟨b1, hb1, hlookup⟩ := Option.bind_eq_some_iff.mp hlookup
  split at hlookup
  · next hfind => exact ⟨_, b1, .inl rfl, hb1, List.contains_iff_mem.mp hfind⟩
  · obtain ⟨b2, hb2, hlookup⟩ := Option.bind_eq_some_iff.mp hlookup
    exact ⟨_, b2, .inr rfl, hb2, List.contains_iff_mem.mp (Option.some.inj hlookup)⟩

/-- The removal of a key that is held. -/
theorem remove_spec (hformed : F.Formed table) (hpos : 0 < F.size) (hs : F.Holds table s) :
    ∃ b b', table[F.holder table s]? = some b ∧ tryRemove (F.fp s) b = some b' ∧
      F.Bucket s (F.holder table s) ∧
      F.remove table s = some (true, table.set (F.holder table s) b') := by
  obtain ⟨b1, hb1, -⟩ := hformed.getElem? (Nat.mod_lt (F.hash s) hpos)
  obtain ⟨b2, hb2, -⟩ := hformed.getElem? (i := F.hashAltIndex (F.hash s % F.size) (F.fp s))
    (Nat.mod_lt _ hpos)
  have hfpeq : F.createFP (F.hash s) = F.fp s := rfl
  have hget : table.getD (F.hash s % F.size) [] = b1 := by
    rw [List.getD_eq_getElem?_getD, hb1, Option.getD_some]
  unfold Filter.remove Filter.holder
  simp only [hfpeq, hb1, hb2, hget, Option.bind_eq_bind, Option.bind_some]
  cases h1 : tryRemove (F.fp s) b1 with
  | some b =>
    have hin : F.fp s ∈ b1 := by
      by_contra hnot
      exact absurd (h1.symm.trans (tryRemove_eq_none.mpr hnot)) (Option.some_ne_none b)
    rw [if_pos hin]
    exact ⟨b1, b, hb1, h1, .inl rfl, rfl⟩
  | none =>
    have hout : F.fp s ∉ b1 := tryRemove_eq_none.mp h1
    rw [if_neg hout]
    cases h2 : tryRemove (F.fp s) b2 with
    | some b => exact ⟨b2, b, hb2, h2, .inr rfl, rfl⟩
    | none =>
      obtain ⟨i, bucket, rfl | rfl, hbucket, hin⟩ := hs
      · exact absurd (Option.some.inj (hbucket.symm.trans hb1) ▸ hin) hout
      · exact absurd (Option.some.inj (hbucket.symm.trans hb2) ▸ hin) (tryRemove_eq_none.mp h2)

/-- A removal keeps the table formed, and the keys that it leaves a copy are those that stay. -/
theorem step_remove (hformed : F.Formed table) (hpos : 0 < F.size)
    (hkeys : ∀ k ∈ keys, F.Holds table k) (hs : s ∈ keys) :
    ∃ table', F.step (.remove s) table keys = some (table', keys.filter (· ≠ s)) ∧
      F.Formed table' ∧ ((∀ k ∈ keys.filter (· ≠ s), F.Holds table' k) ↔
        F.LeavesCopy (.remove s) table keys) := by
  obtain ⟨b, b', hb, hremove, hbucket, hdone⟩ := remove_spec hformed hpos (hkeys s hs)
  obtain ⟨hlen, hcount, hother⟩ := @tryRemove_some (F.fp s) _ _ (createFP_ne_zero _) hremove
  refine ⟨table.set (F.holder table s) b', ?_, ?_, ?_⟩
  · rw [Filter.step, if_pos (List.contains_iff_mem.mpr hs), hdone]
  · exact hformed.set (hlen.trans (hformed.slots b (List.mem_of_getElem? hb))) _
  · have hone : ∀ k ∈ keys, F.Holds (table.set (F.holder table s) b') k ↔
        (F.fp k = F.fp s → F.Bucket k (F.holder table s) → 2 ≤ F.copies table k) := by
      intro k hk
      have hheld := holds_iff.mp (hkeys k hk)
      rw [holds_iff]
      by_cases htaken : F.fp k = F.fp s ∧ F.Bucket k (F.holder table s)
      · have := copies_set hb htaken.2 (htaken.1 ▸ hcount)
        constructor
        · intro _ _ _
          omega
        · intro h
          have := h htaken.1 htaken.2
          omega
      · rw [copies_set_of_same hb fun hi => hother (F.fp k) (fun heq => htaken ⟨heq, hi⟩)
          (createFP_ne_zero _)]
        exact iff_of_true hheld fun heq hi => absurd ⟨heq, hi⟩ htaken
    constructor
    · intro h _ k hk hne
      exact (hone k hk).mp (h k (List.mem_filter.mpr ⟨hk, decide_eq_true hne⟩))
    · intro h k hk
      obtain ⟨hk, hne⟩ := List.mem_filter.mp hk
      exact (hone k hk).mpr (h hs k hk (of_decide_eq_true hne))

/-- An insert whose kicks lead back keeps all keys. -/
theorem step_insert {rand : ℕ → ℕ → Fin F.Slots} (hformed : F.Formed table) (hpos : 0 < F.size)
    (hkeys : ∀ k ∈ keys, F.Holds table k) (hback : F.KicksLeadBack (.insert s rand) table keys)
    {table' : Table} {keys' : List Key}
    (h : F.step (.insert s rand) table keys = some (table', keys')) :
    F.Formed table' ∧ ∀ k ∈ keys', F.Holds table' k := by
  obtain ⟨done, table1, hinsert, hformed1, hkeys1, hs⟩ := insert_spec rand hformed hpos hkeys hback
  rw [Filter.step, hinsert] at h
  cases done with
  | true =>
    obtain ⟨rfl, rfl⟩ := Prod.mk.inj (Option.some.inj h)
    exact ⟨hformed1, List.forall_mem_cons.mpr ⟨hs rfl, hkeys1⟩⟩
  | false => exact absurd h.symm (Option.some_ne_none _)

end Step

/-! ## Whole runs -/

/-- From a table that holds all its keys. -/
theorem always_reports (hpos : 0 < F.size) {ops : List (Op F)} {table : Table} {keys : List Key}
    (hformed : F.Formed table) (hkeys : ∀ k ∈ keys, F.Holds table k)
    (hback : F.Along F.KicksLeadBack ops table keys) :
    F.Always F.Reports ops table keys ↔ F.Along F.LeavesCopy ops table keys := by
  have hreports : F.Reports table keys := fun k hk =>
    lookup_of_holds hformed hpos.ne' (hkeys k hk)
  induction ops generalizing table keys with
  | nil => exact iff_of_true hreports trivial
  | cons op ops ih =>
    obtain ⟨hback, hbacks⟩ := hback
    rw [Filter.Always, Filter.Along, and_iff_right hreports]
    cases op with
    | insert s rand =>
      rw [and_iff_right (show F.LeavesCopy (.insert s rand) table keys from trivial)]
      refine forall_congr' fun table' => forall_congr' fun keys' => forall_congr' fun hstep => ?_
      obtain ⟨hformed', hkeys'⟩ := step_insert hformed hpos hkeys hback hstep
      exact ih hformed' hkeys' (hbacks _ _ hstep) fun k hk =>
        lookup_of_holds hformed' hpos.ne' (hkeys' k hk)
    | remove s =>
      by_cases hs : s ∈ keys
      · obtain ⟨table1, hstep, hformed1, hiff⟩ := step_remove hformed hpos hkeys hs
        have hnext : ∀ P : Table → List Key → Prop, (∀ table' keys',
            F.step (.remove s) table keys = some (table', keys') → P table' keys') ↔
              P table1 (keys.filter (· ≠ s)) := by
          refine fun P => ⟨fun h => h _ _ hstep, fun h table' keys' hstep' => ?_⟩
          obtain ⟨rfl, rfl⟩ := Prod.mk.inj (Option.some.inj (hstep.symm.trans hstep'))
          exact h
        rw [hnext, hnext, ← hiff]
        have hgo := @ih table1 (keys.filter (· ≠ s)) hformed1
        have hbacks1 := hbacks _ _ hstep
        constructor
        · intro h
          have hnow : F.Reports table1 (keys.filter (· ≠ s)) := by
            cases ops with
            | nil => exact h
            | cons => exact h.1
          have hheld : ∀ k ∈ keys.filter (· ≠ s), F.Holds table1 k := fun k hk =>
            (lookup_iff hformed1 hpos.ne').mp (hnow k hk)
          exact ⟨hheld, (hgo hheld hbacks1 hnow).mp h⟩
        · rintro ⟨hheld, h⟩
          exact (hgo hheld hbacks1 fun k hk =>
            lookup_of_holds hformed1 hpos.ne' (hheld k hk)).mpr h
      · have hnone : F.step (.remove s) table keys = none :=
        if_neg (mt List.contains_iff_mem.mp hs)
        refine iff_of_true (fun _ _ h => ?_) ⟨fun h => absurd h hs, fun _ _ h => ?_⟩ <;>
          exact absurd (hnone.symm.trans h) (Option.some_ne_none _).symm

/-- Where the kicks lead back, every key that is inserted and not removed since is reported in every
state exactly if every removal leaves the other keys a copy. -/
theorem always_reports_iff (h : F.Admitted) (hlt : F.bits / 8 * F.Slots * F.size < 2 ^ 64)
    (ops : List (Op F)) (hback : F.Along F.KicksLeadBack ops F.clear []) :
    F.Always F.Reports ops F.clear [] ↔ F.Along F.LeavesCopy ops F.clear [] := by
  refine always_reports (Nat.pos_of_ne_zero h.size_ne_zero) ?_ (List.forall_mem_nil _) hback
  rw [clear_length h hlt]
  refine ⟨List.length_replicate, fun bucket hbucket => ?_⟩
  rw [List.eq_of_mem_replicate hbucket, List.length_replicate]

/-- With a power of two buckets all kicks lead back. -/
theorem along_kicksLeadBack {k : ℕ} (hsize : F.size = 2 ^ k) (ops : List (Op F)) (table : Table)
    (keys : List Key) : F.Along F.KicksLeadBack ops table keys := by
  induction ops generalizing table keys with
  | nil => exact trivial
  | cons op ops ih =>
    refine ⟨?_, fun table' keys' _ => ih table' keys'⟩
    cases op with
    | insert s rand => exact fun _ x _ => leadsBack hsize x
    | remove s => exact trivial

/-- Fingerprints of eight bits in four buckets of four slots, with the hash function of the
source. -/
def fourBuckets8 : Filter := ⟨8, 4, 4, murmur_hash64a 0⟩

theorem fourBuckets8_admitted : fourBuckets8.Admitted :=
  ⟨by decide, by decide, .inl rfl, .inr (.inr (.inl rfl)), by decide⟩

theorem always_reports_one_key :
    fourBuckets8.Always fourBuckets8.Reports
        [.insert [97] fun _ _ => (0 : Fin 4), .remove [97]] fourBuckets8.clear [] ↔
      fourBuckets8.Along fourBuckets8.LeavesCopy
        [.insert [97] fun _ _ => (0 : Fin 4), .remove [97]] fourBuckets8.clear [] :=
  always_reports_iff fourBuckets8_admitted (by decide) _
    (@along_kicksLeadBack fourBuckets8 2 rfl _ _ _)

/-- `a` and `e` have the fingerprint `0x11` in bucket one. They share its copy. -/
theorem removes_another : fourBuckets8.Admitted ∧
    ¬fourBuckets8.Always fourBuckets8.Reports [.insert [97] fun _ _ => (0 : Fin 4),
      .insert [101] fun _ _ => (0 : Fin 4), .remove [97]] fourBuckets8.clear [] := by
  refine ⟨fourBuckets8_admitted, fun h => ?_⟩
  have hfirst : fourBuckets8.step (.insert [97] fun _ _ => (0 : Fin 4)) fourBuckets8.clear [] =
      some ([[0, 0, 0, 0], [17, 0, 0, 0], [0, 0, 0, 0], [0, 0, 0, 0]], [[97]]) := by
    decide +kernel
  have hsecond : fourBuckets8.step (.insert [101] fun _ _ => (0 : Fin 4))
      [[0, 0, 0, 0], [17, 0, 0, 0], [0, 0, 0, 0], [0, 0, 0, 0]] [[97]] =
      some ([[0, 0, 0, 0], [17, 0, 0, 0], [0, 0, 0, 0], [0, 0, 0, 0]], [[101], [97]]) := by
    decide +kernel
  have hthird : fourBuckets8.step (.remove [97])
      [[0, 0, 0, 0], [17, 0, 0, 0], [0, 0, 0, 0], [0, 0, 0, 0]] [[101], [97]] =
      some ([[0, 0, 0, 0], [0, 0, 0, 0], [0, 0, 0, 0], [0, 0, 0, 0]], [[101]]) := by
    decide +kernel
  have hlast : fourBuckets8.Reports
      [[0, 0, 0, 0], [0, 0, 0, 0], [0, 0, 0, 0], [0, 0, 0, 0]] [[101]] :=
    ((h.2 _ _ hfirst).2 _ _ hsecond).2 _ _ hthird
  exact absurd (hlast [101] List.mem_cons_self) (by decide +kernel)

end HM4.CuckooFilter
