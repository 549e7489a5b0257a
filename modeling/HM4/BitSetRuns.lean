import HM4.BitSet

/-!
# Runs of the bit commands

Whatever is written to a key, its value is the vector of the bits that were written last.
The commands that read one bit or count the ones agree with it; the one that reads many
bits does not ask how long the value is.
-/

namespace HM4.BitSetRuns

open LexPrefix Bytes Pairs PairFactory MemList KeyedList Database VFactory BitSet

/-! ## What is written -/

/-- Positions that a value can hold are accepted. -/
def inRange (x : ℕ × Bool) : Bool := x.1 < BIT_MAX

/-- The writes that a command accepts, in their order. -/
def accepted (args : List Key) : List (ℕ × Bool) := (positions args).filter inRange

/-- The writes of a whole command. -/
def written : List Key → List (ℕ × Bool)
  | cmd :: key :: args =>
    if (cmd :: key :: args).length < 4 ∨ ((cmd :: key :: args).length - 2) % 2 ≠ 0 ∨
      ¬isKeyValid key then [] else accepted args
  | _ => []

/-- One write to a vector. -/
def assign (f : ℕ → Bool) (x : ℕ × Bool) : ℕ → Bool := Function.update f x.1 x.2

/-- The vector after some writes: the last bit written to a position, or no bit at all. -/
def vector (xs : List (ℕ × Bool)) : ℕ → Bool := xs.foldl assign fun _ => false

theorem foldl_setBit (xs : List (ℕ × Bool)) (data : Key)
    (h : ∀ x ∈ xs, x.1 < BIT_MAX → x.1 / 8 < data.length) :
    bitAt (xs.foldl setBit data) =
      (xs.filter inRange).foldl assign (bitAt data) := by
  induction xs generalizing data with
  | nil => rfl
  | cons x xs ih =>
    have hrest : ∀ y ∈ xs, y.1 < BIT_MAX → y.1 / 8 < (setBit data x).length := fun y hy => by
      rw [length_setBit]
      exact h y (List.mem_cons_of_mem x hy)
    rw [List.foldl_cons, ih _ hrest]
    by_cases hx : x.1 < BIT_MAX
    · rw [List.filter_cons_of_pos (p := inRange) (decide_eq_true hx), List.foldl_cons]
      congr 1
      funext m
      rw [setBit, if_neg (Nat.not_le.mpr hx), bitAt_set (h x List.mem_cons_self hx), assign,
        Function.update_apply]
    · rw [List.filter_cons_of_neg (p := inRange) (fun hc => hx (of_decide_eq_true hc)), setBit,
        if_pos (Nat.not_lt.mp hx)]

/-- The loop of `getBytes__`. -/
theorem foldl_getBytes (xs : List (ℕ × Bool)) (ok : Bool) (max : ℕ) (hmax : max < BIT_MAX) :
    let r := xs.foldl
      (fun (ok, max) (n, _) => if n < BIT_MAX then (true, Nat.max max n) else (ok, max)) (ok, max)
    (r.1 = true ↔ ok = true ∨ xs.filter inRange ≠ []) ∧ max ≤ r.2 ∧
      r.2 < BIT_MAX ∧ ∀ x ∈ xs, x.1 < BIT_MAX → x.1 ≤ r.2 := by
  induction xs generalizing ok max with
  | nil =>
    refine ⟨⟨.inl, fun h => h.elim id fun h => absurd rfl h⟩, le_rfl, hmax, fun x hx => ?_⟩
    exact absurd hx List.not_mem_nil
  | cons x xs ih =>
    rw [List.foldl_cons]
    by_cases hx : x.1 < BIT_MAX
    · obtain ⟨h1, h2, h3, h4⟩ := ih true (Nat.max max x.1) (Nat.max_lt.mpr ⟨hmax, hx⟩)
      simp only [hx, if_true]
      refine ⟨⟨fun _ => .inr ?_, fun _ => h1.mpr (.inl rfl)⟩, (Nat.le_max_left _ _).trans h2, h3,
        fun y hy hlt => ?_⟩
      · rw [List.filter_cons_of_pos (p := inRange) (decide_eq_true hx)]
        exact List.cons_ne_nil _ _
      · rcases List.mem_cons.mp hy with rfl | hy
        · exact (Nat.le_max_right _ _).trans h2
        · exact h4 y hy hlt
    · obtain ⟨h1, h2, h3, h4⟩ := ih ok max hmax
      simp only [hx, if_false]
      refine ⟨?_, h2, h3, fun y hy hlt => ?_⟩
      · rw [List.filter_cons_of_neg (p := inRange) (fun hc => hx (of_decide_eq_true hc))]
        exact h1
      · rcases List.mem_cons.mp hy with rfl | hy
        · exact absurd hlt hx
        · exact h4 y hy hlt

/-- `getBytes__` tells whether there is anything to write, and room for all of it. -/
theorem getBytes_spec (args : List Key) :
    ((getBytes args).1 = true ↔ accepted args ≠ []) ∧ 0 < (getBytes args).2 ∧
      (getBytes args).2 ≤ maxValSize ∧
      ∀ x ∈ positions args, x.1 < BIT_MAX → x.1 / 8 < (getBytes args).2 := by
  obtain ⟨h1, _, h3, h4⟩ := foldl_getBytes (positions args) false 0 (by decide)
  have h1' : (getBytes args).1 = true ↔ accepted args ≠ [] :=
    h1.trans ⟨fun h => h.elim (fun h => absurd h Bool.false_ne_true) id, .inr⟩
  refine ⟨h1', Nat.succ_pos _, ?_, fun x hx hlt => ?_⟩
  · refine Nat.succ_le_of_lt (Nat.div_lt_of_lt_mul ?_)
    rw [Nat.mul_comm]
    exact h3
  · exact Nat.lt_succ_of_le (Nat.div_le_div_right (h4 x hx hlt))

/-! ## The state of a key -/

/-- The bits of a pair that is alive. -/
def bitOf (o : Option Pair) (n : ℕ) : Bool := o.elim false fun p => bitAt p.val n

/-- At any time a key shows the same pair, which holds a vector. -/
def Holds (key : Key) (db : Db) (f : ℕ → Bool) : Prop :=
  ∃ o, (∀ now, getPairPtr now key db = o) ∧ ∀ n, bitOf o n = f n

/-- A write command changes the vector. -/
theorem holds_bitset (env : Env) (cmd : Key) {key : Key} (args : List Key) {db : Db} {f : ℕ → Bool}
    (h : Holds key db f) :
    Holds key (bitset env (cmd :: key :: args) db).2
      ((written (cmd :: key :: args)).foldl assign f) := by
  obtain ⟨o, ho, hf⟩ := h
  unfold bitset written
  dsimp only
  by_cases hp : (cmd :: key :: args).length < 4 ∨ ((cmd :: key :: args).length - 2) % 2 ≠ 0
  · rw [if_pos hp, if_pos (hp.imp_right .inl)]
    exact ⟨o, ho, hf⟩
  rw [if_neg hp]
  by_cases hk : isKeyValid key
  · have hk' : ¬¬isKeyValid key := not_not.mpr hk
    have hall : ¬((cmd :: key :: args).length < 4 ∨ ((cmd :: key :: args).length - 2) % 2 ≠ 0 ∨
        ¬isKeyValid key) := fun hc =>
      hc.elim (fun h => hp (.inl h)) fun h => h.elim (fun h => hp (.inr h)) hk'
    rw [if_neg hk', if_neg hall]
    obtain ⟨hok, hpos, hle, hroom⟩ := getBytes_spec args
    by_cases hnil : accepted args = []
    · rw [if_pos fun hc => hok.mp hc hnil, hnil]
      exact ⟨o, ho, hf⟩
    rw [if_neg (not_not.mpr (hok.mpr hnil)), ho env.check]
    obtain ⟨valSize, hsize⟩ : ∃ valSize, valSize =
      max (getBytes args).2 (o.elim 0 fun q => q.val.length) := ⟨_, rfl⟩
    have hold : ∀ p ∈ o, p.val.length ≤ valSize := fun p hpo => by
      rw [hsize, Option.mem_def.mp hpo]
      exact Nat.le_max_right _ _
    have hmax : valSize ≤ maxValSize := by
      rw [hsize]
      refine Nat.max_le.mpr ⟨hle, ?_⟩
      cases o with
      | none => exact Nat.zero_le _
      | some p => exact p.valValid
    have hv : (iFactoryAction (action args) key valSize o).valid = true :=
      decide_eq_true ⟨hk, hmax⟩
    have hput := insertHintVFactory_eq env.write env.owned hv rfl
      (fun _ => createHint_eq hv env.write) o
      (fun p hpo => getPairPtr_key ((ho 0).trans hpo)) db
    rw [← hsize, hput]
    have hlen := (action args).value_length valSize o
    have hne : (action args).value valSize o ≠ [] := by
      refine List.ne_nil_of_length_pos ?_
      rw [hlen, hsize]
      exact hpos.trans_le (Nat.le_max_left _ _)
    refine ⟨some ((iFactoryAction (action args) key valSize o).create hv env.write), fun now => ?_,
      fun n => ?_⟩
    · have hget : get key (put Pair.key
          ((iFactoryAction (action args) key valSize o).create hv env.write) db) = some _ :=
        lookup_put_self Pair.key ((iFactoryAction (action args) key valSize o).create hv env.write) db
      unfold getPairPtr
      rw [hget, Option.filter_some, if_pos (isOK_of_forever hne rfl now)]
    · have hbits := foldl_setBit (positions args) (copyPair valSize o) fun x hx hlt => by
          rw [copyPair_length, hsize]
          exact (hroom x hx hlt).trans_le (Nat.le_max_left _ _)
      have hinit : bitAt (copyPair valSize o) = f := funext fun m =>
        (bitAt_copyPair hold m).trans (hf m)
      rw [hinit] at hbits
      exact congrFun hbits n
  · rw [if_pos hk, if_pos (.inr (.inr hk))]
    exact ⟨o, ho, hf⟩

/-! ## Counting -/

/-- The ones before a position. -/
def ones (v : Key) (n : ℕ) : ℕ := (List.range n).countP (bitAt v)

theorem ones_add (v : Key) (n k : ℕ) :
    ones v (n + k) = ones v n + (List.range k).countP fun i => bitAt v (n + i) := by
  rw [ones, List.range_add, List.countP_append, List.countP_map]
  rfl

/-- The bits of a word are those of its octets. -/
theorem testBit_leValue (s : Key) (j : ℕ) : (leValue s).testBit j = bitAt s j := by
  induction s generalizing j with
  | nil => exact Nat.zero_testBit j
  | cons b s ih =>
    have hb : b.val < 2 ^ 8 := b.isLt
    have hval : leValue (b :: s) = 2 ^ 8 * leValue s + b.val := Nat.add_comm _ _
    rw [hval, Nat.testBit_two_pow_mul_add _ hb]
    by_cases hj : j < 8
    · rw [if_pos hj, bitAt, Nat.div_eq_of_lt hj, Nat.mod_eq_of_lt hj]
      rfl
    · obtain ⟨i, rfl⟩ := Nat.exists_eq_add_of_le' (Nat.not_lt.mp hj)
      rw [if_neg hj, ih, bitAt, bitAt, Nat.add_sub_cancel, Nat.add_div_right _ (by decide),
        Nat.add_mod_right]
      rfl

/-- A word of the value. -/
theorem word64_spec {v : Key} {i : ℕ} (h : 8 * i + 8 ≤ v.length) :
    ∃ w, word64 v i = some w ∧
      popcount 64 w = (List.range 64).countP fun j => bitAt v (64 * i + j) := by
  refine ⟨_, if_pos h, List.countP_congr fun j hj => ?_⟩
  have hlt := List.mem_range.mp hj
  have hdiv : (64 * i + j) / 8 = 8 * i + j / 8 := by omega
  have hmod : (64 * i + j) % 8 = j % 8 := by omega
  have hbyte : ((v.drop (8 * i)).take 8)[j / 8]? = v[8 * i + j / 8]? := by
    rw [List.getElem?_take_of_lt (by omega), List.getElem?_drop]
  rw [testBit_leValue, bitAt, bitAt, hdiv, hmod, hbyte]

/-- The loop over the words. -/
theorem foldlM_word64 (v : Key) {k : ℕ} (h : k ≤ v.length / 8) :
    (List.range k).foldlM (fun count i => (word64 v i).map fun w => count + popcount 64 w) 0 =
      some (ones v (64 * k)) := by
  induction k with
  | zero => rfl
  | succ k ih =>
    obtain ⟨w, hw, hcount⟩ := word64_spec (v := v) (i := k) (by omega)
    rw [List.range_succ, List.foldlM_append, ih (Nat.le_of_succ_le h), Nat.mul_succ, ones_add]
    simp only [List.foldlM_cons, List.foldlM_nil, hw, hcount, Option.map_some, Option.bind_eq_bind,
      Option.bind_some, Option.pure_def]

/-- The loop over the octets behind the words. -/
theorem foldlM_octets (v : Key) {k : ℕ} (h : k ≤ v.length % 8) :
    (List.range k).foldlM
      (fun count i => v[8 * (v.length / 8) + i]?.map fun x => count + popcount 8 x.val)
      (ones v (64 * (v.length / 8))) = some (ones v (64 * (v.length / 8) + 8 * k)) := by
  induction k with
  | zero => rfl
  | succ k ih =>
    have hlt : 8 * (v.length / 8) + k < v.length := by omega
    have hcount : popcount 8 v[8 * (v.length / 8) + k].val = (List.range 8).countP fun j =>
        bitAt v (64 * (v.length / 8) + 8 * k + j) := by
      refine List.countP_congr fun j hj => ?_
      have hj' := List.mem_range.mp hj
      have hdiv : (64 * (v.length / 8) + 8 * k + j) / 8 = 8 * (v.length / 8) + k := by omega
      have hmod : (64 * (v.length / 8) + 8 * k + j) % 8 = j := by omega
      rw [bitAt, hdiv, hmod, List.getElem?_eq_getElem hlt]
      rfl
    rw [List.range_succ, List.foldlM_append, ih (Nat.le_of_succ_le h), Nat.mul_succ, ← Nat.add_assoc,
      ones_add v (64 * (v.length / 8) + 8 * k) 8]
    simp only [List.foldlM_cons, List.foldlM_nil, List.getElem?_eq_getElem hlt, hcount,
      Option.map_some, Option.bind_eq_bind, Option.bind_some, Option.pure_def]

/-- `BITCOUNT` reads every octet of the value and counts its ones. -/
theorem count_eq (v : Key) : count v = some {n | bitAt v n = true}.ncard := by
  have hlen : 64 * (v.length / 8) + 8 * (v.length % 8) = 8 * v.length := by omega
  have hset : {n | bitAt v n = true} =
      ((Finset.range (8 * v.length)).filter fun n => bitAt v n = true : Finset ℕ) := by
    ext n
    rw [Finset.coe_filter, Set.mem_ofPred_eq, Set.mem_ofPred_eq, Finset.mem_range]
    refine ⟨fun hn => ⟨?_, hn⟩, And.right⟩
    by_contra hlt
    rw [bitAt_of_le (by omega)] at hn
    exact Bool.false_ne_true hn
  have hcard : {n | bitAt v n = true}.ncard = ones v (8 * v.length) := by
    rw [hset, Set.ncard_coe_finset, ones, List.countP_eq_length_filter]
    exact congrArg List.length (List.filter_congr fun n _ => Bool.decide_eq_true)
  unfold count
  dsimp only
  rw [foldlM_word64 v le_rfl, hcard, ← hlen]
  exact foldlM_octets v le_rfl

/-! ## Runs -/

/-- Write commands on a key, one after the other, each with its surroundings, its name and
its parameters behind the key. -/
def run (key : Key) (commands : List (Env × Key × List Key)) (db : Db) : Db :=
  commands.foldl (fun db c => (bitset c.1 (c.2.1 :: key :: c.2.2) db).2) db

/-- All writes of a run in their order. -/
def writes (key : Key) (commands : List (Env × Key × List Key)) : List (ℕ × Bool) :=
  commands.flatMap fun c => written (c.2.1 :: key :: c.2.2)

/-- Every run keeps the vector. -/
theorem holds_run {key : Key} (commands : List (Env × Key × List Key)) {db : Db} {f : ℕ → Bool}
    (h : Holds key db f) :
    Holds key (run key commands db) ((writes key commands).foldl assign f) := by
  induction commands generalizing db f with
  | nil => exact h
  | cons c commands ih =>
    have hrest := ih (holds_bitset c.1 c.2.1 c.2.2 h)
    rw [← List.foldl_append] at hrest
    exact hrest

/-- What a client takes a reply for. -/
def bitOfReply : Reply → Bool
  | .bool b => b
  | .number n => n ≠ 0
  | _ => false

/-- A position lies inside the value of a key, if the key has one. -/
def Inside (now : UInt64) (key : Key) (db : Db) (n : ℕ) : Prop :=
  ∀ p, getPairPtr now key db = some p → n / 8 < p.val.length

/-- Results for all elements of a list. -/
theorem mapM_eq_some_iff {α β : Type} {g : α → Option β} {t : α → β} {l : List α} :
    l.mapM g = some (l.map t) ↔ ∀ x ∈ l, g x = some (t x) := by
  induction l with
  | nil => exact iff_of_true rfl fun _ hx => absurd hx List.not_mem_nil
  | cons x l ih =>
    rw [List.mapM_cons, List.forall_mem_cons, List.map_cons, ← ih]
    cases g x with
    | none => exact iff_of_false (Option.some_ne_none _).symm fun h => Option.some_ne_none _ h.1.symm
    | some y =>
      cases l.mapM g with
      | none =>
        exact iff_of_false (Option.some_ne_none _).symm fun h => Option.some_ne_none _ h.2.symm
      | some ys =>
        simp only [Option.bind_eq_bind, Option.bind_some, Option.pure_def, Option.some.injEq,
          List.cons.injEq]

section Read

variable {key : Key} (hk : isKeyValid key) {db : Db} {f : ℕ → Bool} (h : Holds key db f)
  (now : UInt64)

include hk h

/-- `BITGET` gives the bit. -/
theorem bitget_spec (cmd n : Key) :
    ∃ r, bitget now [cmd, key, n] db = some r ∧ bitOfReply r = f (fromString 64 n 0) := by
  obtain ⟨o, ho, hf⟩ := h
  unfold bitget
  dsimp only
  rw [if_neg (not_not.mpr hk), ho now, ← hf]
  cases o with
  | none => exact ⟨.number 0, rfl, rfl⟩
  | some p =>
    have hsize : (bitOps (fromString 64 n 0)).size = fromString 64 n 0 / 8 + 1 := rfl
    rw [Option.filter_some, hsize]
    by_cases hlt : fromString 64 n 0 / 8 < p.val.length
    · rw [if_pos (decide_eq_true (Nat.succ_le_of_lt hlt))]
      dsimp only
      rw [get_of_lt hlt]
      exact ⟨_, rfl, rfl⟩
    · have hle : ¬fromString 64 n 0 / 8 + 1 ≤ p.val.length := hlt
      rw [if_neg fun hc => hle (of_decide_eq_true hc)]
      exact ⟨.number 0, rfl, (bitAt_of_le (Nat.not_lt.mp hlt)).symm⟩

/-- `BITCOUNT` gives the number of the ones. -/
theorem bitcount_spec (cmd : Key) :
    bitcount now [cmd, key] db = some (.number {n | f n = true}.ncard) := by
  obtain ⟨o, ho, hf⟩ := h
  unfold bitcount
  dsimp only
  rw [if_neg (not_not.mpr hk), ho now]
  have hset : {n | f n = true} = {n | bitAt (o.elim [] Pair.val) n = true} := by
    ext n
    rw [Set.mem_ofPred_eq, Set.mem_ofPred_eq, ← hf]
    cases o <;> rfl
  rw [hset]
  split
  · rw [count_eq]
    rfl
  · next hnil =>
    rw [not_not.mp hnil]
    have hnone : {n | bitAt [] n = true} = ∅ := Set.eq_empty_iff_forall_notMem.mpr fun n hn =>
      Bool.false_ne_true ((bitAt_of_le (Nat.zero_le _)).symm.trans hn)
    rw [hnone, Set.ncard_empty]

/-- `BITMGET` gives the bits exactly if none of them lies behind the end of the value. -/
theorem bitmget_iff (cmd : Key) {args : List Key} (hargs : args ≠ []) :
    bitmget now (cmd :: key :: args) db =
        some (.container (args.map fun n => bitText (f (fromString 64 n 0)))) ↔
      ∀ n ∈ args, Inside now key db (fromString 64 n 0) := by
  obtain ⟨o, ho, hf⟩ := h
  have hlen : ¬(cmd :: key :: args).length < 3 := by
    have := List.length_pos_iff.mpr hargs
    simp only [List.length_cons]
    omega
  unfold bitmget Inside
  dsimp only
  rw [if_neg hlen, if_neg (not_not.mpr hk), ho now]
  cases o with
  | none =>
    refine iff_of_true ?_ fun n _ p hp => absurd hp.symm (Option.some_ne_none p)
    have hzero : ∀ n ∈ args, bitText (f (fromString 64 n 0)) = [48] := fun n _ => by
      rw [← hf]
      rfl
    rw [List.map_congr_left hzero, List.map_const']
    rfl
  | some p =>
    have hall : (args.mapM fun n => ((bitOps (fromString 64 n 0)).get p.val).map bitText) =
        some (args.map fun n => bitText (f (fromString 64 n 0))) ↔
        ∀ n ∈ args, fromString 64 n 0 / 8 < p.val.length := by
      refine mapM_eq_some_iff.trans (forall₂_congr fun n _ => ?_)
      by_cases hlt : fromString 64 n 0 / 8 < p.val.length
      · rw [get_of_lt hlt, ← hf]
        exact iff_of_true rfl hlt
      · rw [get_of_le (Nat.not_lt.mp hlt)]
        exact iff_of_false (Option.some_ne_none _).symm hlt
    constructor
    · intro hc n hn q hq
      cases Option.some.inj hq
      refine hall.mp ?_ n hn
      dsimp only at hc
      cases hm : args.mapM fun n => ((bitOps (fromString 64 n 0)).get p.val).map bitText with
      | none =>
        rw [hm] at hc
        exact absurd hc.symm (Option.some_ne_none _)
      | some r =>
        rw [hm] at hc
        exact congrArg some (Reply.container.inj (Option.some.inj hc))
    · intro hc
      dsimp only
      rw [hall.mpr fun n hn => hc n hn p rfl]
      rfl

end Read

/-- After every run of write commands on a key that had no pair, `BITGET` gives the last bit
written to a position and `BITCOUNT` the number of the ones; `BITMGET` gives the bits exactly if
none of its positions lies behind the end of the value. -/
theorem bits_refine {key : Key} (hk : isKeyValid key) {db : Db}
    (hdb : ∀ now, getPairPtr now key db = none) (commands : List (Env × Key × List Key)) :
    (∀ now cmd n, ∃ r, bitget now [cmd, key, n] (run key commands db) = some r ∧
        bitOfReply r = vector (writes key commands) (fromString 64 n 0)) ∧
      (∀ now cmd, bitcount now [cmd, key] (run key commands db) =
        some (.number {n | vector (writes key commands) n = true}.ncard)) ∧
      ∀ now cmd args, args ≠ [] → (bitmget now (cmd :: key :: args) (run key commands db) =
          some (.container (args.map fun n =>
            bitText (vector (writes key commands) (fromString 64 n 0)))) ↔
        ∀ n ∈ args, Inside now key (run key commands db) (fromString 64 n 0)) := by
  have hinit : Holds key db fun _ => false := ⟨none, hdb, fun _ => rfl⟩
  have hrun := holds_run commands hinit
  exact ⟨fun now cmd n => bitget_spec hk hrun now cmd n,
    fun now cmd => bitcount_spec hk hrun now cmd,
    fun now cmd args hargs => bitmget_iff hk hrun now cmd hargs⟩

/-- One bit is written to an empty list. -/
theorem bits_refine_letter : ∃ r, bitget 0 [[], [107], [48]]
      (run [107] [(⟨true, 0, 0⟩, [], [[48], [49]])] []) = some r ∧
    bitOfReply r =
      vector (writes [107] [(⟨true, 0, 0⟩, [], [[48], [49]])]) (fromString 64 [48] 0) :=
  (bits_refine (by decide) (fun _ => rfl) [(⟨true, 0, 0⟩, [], [[48], [49]])]).1 0 [] [48]

/-- After the first bit is written, `BITMGET` of the hundredth reads behind the end of the
value. -/
theorem bits_not_refine : ¬∀ (commands : List (Env × Key × List Key)) (args : List Key), args ≠ [] →
    bitmget 0 ([] :: [107] :: args) (run [107] commands []) =
      some (.container (args.map fun n =>
        bitText (vector (writes [107] commands) (fromString 64 n 0)))) := by
  intro h
  have hnone : bitmget 0 [[], [107], [49, 48, 48]]
      (run [107] [(⟨true, 0, 0⟩, [], [[48], [49]])] []) = none := by decide +kernel
  have hc := h [(⟨true, 0, 0⟩, [], [[48], [49]])] [[49, 48, 48]] (List.cons_ne_nil _ _)
  rw [hnone] at hc
  exact Option.some_ne_none _ hc.symm

end HM4.BitSetRuns
