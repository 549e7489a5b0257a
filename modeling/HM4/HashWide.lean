import HM4.MutableXRuns
import HM4.HashListing

/-!
# Changing a whole hash

The sub keys of a hash are the keys with its name and the separator in front. The commands that
change all of them walk over the range as the others do, but answer only whether the walk came to an
end without a flush. A walk that is over its iterations comes to an end too.
-/

namespace HM4.MutableX

open LexPrefix Bytes Pairs PairFactory MemList KeyedList Database Overlay
open AccumulateResults (StopPrefixPredicate takeWhile_fromKey)
open ConcurrentFlushList (DualListEraseType)
open IndexToken (separator)
open HashListing (hashPrefix hashPrefix_eq crowd increasing_crowd hashPairs_crowd isOK_crowd
  length_crowd mem_crowd)

/-- `process_x_` that answers as a hash, with so many passes left. -/
def processPassesHash (env : Env) (p : Predicate) (stop : Key → Bool) (key : Key) :
    (passes : ℕ) → ℕ → Store → Bool × Store
  | 0, _, s => (false, s)
  | passes + 1, n, s =>
    let scan := scanKeysAndProcessInPlace env p stop 0 (find key s) s
    let (flushed, n, s') := processContainer env p scan.container n scan.store
    if flushed = true then
      if passes = 0 then (false, s') else processPassesHash env p stop key passes n s'
    else (true, s')

/-- `process_h`. -/
def processH (env : Env) (p : Predicate) (pre : Key) (s : Store) : Bool × Store :=
  if p.BIG_BUFFER = true then (true, (processBig env p (StopPrefixPredicate pre) pre s).2)
  else processPassesHash env p (StopPrefixPredicate pre) pre PASSES_PROCESS_X 0 s

/-- The commands that change a hash. -/
inductive HashCommand
  | HDELALL
  | HPERSISTALL
  | HEXPIREALL
  | HEXPIREATALL
  deriving DecidableEq

namespace HashCommand

/-- What a command does with each pair of the hash. -/
def predicate (p : List Key) : HashCommand → Predicate
  | HDELALL => .delete
  | HPERSISTALL => .persist
  | HEXPIREALL => .expire (UInt32.ofNat (fromString 32 (p.getD 2 []) 0))
  | HEXPIREATALL => .expireAt (UInt32.ofNat (fromString 32 (p.getD 2 []) 0))

/-- How many parameters a command has, and the message if it has not. -/
def params : HashCommand → ℕ × ErrorMessage
  | HDELALL => (2, .NEED_EXACT_PARAMS_1)
  | HPERSISTALL => (2, .NEED_EXACT_PARAMS_1)
  | HEXPIREALL => (3, .NEED_EXACT_PARAMS_2)
  | HEXPIREATALL => (3, .NEED_EXACT_PARAMS_2)

end HashCommand

/-- A command: its reply and the store. -/
def HashCommand.process (env : Env) (c : HashCommand) (p : List Key) (s : Store) : Reply × Store :=
  if p.length ≠ c.params.1 then (.error c.params.2, s)
  else if p.getD 1 [] = [] then (.error .EMPTY_KEY, s)
  else if ¬isKeyValid (p.getD 1 []) then (.error .INVALID_KEY_SIZE, s)
  else
    let r := processH env (c.predicate p) (hashPrefix (p.getD 1 [])) s
    (.bool r.1, r.2)

/-! ## What an answer says -/

/-- The pairs of a hash, alive or not. -/
def rangePairs (pre : Key) (s : Store) : List Pair :=
  s.view.filter fun q => decide (pre <+: q.key)

section Passes

variable {env : Env} {p : Predicate} {stop : Key → Bool} {m0 : List Pair} {key pre : Key}
  {s s' : Store}

/-- The passes change all that they see, if they come to an end without a flush. -/
theorem processPassesHash_spec (het : env.et = .TOMBSTONE ∨ env.et = .SMART_TOMBSTONE)
    (hmemory : ∀ n, (env.turn n).memory = true) {passes n : ℕ}
    (h : Passed env p (seenFrom stop key m0) m0 s) (hkeys : s.view.map Pair.key = m0.map Pair.key) :
    ∃ b s', processPassesHash env p stop key (passes + 1) n s = (b, s') ∧
      Passed env p (seenFrom stop key m0) m0 s' ∧
      (b = true → ∀ q ∈ seenFrom stop key m0, isOK env.now q = true →
        Carries (p.request env.now) env.now q (get q.key s'.view)) := by
  induction passes generalizing n s with
  | zero =>
    obtain ⟨flushed, n', s', hrun, hpassed, -, hdone, -⟩ := pass_spec het hmemory n h hkeys rfl
    unfold processPassesHash
    dsimp only
    rw [hrun]
    dsimp only
    cases flushed with
    | false => exact ⟨true, s', rfl, hpassed, fun _ => (hdone rfl).2⟩
    | true => exact ⟨false, s', rfl, hpassed, fun hb => Bool.noConfusion hb⟩
  | succ passes ih =>
    obtain ⟨flushed, n', s1, hrun, hpassed, -, hdone, hflushed⟩ :=
      pass_spec het hmemory n h hkeys rfl
    unfold processPassesHash
    dsimp only
    rw [hrun]
    dsimp only
    cases flushed with
    | false => exact ⟨true, s1, rfl, hpassed, fun _ => (hdone rfl).2⟩
    | true => exact ih hpassed (hflushed rfl).2

theorem processH_spec (het : env.et = .TOMBSTONE ∨ env.et = .SMART_TOMBSTONE)
    (hmemory : ∀ n, (env.turn n).memory = true) (hs : Timely env.now s) :
    Passed env p (seenFrom (StopPrefixPredicate pre) pre s.view) s.view
        (processH env p pre s).2 ∧
      ((processH env p pre s).1 = true →
        ∀ q ∈ seenFrom (StopPrefixPredicate pre) pre s.view, isOK env.now q = true →
          Carries (p.request env.now) env.now q (get q.key (processH env p pre s).2.view)) := by
  unfold processH
  split
  · obtain ⟨-, hpassed, hall⟩ :=
      @processBig_spec env p (StopPrefixPredicate pre) pre s het hmemory hs
    exact ⟨hpassed, fun _ => hall⟩
  · obtain ⟨b, s', hrun, hpassed, hall⟩ := @processPassesHash_spec env p (StopPrefixPredicate pre)
      s.view pre s het hmemory 2 0 (passed_start _ pre hs) rfl
    rw [PASSES_PROCESS_X, hrun]
    exact ⟨hpassed, hall⟩

/-- A walk sees the first pairs of the hash. -/
theorem seenFrom_eq_take (pre : Key) (s : Store) :
    seenFrom (StopPrefixPredicate pre) pre s.view =
      (rangePairs pre s).take ITERATIONS_PROCESS_X := by
  unfold seenFrom scope
  rw [takeWhile_fromKey s.increasing_view]
  rfl

/-- What lies behind the pairs that are seen is left. -/
theorem Passed.left (h : Passed env p (seenFrom (StopPrefixPredicate pre) pre s.view) s.view s')
    {q : Pair} (hq : q ∈ (rangePairs pre s).drop ITERATIONS_PROCESS_X) :
    get q.key s'.view = some q := by
  have hinc : Increasing Pair.key (rangePairs pre s) :=
    s.increasing_view.sublist List.filter_sublist
  have hmem : q ∈ s.view := List.mem_of_mem_filter (List.mem_of_mem_drop hq)
  refine (h.outside q.key fun x hx => ?_).trans (s.increasing_view.lookup_of_mem hmem)
  rw [seenFrom_eq_take] at hx
  rw [← List.take_append_drop ITERATIONS_PROCESS_X (rangePairs pre s)] at hinc
  exact ((Increasing.append_iff.mp hinc).2.2 x hx q hq).ne

end Passes

/-- When a pair expires, if it does. -/
def ends (p : Pair) : Option ℕ :=
  if p.expires = 0 then none else some (p.created + p.expires * 2 ^ 32)

/-- Nothing is alive, or there is the value with the expiration that is asked for. -/
def Meets (r : Option UInt32) (now : UInt64) (q : Pair) (o : Option Pair) : Prop :=
  match r with
  | none => ∀ p ∈ o, isOK now p = false
  | some exp => ∃ p ∈ o, p.val = q.val ∧ ends p = ends (withTimes q exp now)

theorem Carries.meets {r : Option UInt32} {now : UInt64} {q : Pair} {o : Option Pair}
    (h : Carries r now q o) : Meets r now q o := by
  cases r with
  | none => exact fun p hp => isOK_of_isTombstone (h p hp) now
  | some exp => exact ⟨withTimes q exp now, h, rfl, rfl⟩

/-- Each pair of the hash that was alive is as the command asks. -/
def Complete (env : Env) (p : Predicate) (pre : Key) (s s' : Store) : Prop :=
  ∀ q ∈ rangePairs pre s, isOK env.now q = true →
    Meets (p.request env.now) env.now q (get q.key s'.view)

/-- A command that answers 1 has changed the whole hash, just if behind as many pairs as it walks
over no pair is alive but those that are already as it asks. -/
theorem HashCommand.complete_iff {env : Env} (het : env.et = .TOMBSTONE ∨ env.et = .SMART_TOMBSTONE)
    (hmemory : ∀ n, (env.turn n).memory = true) {s : Store} (hs : Timely env.now s)
    (c : HashCommand) (params : List Key) (h : (c.process env params s).1 = .bool true) :
    Complete env (c.predicate params) (params.getD 1 [] ++ [separator]) s
        (c.process env params s).2 ↔
      ∀ q ∈ (rangePairs (params.getD 1 [] ++ [separator]) s).drop ITERATIONS_PROCESS_X,
        isOK env.now q = true →
          Meets ((c.predicate params).request env.now) env.now q (some q) := by
  unfold process at h ⊢
  split at h
  · exact Reply.noConfusion h
  · split at h
    · exact Reply.noConfusion h
    · next hlen hne =>
      split at h
      · exact Reply.noConfusion h
      · next hvalid =>
        rw [if_neg hlen, if_neg hne, if_neg hvalid]
        rw [hashPrefix_eq (not_not.mp hvalid)] at h ⊢
        generalize params.getD 1 [] ++ [separator] = pre at h ⊢
        obtain ⟨hpassed, hall⟩ := @processH_spec env (c.predicate params) pre s het hmemory hs
        have hdone := hall (Reply.bool.inj h)
        rw [seenFrom_eq_take] at hdone
        dsimp only
        constructor
        · intro hcomplete q hq hok
          rw [← hpassed.left hq]
          exact hcomplete q (List.mem_of_mem_drop hq) hok
        · intro hrest q hq hok
          rw [← List.take_append_drop ITERATIONS_PROCESS_X (rangePairs pre s)] at hq
          rcases List.mem_append.mp hq with hq | hq
          · exact (hdone q hq hok).meets
          · rw [hpassed.left hq]
            exact hrest q hq hok

/-! ## A hash of one pair more than a walk goes over -/

theorem increasing_crowded (n : UInt64) :
    ∀ l ∈ [[], [], crowd [49] n.toNat], Increasing Pair.key l :=
  List.forall_mem_cons.mpr ⟨List.Pairwise.nil, List.forall_mem_cons.mpr ⟨List.Pairwise.nil,
    List.forall_mem_singleton.mpr (increasing_crowd (by decide) n.toNat_lt)⟩⟩

/-- A table of so many pairs of a hash. -/
def crowded (n : UInt64) : Store where
  active := []
  saved := []
  tables := [crowd [49] n.toNat]
  version := 0
  cleared := 0
  increasing := increasing_crowded n

/-- No write flushes a list. -/
def calm : Env where
  et := .TOMBSTONE
  now := 0
  owns := fun _ => false
  hint := fun _ => ⟨false, true, true⟩
  turn := fun _ => ⟨false, true, true⟩

section Crowded

variable (n : UInt64)

theorem rangePairs_crowded :
    rangePairs ([107] ++ [separator]) (crowded n) = crowd [49] n.toNat := by
  have hview : (crowded n).view = crowd [49] n.toNat :=
    overlay_nil (increasing_crowd (by decide) n.toNat_lt)
  rw [rangePairs, hview]
  exact hashPairs_crowd n.toNat

theorem length_rangePairs_crowded :
    (rangePairs ([107] ++ [separator]) (crowded n)).length = n.toNat := by
  rw [rangePairs_crowded, length_crowd (by decide)]

theorem timely_crowded : Timely calm.now (crowded n) := by
  intro l hl p hp
  simp only [crowded, List.mem_cons, List.not_mem_nil, or_false] at hl
  rcases hl with rfl | rfl | rfl
  · simp at hp
  · simp at hp
  · obtain ⟨-, -, hcreated, -⟩ := mem_crowd hp
    exact hcreated.le

theorem HDELALL_crowded :
    (HashCommand.HDELALL.process calm [[], [107]] (crowded n)).1 = .bool true := rfl

theorem HDELALL_left {q : Pair}
    (hq : q ∈ (rangePairs ([107] ++ [separator]) (crowded n)).drop ITERATIONS_PROCESS_X) :
    get q.key (HashCommand.HDELALL.process calm [[], [107]] (crowded n)).2.view = some q := by
  have hprocess : (HashCommand.HDELALL.process calm [[], [107]] (crowded n)).2 =
      (processH calm .delete (hashPrefix [107]) (crowded n)).2 := rfl
  have hkey : isKeyValid [107] := ⟨by decide, by decide⟩
  have hpassed := (@processH_spec calm .delete ([107] ++ [separator]) (crowded n) (.inl rfl)
    (fun _ => rfl) (timely_crowded n)).1
  rw [hprocess, hashPrefix_eq hkey]
  exact hpassed.left hq

end Crowded

/-- `HDELALL` of a hash that is not too large. -/
theorem complete_two : Complete calm .delete ([107] ++ [separator]) (crowded 2)
    (HashCommand.HDELALL.process calm [[], [107]] (crowded 2)).2 := by
  refine (HashCommand.complete_iff (.inl rfl) (fun _ => rfl) (timely_crowded 2) .HDELALL
    [[], [107]] (HDELALL_crowded 2)).mpr fun q hq => ?_
  have hshort : (rangePairs ([107] ++ [separator]) (crowded 2)).length ≤ ITERATIONS_PROCESS_X := by
    rw [length_rangePairs_crowded]
    decide
  exact absurd (List.drop_eq_nil_of_le hshort ▸ hq) (by simp)

/-- `HDELALL` answers 1, and the last of the pairs is left. -/
theorem not_complete :
    (HashCommand.HDELALL.process calm [[], [107]] (crowded 65536)).1 = .bool true ∧
      ¬Complete calm .delete ([107] ++ [separator]) (crowded 65536)
        (HashCommand.HDELALL.process calm [[], [107]] (crowded 65536)).2 := by
  refine ⟨HDELALL_crowded 65536, fun hcomplete => ?_⟩
  have hlen := length_rangePairs_crowded 65536
  obtain ⟨q, hq⟩ : ∃ q, q ∈ (rangePairs ([107] ++ [separator]) (crowded 65536)).drop
      ITERATIONS_PROCESS_X := by
    refine List.exists_mem_of_length_pos ?_
    rw [List.length_drop, hlen]
    decide
  have hmem := List.mem_of_mem_drop hq
  have hok : isOK calm.now q = true := by
    rw [rangePairs_crowded] at hmem
    rw [isOK_crowd hmem]
    decide
  have hdead := hcomplete q hmem hok q (HDELALL_left 65536 hq)
  rw [hdead] at hok
  exact Bool.noConfusion hok

end HM4.MutableX
