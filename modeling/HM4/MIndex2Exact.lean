import HM4.MIndex2Search
import HM4.AutocompleteRuns

/-!
# Searches for tokens are exact

The names that all tokens have are found each once and in their order, page by page, as long as
the budget is not spent. What is shown of a name is what is behind its sort key.
-/

namespace HM4.MIndex2

open LexPrefix Bytes Pairs KeyedList Database IndexToken AccumulateResults Lanes
open Autocomplete (extractNth extractLoop)

/-! ## Keys -/

/-- The key of a name under a token. -/
def word (keyN index r : Key) : Key := keyN ++ separator :: (index ++ separator :: r)

theorem word_eq_append (keyN index r : Key) :
    word keyN index r = (keyN ++ separator :: (index ++ [separator])) ++ r := by
  rw [word, List.append_assoc, List.cons_append, List.append_assoc, List.singleton_append]

theorem append_le_append_iff {front r r' : Key} : front ++ r ≤ front ++ r' ↔ r ≤ r' := by
  rw [← lex_ne_gt, lex_append_left, lex_ne_gt]

theorem word_le_word {keyN index r r' : Key} : word keyN index r ≤ word keyN index r' ↔ r ≤ r' := by
  rw [word_eq_append, word_eq_append, append_le_append_iff]

theorem word_lt_word {keyN index r r' : Key} : word keyN index r < word keyN index r' ↔ r < r' := by
  rw [lt_iff_not_ge, lt_iff_not_ge, word_le_word]

theorem makeKeyDataSearch_eq {keyN index : Key}
    (h : keyN.length + index.length + 2 ≤ bufferKeySize) :
    makeKeyDataSearch keyN index = keyN ++ separator :: (index ++ [separator]) :=
  Autocomplete.makeKeyDataSearch_eq h

theorem startOf_eq {keyN index keyStart : Key}
    (h : (word keyN index keyStart).length ≤ bufferKeySize) :
    startOf keyN index keyStart = word keyN index keyStart := by
  have hlen : keyN.length + index.length + keyStart.length + 2 ≤ bufferKeySize := by
    simp only [word, List.length_append, List.length_cons] at h
    omega
  unfold startOf
  split
  · next hnil =>
    subst hnil
    rw [makeKeyDataSearch_eq (by omega), word]
  · rw [makeKeyDataStart, concatenateBuffer_eq]
    · simp only [word, List.flatten_cons, List.flatten_nil, List.append_nil, List.cons_append,
        List.nil_append]
    · simp only [List.map_cons, List.map_nil, List.sum_cons, List.sum_nil, List.length_cons,
        List.length_nil]
      omega

/-- What is behind some separators begins with the rest of what they are in. -/
theorem exists_extractLoop {nth : ℕ} {sep : Byte} {s : Key} {count : ℕ}
    (h : nth ≤ count + s.count sep) (hcount : count < nth) :
    ∃ front, ∀ r, extractLoop nth sep count (s ++ r) = front ++ r := by
  induction s generalizing count with
  | nil =>
    rw [List.count_nil] at h
    omega
  | cons c s ih =>
    by_cases hc : c = sep
    · rw [hc, List.count_cons_self] at h
      by_cases hnth : count + 1 = nth
      · refine ⟨s, fun r => ?_⟩
        rw [List.cons_append, extractLoop, if_pos hc, if_pos hnth]
      · obtain ⟨front, hfront⟩ := @ih (count + 1) (by omega) (by omega)
        refine ⟨front, fun r => ?_⟩
        rw [List.cons_append, extractLoop, if_pos hc, if_neg hnth, hfront]
    · rw [List.count_cons_of_ne hc] at h
      obtain ⟨front, hfront⟩ := ih h hcount
      refine ⟨front, fun r => ?_⟩
      rw [List.cons_append, extractLoop, if_neg hc, hfront]

theorem exists_extractNth (keyN index : Key) :
    ∃ front, ∀ r, extractNth (3 - 1) separator (word keyN index r) = front ++ r := by
  have hcount : 2 ≤ 0 + (keyN ++ separator :: (index ++ [separator])).count separator := by
    rw [List.count_append, List.count_cons_self, List.count_append, List.count_singleton_self]
    omega
  obtain ⟨front, hfront⟩ := exists_extractLoop hcount Nat.zero_lt_two
  refine ⟨front, fun r => ?_⟩
  rw [word_eq_append]
  exact hfront r

section Extract

variable {keyN index : Key} (hN : separator ∉ keyN) (hindex : separator ∉ index) (r : Key)

include hN hindex in
theorem extractNth_two : extractNth (3 - 1) separator (word keyN index r) = r := by
  rw [extractNth, word, Autocomplete.extractLoop_append hN, if_neg (by decide),
    Autocomplete.extractLoop_append hindex, if_pos rfl]

theorem extractLoop_shift (r : Key) (count : ℕ) :
    extractLoop (count + 3) separator (count + 2) r = extractLoop 1 separator 0 r := by
  induction r with
  | nil => rfl
  | cons c r ih =>
    rw [extractLoop, extractLoop]
    by_cases hc : c = separator
    · rw [if_pos hc, if_pos hc, if_pos rfl, if_pos rfl]
    · rw [if_neg hc, if_neg hc, ih]

include hN hindex in
theorem extractNth_three :
    extractNth 3 separator (word keyN index r) = FTSIntersector.fixItem r := by
  rw [extractNth, word, Autocomplete.extractLoop_append hN, if_neg (by decide),
    Autocomplete.extractLoop_append hindex, if_neg (by decide)]
  exact extractLoop_shift r 0

end Extract

/-! ## The lane of a token -/

section Lane

variable {check : Key → UInt64} {keyN keyStart : Key} {db : Db} (hdb : Increasing Pair.key db)
  (hN : separator ∉ keyN) {index : Key} (hindex : separator ∉ index)
  (hfits : (word keyN index keyStart).length ≤ bufferKeySize)

/-- The pairs of a token from a start on. -/
def under (keyN index keyStart : Key) (db : Db) : List Pair :=
  fromKey Pair.key (word keyN index keyStart)
    (db.filter fun p => decide (keyN ++ separator :: (index ++ [separator]) <+: p.key))

theorem exists_word {p : Pair} (hp : p ∈ under keyN index keyStart db)
    (hdb : Increasing Pair.key db) : ∃ r, p.key = word keyN index r ∧ p ∈ db ∧ keyStart ≤ r := by
  have hinc : Increasing Pair.key (db.filter fun p =>
      decide (keyN ++ separator :: (index ++ [separator]) <+: p.key)) :=
    hdb.sublist List.filter_sublist
  obtain ⟨hmem, hle⟩ := hinc.mem_fromKey.mp hp
  obtain ⟨hin, hpre⟩ := List.mem_filter.mp hmem
  obtain ⟨r, hr⟩ := of_decide_eq_true hpre
  have hkey : p.key = word keyN index r := by rw [word_eq_append, hr]
  rw [hkey] at hle
  exact ⟨r, hkey, hin, word_le_word.mp hle⟩

include hfits in
theorem makeKeyDataSearch_fits :
    makeKeyDataSearch keyN index = keyN ++ separator :: (index ++ [separator]) := by
  refine makeKeyDataSearch_eq ?_
  simp only [word, List.length_append, List.length_cons] at hfits
  omega

include hdb hfits in
theorem takeWhile_under :
    ((fromKey Pair.key (startOf keyN index keyStart) db).takeWhile fun p =>
        !StopPrefixPredicate (makeKeyDataSearch keyN index) p.key) =
      under keyN index keyStart db := by
  rw [makeKeyDataSearch_fits hfits, startOf_eq hfits, under]
  exact takeWhile_fromKey_of_isPrefix hdb
    (word_eq_append keyN index keyStart ▸ List.prefix_append _ _)

include hdb hfits in
theorem startLane_eq : startLane check keyN keyStart db index =
    (under keyN index keyStart db).map fun p =>
      (extractNth (3 - 1) separator p.key, isOK (check p.key) p) := by
  rw [startLane, entries, takeWhile_under hdb hfits]

include hdb hfits in
theorem sorted_startLane : Sorted (startLane check keyN keyStart db index) := by
  rw [startLane_eq hdb hfits, Sorted, List.pairwise_map]
  have hinc : Increasing Pair.key (under keyN index keyStart db) :=
    (hdb.sublist List.filter_sublist).sublist (List.dropWhile_suffix _).sublist
  refine hinc.imp_of_mem fun {p q} hp hq hlt => ?_
  obtain ⟨r, hr, -⟩ := exists_word hp hdb
  obtain ⟨r', hr', -⟩ := exists_word hq hdb
  obtain ⟨front, hfront⟩ := exists_extractNth keyN index
  rw [hr, hr', word_lt_word] at hlt
  dsimp only
  rw [hr, hr', hfront, hfront, lt_iff_not_ge, append_le_append_iff, ← lt_iff_not_ge]
  exact hlt

include hdb hN hindex hfits in
/-- The live names of a lane are those of live pairs from the start on. -/
theorem live_startLane {r : Key} : Live (startLane check keyN keyStart db index) r ↔
    keyStart ≤ r ∧ ∃ p ∈ db, p.key = word keyN index r ∧ isOK (check p.key) p = true := by
  rw [startLane_eq hdb hfits, Live, List.mem_map]
  constructor
  · rintro ⟨p, hp, heq⟩
    obtain ⟨r', hr', hmem, hle⟩ := exists_word hp hdb
    obtain ⟨hname, hok⟩ := Prod.mk.inj heq
    rw [hr', extractNth_two hN hindex] at hname
    exact hname ▸ ⟨hle, p, hmem, hr', hok⟩
  · rintro ⟨hle, p, hmem, hkey, hok⟩
    have hinc : Increasing Pair.key (db.filter fun p =>
        decide (keyN ++ separator :: (index ++ [separator]) <+: p.key)) :=
      hdb.sublist List.filter_sublist
    refine ⟨p, hinc.mem_fromKey.mpr
      ⟨List.mem_filter.mpr ⟨hmem, decide_eq_true ?_⟩, ?_⟩, ?_⟩
    · rw [hkey, word_eq_append]
      exact List.prefix_append _ _
    · rw [hkey]
      exact word_le_word.mpr hle
    · rw [hok, hkey, extractNth_two hN hindex]

end Lane

/-! ## Searches for several tokens -/

section Search

variable {check : Key → UInt64} {keyN : Key} {tokens : List Key} {keyStart : Key} {db : Db}
  (hlanes : ∀ index ∈ tokens, Sorted (startLane check keyN keyStart db index))
  (htokens : tokens ≠ []) (hmany : tokens.length ≠ 1) (maxIterations count : ℕ)
  {common : List Key} (hcommon : common.Pairwise (· < ·))
  (hmem : ∀ r, r ∈ common ↔ Common (tokens.map (startLane check keyN keyStart db)) r)

include hlanes in
theorem sorted_lanes : ∀ l ∈ tokens.map (startLane check keyN keyStart db), Sorted l := by
  intro l hl
  obtain ⟨index, hindex, rfl⟩ := List.mem_map.mp hl
  exact hlanes index hindex

include hmany in
theorem rangeM_of_some {maxIterations count : ℕ} {fts : FTSIntersector}
    (h : pushAll check keyN keyStart db tokens ⟨[], true, ⟨maxIterations, 0⟩⟩ = some fts) :
    rangeM check maxIterations keyN tokens count keyStart db =
      .container (collect check count fts) := by
  unfold rangeM
  split
  · exact absurd rfl hmany
  · rw [h]

include hmany in
theorem rangeM_of_none {maxIterations count : ℕ}
    (h : pushAll check keyN keyStart db tokens ⟨[], true, ⟨maxIterations, 0⟩⟩ = none) :
    rangeM check maxIterations keyN tokens count keyStart db = .container [[]] := by
  unfold rangeM
  split
  · exact absurd rfl hmany
  · rw [h]

include hlanes htokens hmany in
/-- A search has the cursors of all tokens, or its budget is spent before. -/
theorem rangeM_cases :
    (∃ fts, rangeM check maxIterations keyN tokens count keyStart db =
        .container (collect check count fts) ∧ fts.ok = true ∧
      Ready maxIterations (tokens.map (startLane check keyN keyStart db)) check 0 none fts) ∨
    (rangeM check maxIterations keyN tokens count keyStart db = .container [[]] ∧
      ∀ r, Common (tokens.map (startLane check keyN keyStart db)) r →
        ¬Affordable maxIterations (tokens.map (startLane check keyN keyStart db)) 0 none r) := by
  have hstart : tokens.map (startLane check keyN keyStart db) ≠ [] :=
    fun hnil => htokens (List.map_eq_nil_iff.mp hnil)
  have hpush := @pushAll_spec check keyN keyStart db maxIterations []
    ⟨[], true, ⟨maxIterations, 0⟩⟩ tokens hlanes
    ⟨rfl, rfl, fun _ hip => absurd hip List.not_mem_nil, .nil, rfl, .inr rfl⟩
    fun _ hl => absurd hl List.not_mem_nil
  rw [List.nil_append] at hpush
  rcases hpush with ⟨fts, hfts, hpushed⟩ | ⟨hnone, hlost⟩
  · refine .inl ⟨fts, rangeM_of_some hmany hfts, ?_, hpushed.ready hstart⟩
    have hlen := hpushed.cuts.length_eq
    rw [FTSIntersector.ok, hpushed.active, Bool.true_and]
    cases hcontainer : fts.container with
    | nil =>
      rw [hcontainer] at hlen
      exact absurd (List.eq_nil_of_length_eq_zero hlen) hstart
    | cons ip rest => rfl
  · refine .inr ⟨rangeM_of_none hmany hnone, fun r hr => ?_⟩
    have hle := hlost r hr
    rintro (⟨-, hlt⟩ | hlt)
    · rw [Nat.zero_sub, Nat.mul_zero] at hlt
      omega
    · rw [Nat.mul_zero] at hlt
      omega

include hlanes htokens hmany hcommon hmem

/-- A search for several tokens answers with a page. -/
theorem rangeM_page (hne : [] ∉ common) :
    ∃ answer, rangeM check maxIterations keyN tokens count keyStart db = .container answer ∧
      Page maxIterations (tokens.map (startLane check keyN keyStart db)) 0 none common count
        answer := by
  rcases rangeM_cases hlanes htokens hmany maxIterations count with
    ⟨fts, hfts, hok, hready⟩ | ⟨hanswer, hnot⟩
  · refine ⟨_, hfts, collect_page (sorted_lanes hlanes)
      (fun hnil => htokens (List.map_eq_nil_iff.mp hnil)) (fun r hr hnil => ?_) (.inl hready) hok
      hcommon fun r => ?_⟩
    · exact hne ((hmem []).mpr (hnil ▸ hr))
    · rw [hmem, and_iff_left (after_none r)]
  · refine ⟨_, hanswer, ?_⟩
    cases common with
    | nil => exact .last
    | cons r rest => exact .short (hnot r ((hmem r).mp List.mem_cons_self))

/-- A search shows nothing if all tokens have an empty name. -/
theorem rangeM_of_nil_mem (hnil : [] ∈ common) :
    rangeM check maxIterations keyN tokens count keyStart db = .container [[]] := by
  rcases rangeM_cases hlanes htokens hmany maxIterations count with
    ⟨fts, hfts, hok, hready⟩ | ⟨hanswer, -⟩
  · have hmem' : ∀ r, r ∈ common ↔
        Common (tokens.map (startLane check keyN keyStart db)) r ∧ After none r := fun r => by
      rw [hmem, and_iff_left (after_none r)]
    have hcall : (fts.call check).1 = [] := by
      rcases @call_cases maxIterations (tokens.map (startLane check keyN keyStart db)) check 0 count
        none fts common (sorted_lanes hlanes)
        (fun hnil => htokens (List.map_eq_nil_iff.mp hnil)) (.inl hready) hcommon hmem' with
        ⟨r, rest, heq, hcall, -⟩ | ⟨hcall, -⟩
      · rw [hcall]
        rw [heq] at hnil hcommon
        rcases List.mem_cons.mp hnil with hr | hrest
        · exact hr.symm
        · exact absurd ((List.pairwise_cons.mp hcommon).1 [] hrest) (List.not_lt_nil r)
      · exact hcall
    rw [hfts]
    cases count with
    | zero => rw [collect_zero, if_neg (not_not.mpr hok), if_pos hcall]
    | succ count => rw [collect_succ, if_neg (not_not.mpr hok), if_pos hcall]
  · exact hanswer

end Search

/-! ## Exact searches -/

section Exact

variable (check : Key → UInt64) (keyN : Key) (tokens : List Key) (keyStart : Key) (db : Db)

/-- The names from a start on that are live under each of some tokens, in their order. -/
structure Listed (common : List Key) : Prop where
  sorted : common.Pairwise (· < ·)
  mem : ∀ r, r ∈ common ↔ keyStart ≤ r ∧ ∀ index ∈ tokens, ∃ p ∈ db,
    p.key = word keyN index r ∧ isOK (check p.key) p = true

/-- What is known of a search: the list is sorted, the set and the tokens are without separators,
the keys fit into their buffers, and no key ends behind a token. -/
structure Sound : Prop where
  increasing : Increasing Pair.key db
  set : separator ∉ keyN
  token : ∀ index ∈ tokens, separator ∉ index
  fits : ∀ index ∈ tokens, (word keyN index keyStart).length ≤ bufferKeySize
  named : ∀ p ∈ db, ∀ index ∈ tokens, p.key ≠ word keyN index []
  tokens_ne : tokens ≠ []

/-- The budget of a search is not spent before its page is full. -/
def WithinBudget (maxIterations count : ℕ) (common : List Key) : Prop :=
  match tokens with
  | [index] => (startLane check keyN keyStart db index).length < Queue.ITERATIONS_LOOPS_MAX ∨
      ∃ r, common[count]? = some r ∧
        upTo (startLane check keyN keyStart db index) r ≤ Queue.ITERATIONS_LOOPS_MAX
  | tokens => AllAffordable maxIterations (tokens.map (startLane check keyN keyStart db)) 0 none
      (common.take (count + 1))

variable {check keyN tokens keyStart db} {common : List Key}

theorem common_startLane (h : Sound keyN tokens keyStart db) (r : Key) :
    Common (tokens.map (startLane check keyN keyStart db)) r ↔ keyStart ≤ r ∧
      ∀ index ∈ tokens, ∃ p ∈ db, p.key = word keyN index r ∧ isOK (check p.key) p = true := by
  have hlive {index : Key} (hindex : index ∈ tokens) :=
    @live_startLane check keyN keyStart db h.increasing h.set index (h.token index hindex)
      (h.fits index hindex) r
  constructor
  · intro hcommon
    obtain ⟨index, hindex⟩ := List.exists_mem_of_ne_nil tokens h.tokens_ne
    have hall {index : Key} (hindex : index ∈ tokens) :=
      (hlive hindex).mp (hcommon _ (List.mem_map_of_mem hindex))
    exact ⟨(hall hindex).1, fun index hindex => (hall hindex).2⟩
  · rintro ⟨hle, hall⟩ l hl
    obtain ⟨index, hindex, rfl⟩ := List.mem_map.mp hl
    exact (hlive hindex).mpr ⟨hle, hall index hindex⟩

/-- A search for several tokens answers with a page. -/
theorem Sound.rangeM_page (h : Sound keyN tokens keyStart db) (hmany : tokens.length ≠ 1)
    (maxIterations count : ℕ) (hcommon : Listed check keyN tokens keyStart db common) :
    ∃ answer, rangeM check maxIterations keyN tokens count keyStart db = .container answer ∧
      Page maxIterations (tokens.map (startLane check keyN keyStart db)) 0 none common count
        answer := by
  refine MIndex2.rangeM_page (fun index hindex => sorted_startLane h.increasing
    (h.fits index hindex)) h.tokens_ne hmany maxIterations count hcommon.sorted (fun r => ?_) ?_
  · rw [hcommon.mem, common_startLane h]
  · intro hnil
    obtain ⟨index, hindex⟩ := List.exists_mem_of_ne_nil tokens h.tokens_ne
    obtain ⟨p, hp, hkey, -⟩ := ((hcommon.mem []).mp hnil).2 index hindex
    exact h.named p hp index hindex hkey

/-- The live names of the pairs of a token. -/
def liveNames (check : Key → UInt64) (pairs : List Pair) : List Key :=
  (pairs.filter fun p => isOK (check p.key) p).map fun p => extractNth (3 - 1) separator p.key

theorem liveNames_append (pairs pairs' : List Pair) :
    liveNames check (pairs ++ pairs') = liveNames check pairs ++ liveNames check pairs' := by
  rw [liveNames, List.filter_append, List.map_append, liveNames, liveNames]

theorem liveNames_cons {p : Pair} (h : isOK (check p.key) p = true) (pairs : List Pair) :
    liveNames check (p :: pairs) = extractNth (3 - 1) separator p.key :: liveNames check pairs := by
  rw [liveNames, List.filter_cons, if_pos h, List.map_cons, liveNames]

theorem mem_liveNames {pairs : List Pair} {r : Key} :
    r ∈ liveNames check pairs ↔ Live (pairs.map fun p =>
      (extractNth (3 - 1) separator p.key, isOK (check p.key) p)) r := by
  rw [liveNames, List.mem_map, Live, List.mem_map]
  constructor
  · rintro ⟨p, hp, rfl⟩
    obtain ⟨hmem, hok⟩ := List.mem_filter.mp hp
    exact ⟨p, hmem, Prod.ext rfl hok⟩
  · rintro ⟨p, hp, heq⟩
    obtain ⟨hname, hok⟩ := Prod.mk.inj heq
    exact ⟨p, List.mem_filter.mpr ⟨hp, hok⟩, hname⟩

/-- The names that are listed for one token. -/
theorem Listed.eq_liveNames {index : Key} (h : Sound keyN [index] keyStart db)
    (hcommon : Listed check keyN [index] keyStart db common) :
    common = liveNames check (under keyN index keyStart db) := by
  have hin : index ∈ [index] := List.mem_singleton_self index
  have hfits := h.fits index hin
  have hmem : ∀ r, r ∈ common ↔ r ∈ liveNames check (under keyN index keyStart db) := by
    intro r
    have hcommonIff := @common_startLane check _ _ _ _ h r
    rw [List.map_singleton, Common, List.forall_mem_singleton] at hcommonIff
    rw [hcommon.mem, ← hcommonIff, startLane_eq h.increasing hfits, mem_liveNames]
  have hsorted : (liveNames check (under keyN index keyStart db)).Pairwise (· < ·) := by
    have hlane := @sorted_startLane check keyN keyStart db h.increasing index hfits
    rw [startLane_eq h.increasing hfits, Sorted, List.pairwise_map] at hlane
    exact List.pairwise_map.mpr (hlane.sublist List.filter_sublist)
  have hperm : common.Perm (liveNames check (under keyN index keyStart db)) :=
    (List.perm_ext_iff_of_nodup (hcommon.sorted.imp fun h => h.ne)
      (hsorted.imp fun h => h.ne)).mpr hmem
  exact hperm.eq_of_pairwise (fun x y _ _ hxy hyx => absurd hxy (lt_asymm hyx)) hcommon.sorted
    hsorted

/-- What the pairs of a token show. -/
theorem flatMap_live {index : Key} (h : Sound keyN tokens keyStart db) (hin : index ∈ tokens)
    {pairs : List Pair} (hpairs : pairs ⊆ under keyN index keyStart db) :
    (pairs.filter fun p => isOK (check p.key) p).flatMap
      (fun p => [extractNth 3 separator p.key, [49]]) = (liveNames check pairs).flatMap shown := by
  rw [liveNames, List.flatMap_map]
  refine List.flatMap_congr fun p hp => ?_
  obtain ⟨r, hr, -, -⟩ := exists_word (hpairs (List.mem_of_mem_filter hp)) h.increasing
  rw [shown, hr, extractNth_two h.set (h.token index hin),
    extractNth_three h.set (h.token index hin)]

/-- What a walk over the pairs of a token comes to. -/
structure Walked (check : Key → UInt64) (keyN index : Key) (count : ℕ) (keyStart : Key) (db : Db)
    (seen ahead rest : List Pair) (tail : Key) : Prop where
  it : fromKey Pair.key (startOf keyN index keyStart) db = seen ++ rest
  ahead_eq : ahead =
    rest.takeWhile fun p => !StopPrefixPredicate (makeKeyDataSearch keyN index) p.key
  under_eq : under keyN index keyStart db = seen ++ ahead
  length_le : seen.length ≤ Queue.ITERATIONS_LOOPS_MAX
  count_le : (liveNames check seen).length ≤ count
  shows : range1 check keyN index count keyStart db =
    .container ((liveNames check seen).flatMap shown ++
      [if tail = [] then [] else extractNth 2 separator tail])
  exit : Exit (some count) (StopPrefixPredicate (makeKeyDataSearch keyN index))
    (fun p => isOK (check p.key) p) 0 0 seen rest tail

theorem exists_walked {index : Key} (h : Sound keyN tokens keyStart db) (hin : index ∈ tokens)
    (count : ℕ) : ∃ seen ahead rest tail,
      Walked check keyN index count keyStart db seen ahead rest tail := by
  have hunder := @takeWhile_under keyN keyStart db h.increasing index (h.fits index hin)
  have hwalk : ∀ (s : List Key) (p : Pair),
      (fun container (p : Pair) => (true, container ++ [extractNth 3 separator p.key, [49]])) s p =
        (true, s ++ [extractNth 3 separator p.key, [49]]) := fun _ _ => rfl
  obtain ⟨seen, rest, hit, hseen, hlen, hcount, hfold, hexit⟩ :=
    @sharedAccumulatePairs_exit _ (some count)
      (StopPrefixPredicate (makeKeyDataSearch keyN index)) (fun p => isOK (check p.key) p) _ _
      hwalk 0 0 (fromKey Pair.key (startOf keyN index keyStart) db) [] (Nat.zero_le _)
      fun _ _ => Nat.zero_le _
  have htake : under keyN index keyStart db = seen ++ rest.takeWhile fun p =>
      !StopPrefixPredicate (makeKeyDataSearch keyN index) p.key := by
    rw [← hunder, hit, List.takeWhile_append_of_pos]
    intro p hp
    rw [hseen p hp, Bool.not_false]
  refine ⟨seen, _, rest, _, hit, rfl, htake, ?_, ?_, ?_, hexit⟩
  · rw [Nat.zero_add] at hlen
    exact hlen
  · rw [liveNames, List.length_map]
    have hle := hcount count rfl
    rwa [Nat.zero_add] at hle
  · rw [range1, hfold, List.foldl_append_eq_append, List.nil_append, ← List.flatMap_def,
      flatMap_live h hin]
    exact fun p hp => htake ▸ List.mem_append_left _ hp

/-- The entries in front of a live value are all counted up to it. -/
theorem length_lt_upTo {front back : Lane Key} {r : Key} (hsorted : Sorted (front ++ back))
    (hr : Live back r) : front.length < upTo (front ++ back) r := by
  have hfront : upTo front r = front.length := List.countP_eq_length.mpr fun e he =>
    decide_eq_true ((List.pairwise_append.mp hsorted).2.2 e he _ hr).le
  have hback : 0 < upTo back r := upTo_pos hr
  rw [upTo, List.countP_append]
  rw [upTo] at hfront hback
  omega

/-- A search for one token within its budget. -/
theorem range1_eq {index : Key} (h : Sound keyN [index] keyStart db) {count maxIterations : ℕ}
    (hcommon : Listed check keyN [index] keyStart db common)
    (hbudget : WithinBudget check keyN [index] keyStart db maxIterations count common) :
    range1 check keyN index count keyStart db =
      .container ((common.take count).flatMap shown ++ [(common.drop count).headD []]) := by
  have hin : index ∈ [index] := List.mem_singleton_self index
  obtain ⟨seen, ahead, rest, tail, hwalk⟩ := @exists_walked check _ _ _ _ _ h hin count
  have hnames : common = liveNames check seen ++ liveNames check ahead := by
    rw [hcommon.eq_liveNames h, hwalk.under_eq, liveNames_append]
  have hlane : startLane check keyN keyStart db index = (seen ++ ahead).map fun p =>
      (extractNth (3 - 1) separator p.key, isOK (check p.key) p) := by
    rw [startLane_eq h.increasing (h.fits index hin), hwalk.under_eq]
  have hended (hnil : ahead = []) : (liveNames check seen).flatMap shown ++ [[]] =
      (common.take count).flatMap shown ++ [(common.drop count).headD []] := by
    have heq : common = liveNames check seen := by
      rw [hnames, hnil]
      exact List.append_nil _
    rw [heq, List.take_of_length_le hwalk.count_le, List.drop_of_length_le hwalk.count_le]
    rfl
  rw [hwalk.shows]
  have hahead := hwalk.ahead_eq
  cases hwalk.exit with
  | ended =>
    rw [if_pos rfl, hended hahead]
  | stopped _ hstop =>
    rw [List.takeWhile_cons, hstop, Bool.not_true, if_neg Bool.false_ne_true] at hahead
    rw [if_pos rfl, hended hahead]
  | spent hspent =>
    rw [Nat.zero_add] at hspent
    rcases hbudget with hlt | ⟨r, hr, hle⟩
    · rw [hlane, List.length_map, List.length_append] at hlt
      omega
    · rw [hnames, List.getElem?_append_right hwalk.count_le] at hr
      have hsorted := @sorted_startLane check keyN keyStart db h.increasing index
        (h.fits index hin)
      rw [hlane, List.map_append] at hsorted hle
      have hlt := length_lt_upTo hsorted (mem_liveNames.mp (List.mem_of_getElem? hr))
      rw [List.length_map] at hlt
      omega
  | @full p rest _ go live hfull =>
    obtain ⟨n, hn, hle⟩ := hfull
    obtain rfl := Option.mem_some.mp hn
    have hlen : (liveNames check seen).length = count := by
      have hle' := hwalk.count_le
      rw [liveNames, List.length_map] at hle' ⊢
      omega
    rw [List.takeWhile_cons, go, Bool.not_false, if_pos rfl] at hahead
    have hp : p ∈ under keyN index keyStart db := by
      rw [hwalk.under_eq, hahead]
      exact List.mem_append_right _ List.mem_cons_self
    obtain ⟨r, hr, -, -⟩ := exists_word hp h.increasing
    have hne : p.key ≠ [] := by
      rw [hr, word]
      exact List.append_ne_nil_of_right_ne_nil _ (List.cons_ne_nil _ _)
    have hfirst : liveNames check ahead = extractNth (3 - 1) separator p.key ::
        liveNames check (rest.takeWhile fun p =>
          !StopPrefixPredicate (makeKeyDataSearch keyN index) p.key) := by
      rw [hahead, liveNames_cons live]
    rw [if_neg hne, hnames, hfirst, List.take_left' hlen, List.drop_left' hlen]
    rfl

/-- What a page shows of some names: so many of them, and the name behind them. -/
def page (count : ℕ) (common : List Key) : List Key :=
  (common.take count).flatMap shown ++ [(common.drop count).headD []]

theorem rangeM_eq (h : Sound keyN tokens keyStart db) {maxIterations count : ℕ}
    (hcommon : Listed check keyN tokens keyStart db common)
    (hbudget : WithinBudget check keyN tokens keyStart db maxIterations count common) :
    rangeM check maxIterations keyN tokens count keyStart db = .container (page count common) := by
  by_cases hone : tokens.length = 1
  · obtain ⟨index, rfl⟩ := List.length_eq_one_iff.mp hone
    exact range1_eq h hcommon hbudget
  · have hall : AllAffordable maxIterations (tokens.map (startLane check keyN keyStart db)) 0 none
        (common.take (count + 1)) := by
      unfold WithinBudget at hbudget
      split at hbudget
      · exact absurd rfl hone
      · exact hbudget
    obtain ⟨answer, hanswer, hpage⟩ := h.rangeM_page hone maxIterations count hcommon
    rw [hanswer, hpage.eq_of_affordable hall, page]

/-- The names from a name on. -/
theorem Listed.drop (h : Listed check keyN tokens keyStart db common) {count : ℕ} {next : Key}
    (hnext : next ∈ (common.drop count).head?) :
    Listed check keyN tokens next db (common.drop count) := by
  have hat : common.drop count = next :: (common.drop count).tail :=
    (List.cons_head?_tail hnext).symm
  have hsplit : common.take count ++ common.drop count = common :=
    List.take_append_drop count common
  have hsorted := h.sorted
  rw [← hsplit] at hsorted
  obtain ⟨-, hback, hbetween⟩ := List.pairwise_append.mp hsorted
  refine ⟨hback, fun r => ?_⟩
  have hnextMem : next ∈ common := List.mem_of_mem_drop (List.mem_of_mem_head? hnext)
  constructor
  · intro hr
    refine ⟨?_, ((h.mem r).mp (List.mem_of_mem_drop hr)).2⟩
    rw [hat] at hr hback
    rcases List.mem_cons.mp hr with rfl | htail
    · exact le_rfl
    · exact ((List.pairwise_cons.mp hback).1 r htail).le
  · rintro ⟨hle, hall⟩
    have hr := (h.mem r).mpr ⟨((h.mem next).mp hnextMem).1.trans hle, hall⟩
    rw [← hsplit] at hr
    rcases List.mem_append.mp hr with hfront | hback
    · exact absurd (hbetween r hfront next (List.mem_of_mem_head? hnext)) (not_lt.mpr hle)
    · exact hback

/-- A search can go on from a name that was found. -/
theorem Sound.resume (h : Sound keyN tokens keyStart db)
    (hcommon : Listed check keyN tokens keyStart db common) {next : Key} (hnext : next ∈ common) :
    Sound keyN tokens next db := by
  refine ⟨h.increasing, h.set, h.token, fun index hindex => ?_, h.named, h.tokens_ne⟩
  obtain ⟨p, -, hkey, -⟩ := ((hcommon.mem next).mp hnext).2 index hindex
  rw [← hkey]
  exact p.keyValid.2.trans (Nat.le_add_right _ _)

/-- A search within its budget shows the names that all tokens have, and a search from the name
behind them shows the rest. -/
theorem rangeM_exact (h : Sound keyN tokens keyStart db) {maxIterations count : ℕ}
    (hcommon : Listed check keyN tokens keyStart db common)
    (hbudget : WithinBudget check keyN tokens keyStart db maxIterations count common) :
    rangeM check maxIterations keyN tokens count keyStart db = .container (page count common) ∧
      ∀ next ∈ (common.drop count).head?, ∀ count',
        WithinBudget check keyN tokens next db maxIterations count' (common.drop count) →
          rangeM check maxIterations keyN tokens count' next db =
            .container (page count' (common.drop count)) :=
  ⟨rangeM_eq h hcommon hbudget, fun _ hnext _ hbudget' =>
    rangeM_eq (h.resume hcommon (List.mem_of_mem_drop (List.mem_of_mem_head? hnext)))
      (hcommon.drop hnext) hbudget'⟩

end Exact

/-! ## Two small lists -/

/-- A pair that lives for ever, if there is one with this key and value. -/
def lasting (val key : Key) : Option Pair :=
  if h : (0 < key.length ∧ key.length ≤ maxKeySize) ∧ val.length ≤ maxValSize then
    some ⟨key, val, 0, 0, h.1, h.2, Nat.two_pow_pos 32, Nat.two_pow_pos 64⟩
  else none

/-- The name "x~s" under the tokens "a" and "b" of the set "k". -/
def twoTokens : Db :=
  [[107, 126, 97, 126, 120, 126, 115], [107, 126, 98, 126, 120, 126, 115]].filterMap
    (lasting [49])

theorem listed_twoTokens :
    Listed (fun _ => 0) [107] [[97], [98]] [] twoTokens [[120, 126, 115]] where
  sorted := List.pairwise_singleton _ _
  mem r := by
    constructor
    · intro hr
      obtain rfl := List.mem_singleton.mp hr
      decide +kernel
    · rintro ⟨-, hall⟩
      obtain ⟨p, hp, hkey, -⟩ := hall [97] List.mem_cons_self
      have hkeys : twoTokens.map Pair.key = [word [107] [97] [120, 126, 115],
          word [107] [98] [120, 126, 115]] := by decide +kernel
      have hmem := List.mem_map_of_mem (f := Pair.key) hp
      rw [hkeys, hkey] at hmem
      rcases List.mem_pair.mp hmem with heq | heq
      · rw [word_eq_append, word_eq_append] at heq
        exact List.mem_singleton.mpr (List.append_cancel_left heq)
      · rw [word, word] at heq
        exact absurd (List.cons.inj (List.cons.inj (List.cons.inj heq).2).2).1 (by decide)

theorem sound_twoTokens : Sound [107] [[97], [98]] [] twoTokens where
  increasing := by
    unfold Increasing
    decide +kernel
  set := by decide
  token := by decide
  fits := by decide
  named := by decide +kernel
  tokens_ne := by decide

/-- A search for both tokens. -/
theorem rangeM_exact_two :
    rangeM (fun _ => 0) 100000 [107] [[97], [98]] 10 [] twoTokens =
        .container (page 10 [[120, 126, 115]]) ∧
      ∀ next ∈ (([[120, 126, 115]] : List Key).drop 10).head?, ∀ count',
        WithinBudget (fun _ => 0) [107] [[97], [98]] next twoTokens 100000 count'
            (([[120, 126, 115]] : List Key).drop 10) →
          rangeM (fun _ => 0) 100000 [107] [[97], [98]] count' next twoTokens =
            .container (page count' (([[120, 126, 115]] : List Key).drop 10)) :=
  rangeM_exact sound_twoTokens listed_twoTokens ⟨.inr (by decide +kernel), trivial⟩

/-- The same list with a key that ends behind each token. -/
def endingKeys : Db :=
  [[107, 126, 97, 126], [107, 126, 97, 126, 120, 126, 115], [107, 126, 98, 126],
    [107, 126, 98, 126, 120, 126, 115]].filterMap
    (lasting [49])

/-- What is shown of "x~s" is "s", and nothing is shown behind keys that end behind their
tokens. -/
theorem shows_not_suffixes :
    Listed (fun _ => 0) [107] [[97], [98]] [] twoTokens [[120, 126, 115]] ∧
      rangeM (fun _ => 0) 100000 [107] [[97], [98]] 10 [] twoTokens =
        .container [[115], [49], []] ∧
      (∀ index ∈ [[97], [98]], ∃ p ∈ endingKeys, p.key = word [107] index [120, 126, 115] ∧
        isOK 0 p = true) ∧
      rangeM (fun _ => 0) 100000 [107] [[97], [98]] 10 [] endingKeys = .container [[]] :=
  ⟨listed_twoTokens, by decide +kernel, by decide +kernel, by decide +kernel⟩

end HM4.MIndex2
