import HM4.PointPages

/-!
# Ranges of the linear curve

`MC1RANGE` looks for the points of a set with codes from a range, in pages. It reads the bounds as
numbers of 32 bits, while `MC1ADD` stores codes of 64 bits.
-/

namespace HM4.LinearCurve

open LexPrefix Bytes Pairs KeyedList Database Separated IndexToken AccumulateResults ScanTails
  PointSets PointPages RedisProtocol
open Queue (ITERATIONS_LOOPS_MAX)

/-! ## The command -/

/-- `formatLine`. -/
def formatLine (x : BitVec 64) (id : ℕ) : Key := fill 20 (numeral x.toNat) ++ 44 :: hex08 id

/-- `linearSearch`. -/
def linearSearch (now : UInt64) (keyN : Key) (count : ℕ) (x_min x_max : BitVec 64)
    (startKey : Key) (db : Db) : Reply :=
  let key_min := if startKey ≠ [] then startKey else headKey keyN x_min
  let key_max := headKey keyN x_max
  answer formatLine (fun p => codeOf keyN p.key) count (StopRangePrefixPredicate key_max) now
    (fromKey Pair.key key_min db)

/-- `MC1RANGE`. -/
def MC1RANGE (now : UInt64) (p : List Key) (db : Db) : Reply :=
  if p.length ≠ 5 ∧ p.length ≠ 6 then .error .NEED_EXACT_PARAMS_67
  else
    let keyN := p.getD 1 []
    if keyN = [] then .error .EMPTY_KEY
    else if ¬(valid keyN ∧ valid [120]) then .error .INVALID_KEY_SIZE
    else
      let x_min := fromString 32 (p.getD 2 []) 0
      let x_max := fromString 32 (p.getD 3 []) 0
      let count := myClamp (p.getD 4 []) ITERATIONS_RESULTS_MIN ITERATIONS_RESULTS_MAX
      let startKey := if p.length = 6 then p.getD 5 [] else []
      linearSearch now keyN count (BitVec.ofNat 64 x_min) (BitVec.ofNat 64 x_max) startKey db

/-- The parameters of `MC1RANGE`; the first of its queries has no key to start from. -/
def rangeParams (keyN : Key) (x_min x_max : BitVec 64) (count start : Key) : List Key :=
  [[], keyN, numeral x_min.toNat, numeral x_max.toNat, count] ++ if start = [] then [] else [start]

/-- A bound as it is read: as zero if it has more than 32 bits. -/
def readBound (x : BitVec 64) : BitVec 64 := if x.toNat < 2 ^ 32 then x else 0#64

/-! ## What is shown -/

theorem formatLine_injective (id : ℕ) : Function.Injective fun x => formatLine x id := by
  intro x x' heq
  have hfill := List.append_cancel_right heq
  exact BitVec.eq_of_toNat_eq (fill_numeral_injective 20 hfill)

theorem fromString_of_le {bits n : ℕ} (h : 2 ^ bits ≤ n) (default : ℕ) :
    fromString bits (numeral n) default = default := by
  have hall : (numeral n).takeWhile isDigit = numeral n :=
    List.takeWhile_eq_self_iff.mpr (isDigit_numeral n)
  unfold fromString
  rw [hall, if_neg (numeral_ne_nil n), numberOf_numeral, if_neg (Nat.not_lt.mpr h)]

theorem ofNat_fromString (x : BitVec 64) :
    BitVec.ofNat 64 (fromString 32 (numeral x.toNat) 0) = readBound x := by
  unfold readBound
  split
  · next hlt => rw [fromString_numeral hlt, BitVec.ofNat_toNat, BitVec.setWidth_eq]
  · next hnot =>
    rw [fromString_of_le (Nat.not_lt.mp hnot)]

/-- The room for results. -/
def room (count : Key) : ℕ := myClamp count ITERATIONS_RESULTS_MIN ITERATIONS_RESULTS_MAX

theorem room_pos (count : Key) : 0 < room count :=
  Nat.lt_of_lt_of_le (by decide) (Nat.le_min.mpr ⟨Nat.le_max_right _ _, by decide⟩ :
    ITERATIONS_RESULTS_MIN ≤ room count)

/-- The queries read their parameters. -/
theorem mc1range_eq {keyN : Key} (hN : valid keyN) (x_min x_max : BitVec 64) (count : Key)
    (now : UInt64) (start : Key) (db : Db) :
    MC1RANGE now (rangeParams keyN x_min x_max count start) db =
      answer formatLine (fun p => codeOf keyN p.key) (room count)
        (StopRangePrefixPredicate (headKey keyN (readBound x_max))) now
        (fromKey Pair.key (if start = [] then headKey keyN (readBound x_min) else start) db) := by
  have hx : valid [120] := by decide
  have hread (startKey : Key) :
      linearSearch now keyN (room count)
          (BitVec.ofNat 64 (fromString 32 (numeral x_min.toNat) 0))
          (BitVec.ofNat 64 (fromString 32 (numeral x_max.toNat) 0)) startKey db =
        answer formatLine (fun p => codeOf keyN p.key) (room count)
          (StopRangePrefixPredicate (headKey keyN (readBound x_max))) now
          (fromKey Pair.key (if startKey ≠ [] then startKey else headKey keyN (readBound x_min))
            db) := by
    rw [ofNat_fromString, ofNat_fromString]
    rfl
  unfold MC1RANGE rangeParams
  by_cases hstart : start = []
  · rw [if_pos hstart, if_pos hstart]
    simp only [List.append_nil, List.length_cons, List.length_nil, List.getD_cons_succ,
      List.getD_cons_zero, hN, hN.1, hx, and_self, not_true_eq_false, if_false]
    exact hread []
  · rw [if_neg hstart, if_neg hstart]
    simp only [List.cons_append, List.nil_append, List.length_cons, List.length_nil,
      List.getD_cons_succ, List.getD_cons_zero, hN, hN.1, hx, and_self, not_true_eq_false, if_false]
    have hlast := hread start
    rw [if_pos hstart] at hlast
    exact hlast

/-- What stops a walk stops it at all keys behind. -/
theorem stop_mono {last k k' : Key} (hlt : k < k')
    (h : StopRangePrefixPredicate last k' = false) : StopRangePrefixPredicate last k = false := by
  unfold StopRangePrefixPredicate at h ⊢
  split
  · next hbehind =>
    rw [if_pos (hbehind.trans hlt), Bool.not_eq_false', decide_eq_true_iff] at h
    rw [Bool.not_eq_false', decide_eq_true_iff]
    by_contra hnot
    exact Queue.not_isPrefix_of_lt hbehind.le hnot hlt.le h
  · rfl

section Range

variable {m : Key × Key → Option (BitVec 64 × Key)} {db : Db} (h : Holds m db) {keyN : Key}
  (hN : valid keyN) (hsep : separator ∉ keyN)

/-- The pairs between two codes that are alive. -/
def between (keyN : Key) (lo hi : BitVec 64) (now : UInt64) (db : Db) : List Pair :=
  (front (StopRangePrefixPredicate (headKey keyN hi))
    (fromKey Pair.key (headKey keyN lo) db)).filter (isOK now)

include h in
theorem mem_between {lo hi : BitVec 64} {now : UInt64} {p : Pair} :
    p ∈ between keyN lo hi now db ↔ p ∈ db ∧ isOK now p = true ∧ headKey keyN lo ≤ p.key ∧
      StopRangePrefixPredicate (headKey keyN hi) p.key = false := by
  have hmono : (fromKey Pair.key (headKey keyN lo) db).Pairwise fun x y =>
      (!StopRangePrefixPredicate (headKey keyN hi) y.key) = true →
        (!StopRangePrefixPredicate (headKey keyN hi) x.key) = true := by
    have hinc : Increasing Pair.key (fromKey Pair.key (headKey keyN lo) db) := h.increasing.fromKey
    refine hinc.imp fun hlt hgo => ?_
    rw [Bool.not_eq_true'] at hgo ⊢
    exact stop_mono hlt hgo
  rw [between, front, takeWhile_eq_filter hmono, List.mem_filter, List.mem_filter,
    h.increasing.mem_fromKey, Bool.not_eq_true']
  constructor
  · rintro ⟨⟨⟨hp, hle⟩, hgo⟩, hok⟩
    exact ⟨hp, hok, hle, hgo⟩
  · rintro ⟨hp, hok, hle, hgo⟩
    exact ⟨⟨⟨hp, hle⟩, hgo⟩, hok⟩

omit h hsep in
include hN in
/-- The key of a point lies between the keys of two codes as its code does between them. -/
theorem between_dataKey_iff {s : Key} (hused : Used (keyN, s)) (lo hi z : BitVec 64) :
    (headKey keyN lo ≤ dataKey (keyN, s) z ↔ lo ≤ z) ∧
      (StopRangePrefixPredicate (headKey keyN hi) (dataKey (keyN, s) z) = false ↔ z ≤ hi) := by
  have hlead := headKey_isPrefix hN hused z
  have hlen (w : BitVec 64) : (headKey keyN z).length = (headKey keyN w).length := by
    rw [length_headKey hN, length_headKey hN]
  rw [le_iff_of_isPrefix hlead (hlen lo), stop_eq_false_iff hlead (hlen hi),
    headKey_le_iff hN, headKey_le_iff hN]
  exact ⟨Iff.rfl, Iff.rfl⟩

include h hN hsep

/-- What is alive between the keys of two codes is a point with a code between them. -/
theorem live_range {lo hi : BitVec 64} {now : UInt64} {p : Pair} (hmem : p ∈ db)
    (hok : isOK now p = true) (hle : headKey keyN lo ≤ p.key)
    (hgo : StopRangePrefixPredicate (headKey keyN hi) p.key = false) :
    ∃ s x, IsPoint m keyN p s x ∧ codeOf keyN p.key = x.1 ∧ lo ≤ x.1 ∧ x.1 ≤ hi := by
  have hbound : p.key ≤ headKey keyN hi ∨ headKey keyN hi <+: p.key := by
    unfold StopRangePrefixPredicate at hgo
    split at hgo
    · rw [Bool.not_eq_false', decide_eq_true_iff] at hgo
      exact .inr hgo
    · next hnot => exact .inl (not_lt.mp hnot)
  obtain ⟨s, x, hpoint⟩ := live_between h hN hsep hmem hok hle hbound
  have hused := used_of_point h hpoint.1
  have hiff := between_dataKey_iff hN hused lo hi x.1
  have hkey := hpoint.2.1
  rw [hkey] at hle hgo
  exact ⟨s, x, hpoint, by rw [hkey]; exact codeOf_dataKey hused x.1, hiff.1.mp hle, hiff.2.mp hgo⟩

/-- They show the points with a value and a code from the range. -/
theorem lists_between (lo hi : BitVec 64) (now : UInt64) :
    Lists (visible fun s => m (keyN, s)) (fun z => lo ≤ z ∧ z ≤ hi)
      ((between keyN lo hi now db).map fun p => (codeOf keyN p.key, p.val)) := by
  have hinc : Increasing Pair.key (between keyN lo hi now db) :=
    (h.increasing.fromKey.sublist (List.takeWhile_sublist _)).sublist List.filter_sublist
  refine lists_visible h hN hinc (fun p hp => ?_) fun s x hx hne hbetween => ?_
  · obtain ⟨hmem, hok, hle, hgo⟩ := (mem_between h).mp hp
    obtain ⟨s, x, hpoint, -, hbetween⟩ := live_range h hN hsep hmem hok hle hgo
    exact ⟨s, x, hpoint, hbetween⟩
  · obtain ⟨p, hp, hkey, -, hok⟩ := exists_live h hx hne now
    have hiff := between_dataKey_iff hN (used_of_point h hx) lo hi x.1
    refine ⟨p, (mem_between h).mpr ⟨hp, hok, ?_, ?_⟩, hkey⟩
    · rw [hkey]
      exact hiff.1.mpr hbetween.1
    · rw [hkey]
      exact hiff.2.mpr hbetween.2

/-- All pages together show the points with a value between the bounds as they are read. -/
theorem pages_list_iff (x_min x_max : BitVec 64) (count : Key) (wanted : BitVec 64 → Prop) :
    (∃ pages, Pages formatLine
        (fun now start => MC1RANGE now (rangeParams keyN x_min x_max count start) db) [] pages ∧
        Lists (fun s => m (keyN, s)) wanted pages.flatten) ↔
      ∀ s x, m (keyN, s) = some x →
        (wanted x.1 ↔ (readBound x_min ≤ x.1 ∧ x.1 ≤ readBound x_max) ∧ x.2 ≠ []) := by
  have hquery (now : UInt64) (start : Key) := mc1range_eq hN x_min x_max count now start db
  obtain ⟨shown, hshown⟩ :=
    @exists_shows (fun _ => StopRangePrefixPredicate (headKey keyN (readBound x_max))) (isOK 0)
      (room count) (room_pos count) (headKey keyN (readBound x_min))
      (fromKey Pair.key (headKey keyN (readBound x_min)) db)
  obtain ⟨pages, hpages, hflatten⟩ := @exists_pages _ _ _ _ _ _ h.increasing 0
    (fun now start => MC1RANGE now (rangeParams keyN x_min x_max count start) db) _ (hquery 0)
    _ _ _ hshown [] (if_pos rfl) rfl
  have hlists := lists_between h hN hsep (readBound x_min) (readBound x_max) 0
  have hshow : shown = between keyN (readBound x_min) (readBound x_max) 0 db := hshown.eq_front
  rw [← hshow, ← hflatten] at hlists
  rw [← hlists.visible_iff]
  exact hpages.exists_iff formatLine_injective (query_congr h hquery) _

end Range

/-! ## Exactness -/

/-- The points of a set after some commands. -/
def stored (commands : List Command) (keyN : Key) : Key → Option (BitVec 64 × Key) :=
  fun keySub => points (commands.flatMap Command.ops) (keyN, keySub)

/-- `MC1RANGE` is exact: all pages together show each point between the bounds once, with its code
and its value, in the order of the codes. -/
def Exact (commands : List Command) (keyN : Key) (x_min x_max : BitVec 64) (count : Key) : Prop :=
  ∃ pages, Pages formatLine
      (fun now start => MC1RANGE now (rangeParams keyN x_min x_max count start) (after commands))
      [] pages ∧
    Lists (stored commands keyN) (fun x => x_min ≤ x ∧ x ≤ x_max) pages.flatten

/-- When the bounds are read right, or wrong without consequences. -/
structure Readable (f : Key → Option (BitVec 64 × Key)) (x_min x_max : BitVec 64) : Prop where
  /-- No point between the bounds has an empty value. -/
  valued : ∀ s x, f s = some x → x_min ≤ x.1 → x.1 ≤ x_max → x.2 ≠ []
  /-- The upper bound has no more than 32 bits, or zero is all there is between the bounds. -/
  bound : x_max.toNat < 2 ^ 32 ∨
    ∀ s x, f s = some x → x_min ≤ x.1 → x.1 ≤ x_max → x_min = 0#64 ∧ x.1 = 0#64
  /-- If both bounds have more than 32 bits, no point with a value is at zero. -/
  zero : 2 ^ 32 ≤ x_min.toNat → ∀ s x, f s = some x → x.1 = 0#64 → x.2 = []

/-- What the bounds select as they are read. -/
theorem readable_iff {f : Key → Option (BitVec 64 × Key)} {x_min x_max : BitVec 64}
    (hle : x_min ≤ x_max) :
    (∀ s x, f s = some x → ((x_min ≤ x.1 ∧ x.1 ≤ x_max) ↔
        (readBound x_min ≤ x.1 ∧ x.1 ≤ readBound x_max) ∧ x.2 ≠ [])) ↔
      Readable f x_min x_max := by
  have hzero (x : BitVec 64) : x ≤ 0#64 ↔ x = 0#64 := by
    rw [BitVec.le_def, BitVec.toNat_zero, Nat.le_zero, ← BitVec.toNat_inj, BitVec.toNat_zero]
  have hmin (x : BitVec 64) : 0#64 ≤ x := by
    rw [BitVec.le_def, BitVec.toNat_zero]
    exact Nat.zero_le _
  have hlenat := BitVec.le_def.mp hle
  by_cases hmax : x_max.toNat < 2 ^ 32
  · have hlow : readBound x_min = x_min := if_pos (hlenat.trans_lt hmax)
    have hhigh : readBound x_max = x_max := if_pos hmax
    rw [hlow, hhigh]
    constructor
    · intro hall
      exact ⟨fun s x hx h1 h2 => ((hall s x hx).mp ⟨h1, h2⟩).2, .inl hmax, fun h => by omega⟩
    · intro hread s x hx
      exact ⟨fun hin => ⟨hin, hread.valued s x hx hin.1 hin.2⟩, fun hin => hin.1⟩
  have hhigh : readBound x_max = 0#64 := if_neg hmax
  rw [hhigh]
  by_cases hlow : x_min.toNat < 2 ^ 32
  · have hlow' : readBound x_min = x_min := if_pos hlow
    rw [hlow']
    constructor
    · intro hall
      refine ⟨fun s x hx h1 h2 => ((hall s x hx).mp ⟨h1, h2⟩).2, .inr fun s x hx h1 h2 => ?_,
        fun h => by omega⟩
      have hx0 := (hzero _).mp ((hall s x hx).mp ⟨h1, h2⟩).1.2
      rw [hx0] at h1
      exact ⟨(hzero _).mp h1, hx0⟩
    · intro hread s x hx
      constructor
      · rintro ⟨h1, h2⟩
        have hx0 := ((hread.bound.resolve_left hmax) s x hx h1 h2).2
        exact ⟨⟨h1, (hzero _).mpr hx0⟩, hread.valued s x hx h1 h2⟩
      · rintro ⟨⟨h1, h2⟩, -⟩
        rw [(hzero _).mp h2] at h1 ⊢
        exact ⟨h1, hmin _⟩
  · have hlow' : readBound x_min = 0#64 := if_neg hlow
    have hnonzero : x_min ≠ 0#64 := by
      intro h0
      rw [h0, BitVec.toNat_zero] at hlow
      omega
    rw [hlow']
    constructor
    · intro hall
      have hnone : ∀ s x, f s = some x → x_min ≤ x.1 → ¬x.1 ≤ x_max := by
        intro s x hx h1 h2
        have hx0 := (hzero _).mp ((hall s x hx).mp ⟨h1, h2⟩).1.2
        rw [hx0] at h1
        exact hnonzero ((hzero _).mp h1)
      refine ⟨fun s x hx h1 h2 => absurd h2 (hnone s x hx h1),
        .inr fun s x hx h1 h2 => absurd h2 (hnone s x hx h1), fun _ s x hx hx0 => ?_⟩
      by_contra hne
      have hin := (hall s x hx).mpr ⟨⟨hmin _, (hzero _).mpr hx0⟩, hne⟩
      rw [hx0] at hin
      exact hnonzero ((hzero _).mp hin.1)
    · intro hread s x hx
      constructor
      · rintro ⟨h1, h2⟩
        exact absurd ((hread.bound.resolve_left hmax) s x hx h1 h2).1 hnonzero
      · rintro ⟨⟨-, h2⟩, hne⟩
        exact absurd (hread.zero (Nat.not_lt.mp hlow) s x hx ((hzero _).mp h2)) hne

/-- For all commands on names without separators, bounds and page sizes `MC1RANGE` is exact if and
only if no point between the bounds has an empty value and no bound of more than 32 bits selects
other points when it is read as zero. -/
theorem mc1range_exact_iff {commands : List Command} (hkeyN : ∀ c ∈ commands, separator ∉ c.keyN)
    {keyN : Key} (hN : valid keyN) (hsep : separator ∉ keyN) {x_min x_max : BitVec 64}
    (hle : x_min ≤ x_max) (count : Key) :
    Exact commands keyN x_min x_max count ↔ Readable (stored commands keyN) x_min x_max := by
  rw [← readable_iff hle]
  exact pages_list_iff (after_holds hkeyN) hN hsep x_min x_max count _

/-- What writes of a list in memory read. -/
def someEnv : ZSet.Env :=
  let write : Write := ⟨true, false, 0⟩
  ⟨0, fun _ => write, fun _ => write, write⟩

/-- The command that adds a point with a value to the set "k". -/
def addOne (x : Key) : Command := .MC1ADD (fun _ => someEnv) [[], [107], [97], x, [118]]

theorem ops_addOne (x : Key) : [addOne x].flatMap Command.ops =
    [.add someEnv [107] [97] (BitVec.ofNat 64 (fromString 64 x 0)) [118]] := by
  have hread : readAdd 3 code1 (fun _ => someEnv) [[], [107], [97], x, [118]] =
      .ok [.add someEnv [107] [97] (BitVec.ofNat 64 (fromString 64 x 0)) [118]] := by
    have hname : valid [107] ∧ valid [97] := by decide
    have hval : isValValid [118] := by decide
    simp [readAdd, hname, hval, code1, List.range_succ]
  rw [List.flatMap_singleton, Command.ops, addOne, Command.read, hread]

theorem stored_addOne {x : Key} {s : Key} {y : BitVec 64 × Key}
    (h : stored [addOne x] [107] s = some y) :
    s = [97] ∧ y = (BitVec.ofNat 64 (fromString 64 x 0), [118]) := by
  rw [stored, ops_addOne, points, List.foldl_cons, List.foldl_nil] at h
  by_cases hs : s = [97]
  · subst hs
    exact ⟨rfl, (Option.some.inj h).symm⟩
  · have hne : ([107], s) ≠ (([107], [97]) : Key × Key) := fun heq => hs (Prod.mk.inj heq).2
    have hnone := Function.update_of_ne hne
      (some (BitVec.ofNat 64 (fromString 64 x 0), ([118] : Key))) fun _ => none
    exact nomatch h.symm.trans hnone

/-- The only point is at five. -/
theorem mc1range_exact_five : Exact [addOne [53]] [107] 0 10 [49, 48] := by
  refine (mc1range_exact_iff (by decide) (by decide) (by decide) (by decide) [49, 48]).mpr
    ⟨fun s x hx _ _ => ?_, .inl (by decide), fun h => absurd h (by decide)⟩
  rw [(stored_addOne hx).2]
  decide

/-- A point with a code of more than 32 bits is not found. -/
theorem not_exact_large :
    ¬Exact [addOne (numeral (2 ^ 32))] [107] (BitVec.ofNat 64 (2 ^ 32)) (BitVec.ofNat 64 (2 ^ 32))
      [49, 48] := by
  have hkeyN : ∀ c ∈ [addOne (numeral (2 ^ 32))], separator ∉ c.keyN := fun c hc => by
    rw [List.mem_singleton.mp hc]
    decide
  intro hexact
  have hall := (pages_list_iff (after_holds hkeyN) (by decide) (by decide) _ _ _ _).mp hexact
  have hpoint : stored [addOne (numeral (2 ^ 32))] [107] [97] =
      some (BitVec.ofNat 64 (2 ^ 32), [118]) := by
    have hread : fromString 64 (numeral (2 ^ 32)) 0 = 2 ^ 32 := fromString_numeral (by decide) 0
    rw [stored, ops_addOne, hread]
    rfl
  have hbad := ((hall _ _ hpoint).mp ⟨BitVec.le_refl _, BitVec.le_refl _⟩).1.2
  exact absurd hbad (by decide)

end HM4.LinearCurve
