import HM4.PointQueries
import HM4.BigMin

/-!
# Rectangles of the Morton curve

`MC2RANGE` looks for the points in a rectangle along the curve. After some points outside in a row
it computes the next code of the rectangle and goes on from there, while `MC2RANGENAIVE` goes over
all points between the corners. Both answer in pages, and a page of `MC2RANGE` also ends when it
has gone on from a computed code too often.
-/

namespace HM4.MortonSearch

open LexPrefix Bytes Pairs KeyedList Database Separated IndexToken AccumulateResults ScanTails
  PointSets PointPages PointQueries LinearCurve RedisProtocol BigMin
open MortonCurve (curve2D32 curves toMorton fromMorton)
open Queue (ITERATIONS_LOOPS_MAX ITERATIONS_IDLE)

/-! ## The commands -/

attribute [local instance] two_neZero

/-- `MAX_SKIPS`. -/
def MAX_SKIPS : ℕ := ITERATIONS_IDLE * DIM

/-- `MAX_RETRIES`. -/
def MAX_RETRIES : ℕ := 9

/-- `fromMorton2D32`. -/
def fromMorton2D32 (z : BitVec 64) : MCVector := fromMorton curve2D32 z

/-- `MortonRectangle`. -/
structure MortonRectangle where
  v1 : MCVector
  v2 : MCVector

namespace MortonRectangle

variable (rect : MortonRectangle)

/-- `z_min`. -/
def z_min : BitVec 64 := toMorton2D32 rect.v1

/-- `z_max`. -/
def z_max : BitVec 64 := toMorton2D32 rect.v2

/-- `inside`. -/
def inside (target : MCVector) : Bool :=
  decide (rect.v1 0 ≤ target 0) && decide (target 0 ≤ rect.v2 0) &&
    (decide (rect.v1 1 ≤ target 1) && decide (target 1 ≤ rect.v2 1))

/-- `bigmin`, where it is defined. -/
def bigmin (zzz : BitVec 64) : Option (BitVec 64) :=
  computeBigMin curve2D32 zzz rect.z_min rect.z_max

end MortonRectangle

/-- The counters and the container of `mortonSearch`. -/
structure Search where
  results : ℕ
  skips : ℕ
  retries : ℕ
  id : ℕ
  container : List Key

namespace Search

variable (s : Search)

/-- `tail`. -/
def tail (pkey : Key) : List Key := s.container ++ [pkey]

/-- A point is shown. -/
def found (bigmin_optimized : Bool) (vvv : MCVector) (val : Key) : Search :=
  { s with
    results := s.results + 1
    skips := if bigmin_optimized then 0 else s.skips
    id := s.id + 1
    container := s.container ++ [formatLine2 vvv s.id, val] }

/-- A point is skipped. -/
def skip : Search := { s with skips := s.skips + 1 }

/-- A point is skipped, and the search goes on from a computed code. -/
def retry : Search := { s with skips := s.skips + 1, retries := s.retries + 1 }

end Search

section Commands

variable (bigmin_optimized : Bool) (now : UInt64) (keyN : Key) (count : ℕ)
  (rect : MortonRectangle) (db : Db)

/-- The predicate at which `mortonSearch` stops. -/
def stop : Key → Bool := StopRangePrefixPredicate (headKey keyN rect.z_max)

/-- The point of a pair. -/
def pointOf (p : Pair) : MCVector := fromMorton2D32 (codeOf keyN p.key)

/-- The loop of `mortonSearch` with so many iterations left. -/
def mortonSearchFrom : ℕ → Search → List Pair → Option (List Key)
  | _, s, [] => some (s.tail [])
  | 0, s, p :: _ => if stop keyN rect p.key = true then some (s.tail []) else some (s.tail p.key)
  | left + 1, s, p :: it =>
    if stop keyN rect p.key = true then some (s.tail [])
    else if ¬isOK now p = true then mortonSearchFrom left s it
    else
      let zzz := codeOf keyN p.key
      let vvv := fromMorton2D32 zzz
      if rect.inside vvv = true then
        if count < s.results + 1 then some (s.tail p.key)
        else mortonSearchFrom left (s.found bigmin_optimized vvv p.val) it
      else if bigmin_optimized = false then mortonSearchFrom left s it
      else if s.skips + 1 ≤ MAX_SKIPS then mortonSearchFrom left s.skip it
      else if MAX_RETRIES < s.retries + 1 then some (s.tail p.key)
      else do
        let big_min ← rect.bigmin zzz
        if rect.z_max < big_min then some (s.tail [])
        else mortonSearchFrom left s.retry (fromKey Pair.key (headKey keyN big_min) db)

/-- `mortonSearch`. -/
def mortonSearch (startKey : Key) : Option Reply :=
  let key_min := if startKey ≠ [] then startKey else headKey keyN rect.z_min
  (mortonSearchFrom bigmin_optimized now keyN count rect db ITERATIONS_LOOPS_MAX ⟨0, 0, 0, 0, []⟩
    (fromKey Pair.key key_min db)).map .container

/-- What `MC2RANGE` and `MC2RANGENAIVE` do with their parameters. -/
def rangeCommand (p : List Key) : Option Reply :=
  if p.length ≠ 2 + 2 * DIM + 1 ∧ p.length ≠ 2 + 2 * DIM + 1 + 1 then
    some (.error .NEED_EXACT_PARAMS_67)
  else
    let keyN := p.getD 1 []
    if keyN = [] then some (.error .EMPTY_KEY)
    else if ¬valid keyN then some (.error .INVALID_KEY_SIZE)
    else
      let pr := 2
      let rect : MortonRectangle :=
        ⟨vectorOf fun d => p.getD (2 * d + 0 + pr) [], vectorOf fun d => p.getD (2 * d + 1 + pr) []⟩
      let sx := 2 * DIM + pr
      let count := myClamp (p.getD (sx + 0) []) ITERATIONS_RESULTS_MIN ITERATIONS_RESULTS_MAX
      let startKey := if p.length = 2 + 2 * DIM + 1 + 1 then p.getD (sx + 1) [] else []
      mortonSearch bigmin_optimized now keyN count rect db startKey

end Commands

/-- `MC2RANGE`. -/
def MC2RANGE (now : UInt64) (p : List Key) (db : Db) : Option Reply := rangeCommand true now db p

/-- `MC2RANGENAIVE`. -/
def MC2RANGENAIVE (now : UInt64) (p : List Key) (db : Db) : Option Reply :=
  rangeCommand false now db p

/-- The parameters of both; the first of their queries has no key to start from. -/
def rangeParams2 (keyN : Key) (rect : MortonRectangle) (count start : Key) : List Key :=
  [[], keyN, numeral (rect.v1 0).toNat, numeral (rect.v2 0).toNat, numeral (rect.v1 1).toNat,
    numeral (rect.v2 1).toNat, count] ++ if start = [] then [] else [start]

theorem rangeCommand_eq {keyN : Key} (hN : valid keyN) (bigmin_optimized : Bool) (now : UInt64)
    (rect : MortonRectangle) (count start : Key) (db : Db) :
    rangeCommand bigmin_optimized now db (rangeParams2 keyN rect count start) =
      (mortonSearchFrom bigmin_optimized now keyN (room count) rect db ITERATIONS_LOOPS_MAX
        ⟨0, 0, 0, 0, []⟩
        (fromKey Pair.key (if start = [] then headKey keyN rect.z_min else start) db)).map
          .container := by
  have hrect (rest : List Key) :
      (⟨vectorOf fun d => ([] :: keyN :: numeral (rect.v1 0).toNat :: numeral (rect.v2 0).toNat ::
          numeral (rect.v1 1).toNat :: numeral (rect.v2 1).toNat :: rest).getD (2 * d + 0 + 2) [],
        vectorOf fun d => ([] :: keyN :: numeral (rect.v1 0).toNat :: numeral (rect.v2 0).toNat ::
          numeral (rect.v1 1).toNat :: numeral (rect.v2 1).toNat :: rest).getD (2 * d + 1 + 2) []⟩ :
        MortonRectangle) = rect := by
    refine congrArg₂ MortonRectangle.mk (Eq.trans ?_ (vectorOf_numeral rect.v1 []))
      (Eq.trans ?_ (vectorOf_numeral rect.v2 []))
    all_goals
      funext d
      rcases Fin.exists_fin_two.mp ⟨d, rfl⟩ with rfl | rfl <;> rfl
  have hsearch (startKey : Key) :
      mortonSearch bigmin_optimized now keyN (room count) rect db startKey =
      (mortonSearchFrom bigmin_optimized now keyN (room count) rect db ITERATIONS_LOOPS_MAX
        ⟨0, 0, 0, 0, []⟩ (fromKey Pair.key (if startKey = [] then headKey keyN rect.z_min
          else startKey) db)).map .container := by
    rw [mortonSearch, ite_not]
  rw [← hsearch]
  unfold rangeCommand rangeParams2
  by_cases hstart : start = []
  · have hread := hrect [count]
    rw [if_pos hstart, hstart]
    simp only [List.append_nil, List.length_cons, List.length_nil, DIM]
    rw [hread]
    simp [hN, hN.1]
    rfl
  · have hread := hrect [count, start]
    rw [if_neg hstart]
    simp only [List.cons_append, List.nil_append, List.length_cons, List.length_nil, DIM]
    rw [hread]
    simp [hN, hN.1]
    rfl

/-! ## Codes and points -/

theorem toMorton_fromMorton2D32 (z : BitVec 64) : toMorton2D32 (fromMorton2D32 z) = z := by
  have hlt : z.toNat < 2 ^ (curve2D32.D * curve2D32.w) := z.isLt
  exact MortonCurve.toMorton_fromMorton MortonCurve.lawful_2D32 hlt

theorem fromMorton_toMorton2D32 (v : MCVector) : fromMorton2D32 (toMorton2D32 v) = v :=
  MortonCurve.fromMorton_toMorton MortonCurve.lawful_2D32 v

namespace MortonRectangle

variable {rect : MortonRectangle}

theorem inside_iff {v : MCVector} :
    rect.inside v = true ↔ InBox (c := curve2D32) rect.v1 rect.v2 v := by
  rw [inside, Bool.and_eq_true, Bool.and_eq_true, Bool.and_eq_true, decide_eq_true_iff,
    decide_eq_true_iff, decide_eq_true_iff, decide_eq_true_iff]
  exact (Fin.forall_fin_two (p := fun d => rect.v1 d ≤ v d ∧ v d ≤ rect.v2 d)).symm

/-- The corners are on the same side of the middle in each coordinate. -/
def SameSides (rect : MortonRectangle) : Prop := ∀ d, (rect.v1 d).msb = (rect.v2 d).msb

section BigMin

variable {z : BitVec 64} (hlo : rect.z_min ≤ z) (hhi : z ≤ rect.z_max)

include hlo hhi

/-- With corners on the same sides, the code that is computed is above the one it is computed from,
and there is no code of the rectangle between them. -/
theorem bigmin_of_sameSides (hsides : rect.SameSides)
    (hout : rect.inside (fromMorton2D32 z) = false) :
    ∃ r, rect.bigmin z = some r ∧ z < r ∧
      ∀ w, z < w → rect.inside (fromMorton2D32 w) = true → r ≤ w := by
  have hmem : curve2D32 ∈ curves := List.mem_cons_self
  have hbox : ¬InBox (c := curve2D32) rect.v1 rect.v2 (fromMorton curve2D32 z) := fun hin =>
    Bool.eq_false_iff.mp hout (inside_iff.mpr hin)
  obtain ⟨r, hr, hlt⟩ := computeBigMin_above hmem hlo hhi (fun _ => hsides) hbox
  refine ⟨r, hr, hlt, fun w hw hin => ?_⟩
  have hin' := inside_iff.mp hin
  have hle : ∀ d, rect.v1 d ≤ rect.v2 d := fun d => BitVec.le_trans (hin' d).1 (hin' d).2
  obtain ⟨r', hr', hleast⟩ :=
    (computeBigMin_iff hmem rect.v1 rect.v2 hle z hlo hhi hbox).mpr fun _ => hsides
  rw [Option.some.inj (hr.symm.trans hr')]
  exact hleast.2 ⟨fromMorton2D32 w, hin', toMorton_fromMorton2D32 w, hw⟩

/-- Otherwise no code is computed. -/
theorem bigmin_of_not_sameSides (hsides : ¬rect.SameSides) : rect.bigmin z = none := by
  have hmem : curve2D32 ∈ curves := List.mem_cons_self
  obtain ⟨d, hd⟩ := not_forall.mp hsides
  refine computeBigMin_undefined hmem hlo hhi ?_ rfl (d := d) hd
  refine BitVec.lt_of_le_ne (BitVec.le_trans hlo hhi) fun heq => hd ?_
  have hsame : rect.v1 = rect.v2 := by
    rw [← fromMorton_toMorton2D32 rect.v1, ← fromMorton_toMorton2D32 rect.v2]
    exact congrArg fromMorton2D32 heq
  rw [hsame]

end BigMin

end MortonRectangle

/-! ## What a page shows -/

/-- A pair shows a point of the rectangle. -/
def good (keyN : Key) (rect : MortonRectangle) (now : UInt64) (p : Pair) : Bool :=
  isOK now p && rect.inside (pointOf keyN p)

/-- What some pairs show. -/
def entries (keyN : Key) (rect : MortonRectangle) (now : UInt64) (seen : List Pair) :
    List (MCVector × Key) :=
  (seen.filter (good keyN rect now)).map fun p => (pointOf keyN p, p.val)

/-- The container of a search that goes over some pairs more and is cut in front of others. -/
def Search.answer (s : Search) (keyN : Key) (rect : MortonRectangle) (now : UInt64)
    (seen later : List Pair) : List Key :=
  s.container ++ render formatLine2 s.id (entries keyN rect now seen) ++ [tailOf later]

section Answer

variable {keyN : Key} {rect : MortonRectangle} {now : UInt64}

theorem entries_append (seen seen' : List Pair) : entries keyN rect now (seen ++ seen') =
    entries keyN rect now seen ++ entries keyN rect now seen' := by
  rw [entries, List.filter_append, List.map_append]
  rfl

theorem entries_of_not_good {seen : List Pair} (h : ∀ p ∈ seen, good keyN rect now p = false) :
    entries keyN rect now seen = [] := by
  have hnone : seen.filter (good keyN rect now) = [] :=
    List.filter_eq_nil_iff.mpr fun p hp => Bool.eq_false_iff.mp (h p hp)
  rw [entries, hnone, List.map_nil]

variable (s : Search) (later : List Pair)

theorem answer_nil (seen : List Pair) (h : entries keyN rect now seen = []) :
    s.answer keyN rect now seen later = s.tail (tailOf later) := by
  rw [Search.answer, h, render, List.append_nil, Search.tail]

theorem answer_skipped {skipped : List Pair} (h : ∀ p ∈ skipped, good keyN rect now p = false)
    (seen : List Pair) : s.answer keyN rect now (skipped ++ seen) later =
      s.answer keyN rect now seen later := by
  rw [Search.answer, entries_append, entries_of_not_good h, List.nil_append, Search.answer]

theorem answer_not_good {p : Pair} (h : good keyN rect now p = false) (seen : List Pair) :
    s.answer keyN rect now (p :: seen) later = s.answer keyN rect now seen later :=
  answer_skipped s later (fun q hq => by rw [List.mem_singleton.mp hq, h]) seen

theorem answer_good {p : Pair} (h : good keyN rect now p = true) (seen : List Pair)
    (bigmin_optimized : Bool) :
    s.answer keyN rect now (p :: seen) later =
      (s.found bigmin_optimized (pointOf keyN p) p.val).answer keyN rect now seen later := by
  rw [Search.answer, Search.answer, entries, List.filter_cons_of_pos h, List.map_cons, render,
    Search.found, entries]
  simp

end Answer

/-- Nothing stops at such a key. -/
def never : Key → Bool := fun _ => false

/-- How the naive search cuts the pairs of its range. -/
def cut (keyN : Key) (rect : MortonRectangle) (now : UInt64) (left count : ℕ) (range : List Pair) :
    List Pair × List Pair :=
  page never (good keyN rect now) left count range

theorem cut_append {keyN : Key} {rect : MortonRectangle} {now : UInt64} {left count : ℕ}
    {range : List Pair} :
    (cut keyN rect now left count range).1 ++ (cut keyN rect now left count range).2 = range := by
  rcases @page_cases never (good keyN rect now) left count range with
    ⟨hend, hfront⟩ | ⟨p, r, hcut, hrange, -⟩
  · rw [cut, hend, hfront, List.append_nil]
    exact List.takeWhile_eq_self_iff.mpr fun _ _ => rfl
  · rw [cut, hcut]
    exact hrange.symm

/-- A cut with room goes over the first pair. -/
theorem cut_progress {keyN : Key} {rect : MortonRectangle} {now : UInt64} {left count : ℕ}
    (hleft : 0 < left) (hcount : 0 < count) {range : List Pair}
    (hnil : (cut keyN rect now left count range).1 = []) :
    (cut keyN rect now left count range).2 = [] := by
  by_contra hne
  obtain ⟨p, r, hcut⟩ := List.exists_cons_of_ne_nil hne
  have hlt := page_progress hleft hcount hcut
  have hsplit := @cut_append keyN rect now left count range
  rw [hnil, hcut, List.nil_append] at hsplit
  rw [← hsplit, List.length_cons] at hlt
  exact lt_irrefl _ hlt

section Cut

variable {keyN : Key} {rect : MortonRectangle} {now : UInt64} (left count : ℕ) {p : Pair}
  (range : List Pair)

theorem cut_nil : cut keyN rect now left count [] = ([], []) := by
  cases left <;> rfl

theorem cut_spent : cut keyN rect now 0 count (p :: range) = ([], p :: range) := rfl

theorem cut_full (h : good keyN rect now p = true) :
    cut keyN rect now (left + 1) 0 (p :: range) = ([], p :: range) :=
  page_of_full left range rfl h

theorem cut_good (h : good keyN rect now p = true) :
    cut keyN rect now (left + 1) (count + 1) (p :: range) =
      ahead p (cut keyN rect now left count range) :=
  page_of_live left count range rfl h

theorem cut_not_good (h : good keyN rect now p = false) :
    cut keyN rect now (left + 1) count (p :: range) =
      ahead p (cut keyN rect now left count range) :=
  page_of_dead left count range rfl h

end Cut

section Equations

variable {now : UInt64} {keyN : Key} {count : ℕ} {rect : MortonRectangle} {db : Db}
  {s : Search} {p : Pair} {bigmin_optimized : Bool}

theorem good_of_dead (hdead : isOK now p = false) : good keyN rect now p = false := by
  rw [good, hdead, Bool.false_and]

theorem good_of_live (hlive : isOK now p = true) :
    good keyN rect now p = rect.inside (pointOf keyN p) := by
  rw [good, hlive, Bool.true_and]

variable (left : ℕ) (it : List Pair)

theorem search_nil : mortonSearchFrom bigmin_optimized now keyN count rect db left s [] =
    some (s.tail []) := by
  cases left <;> rfl

theorem search_stop (hstop : stop keyN rect p.key = true) :
    mortonSearchFrom bigmin_optimized now keyN count rect db left s (p :: it) =
      some (s.tail []) := by
  cases left <;> rw [mortonSearchFrom, if_pos hstop]

variable (hgo : stop keyN rect p.key = false)

include hgo

theorem search_spent : mortonSearchFrom bigmin_optimized now keyN count rect db 0 s (p :: it) =
    some (s.tail p.key) := by
  rw [mortonSearchFrom, if_neg (Bool.eq_false_iff.mp hgo)]

theorem search_dead (hdead : isOK now p = false) :
    mortonSearchFrom bigmin_optimized now keyN count rect db (left + 1) s (p :: it) =
      mortonSearchFrom bigmin_optimized now keyN count rect db left s it := by
  rw [mortonSearchFrom, if_neg (Bool.eq_false_iff.mp hgo), if_pos (Bool.eq_false_iff.mp hdead)]

variable (hlive : isOK now p = true)

include hlive

theorem search_inside (hin : rect.inside (pointOf keyN p) = true) :
    mortonSearchFrom bigmin_optimized now keyN count rect db (left + 1) s (p :: it) =
      if count < s.results + 1 then some (s.tail p.key)
      else mortonSearchFrom bigmin_optimized now keyN count rect db left
        (s.found bigmin_optimized (pointOf keyN p) p.val) it := by
  rw [mortonSearchFrom, if_neg (Bool.eq_false_iff.mp hgo), if_neg (not_not.mpr hlive)]
  exact if_pos hin

theorem search_outside (hout : rect.inside (pointOf keyN p) = false) :
    mortonSearchFrom bigmin_optimized now keyN count rect db (left + 1) s (p :: it) =
      if bigmin_optimized = false then
        mortonSearchFrom bigmin_optimized now keyN count rect db left s it
      else if s.skips + 1 ≤ MAX_SKIPS then
        mortonSearchFrom bigmin_optimized now keyN count rect db left s.skip it
      else if MAX_RETRIES < s.retries + 1 then some (s.tail p.key)
      else (rect.bigmin (codeOf keyN p.key)).bind fun big_min =>
        if rect.z_max < big_min then some (s.tail [])
        else mortonSearchFrom bigmin_optimized now keyN count rect db left s.retry
          (fromKey Pair.key (headKey keyN big_min) db) := by
  rw [mortonSearchFrom, if_neg (Bool.eq_false_iff.mp hgo), if_neg (not_not.mpr hlive)]
  exact if_neg (Bool.eq_false_iff.mp hout)

end Equations

/-- The naive search shows what its cut goes over. -/
theorem naive_eq {now : UInt64} {keyN : Key} {count : ℕ} {rect : MortonRectangle} {db : Db}
    (left : ℕ) {s : Search} (hs : s.results ≤ count) (it : List Pair) :
    mortonSearchFrom false now keyN count rect db left s it =
      some (s.answer keyN rect now
        (cut keyN rect now left (count - s.results) (front (stop keyN rect) it)).1
        (cut keyN rect now left (count - s.results) (front (stop keyN rect) it)).2) := by
  induction left generalizing s it with
  | zero =>
    cases it with
    | nil =>
      rw [search_nil, front, List.takeWhile_nil, cut_nil, answer_nil _ _ _ rfl]
      rfl
    | cons p it =>
      by_cases hstop : stop keyN rect p.key = true
      · rw [search_stop _ _ hstop, front_of_stop hstop, cut_nil, answer_nil _ _ _ rfl]
        rfl
      · have hgo := Bool.eq_false_iff.mpr hstop
        rw [search_spent it hgo, front_cons hgo, cut_spent, answer_nil _ _ _ rfl]
        rfl
  | succ left ih =>
    cases it with
    | nil =>
      rw [search_nil, front, List.takeWhile_nil, cut_nil, answer_nil _ _ _ rfl]
      rfl
    | cons p it =>
      by_cases hstop : stop keyN rect p.key = true
      · rw [search_stop _ _ hstop, front_of_stop hstop, cut_nil, answer_nil _ _ _ rfl]
        rfl
      have hgo := Bool.eq_false_iff.mpr hstop
      rw [front_cons hgo]
      by_cases hok : isOK now p = true
      · have hgood := @good_of_live now keyN rect p hok
        by_cases hin : rect.inside (pointOf keyN p) = true
        · rw [hin] at hgood
          rw [search_inside left it hgo hok hin]
          by_cases hfull : count < s.results + 1
          · have hzero : count - s.results = 0 := by omega
            rw [if_pos hfull, hzero, cut_full left _ hgood, answer_nil _ _ _ rfl]
            rfl
          · have hmore : count - s.results = count - (s.results + 1) + 1 := by omega
            have hnext := @ih (s.found false (pointOf keyN p) p.val) (Nat.not_lt.mp hfull) it
            rw [if_neg hfull, hnext, hmore, cut_good left _ _ hgood, ahead,
              answer_good s _ hgood _ false]
            rfl
        · have hout := Bool.eq_false_iff.mpr hin
          rw [hout] at hgood
          rw [search_outside left it hgo hok hout, if_pos rfl, ih hs it,
            cut_not_good left _ _ hgood, ahead, answer_not_good s _ hgood]
      · have hdead := Bool.eq_false_iff.mpr hok
        have hgood := @good_of_dead now keyN rect p hdead
        rw [search_dead left it hgo hdead, ih hs it, cut_not_good left _ _ hgood, ahead,
          answer_not_good s _ hgood]

/-! ## Where a search goes on -/

section Jumps

variable {m : Key × Key → Option (BitVec 64 × Key)} {db : Db} (h : Holds m db) {keyN : Key}
  (hN : valid keyN) (hsep : separator ∉ keyN) {rect : MortonRectangle} {now : UInt64}

include h in
/-- The pairs from a pair on are some that come before a key, and those from the key on. -/
theorem exists_skipped {p : Pair} {it : List Pair} (hit : p :: it <:+ db) {k : Key}
    (hlt : p.key < k) :
    ∃ skipped, p :: it = skipped ++ fromKey Pair.key k db ∧ skipped ≠ [] ∧
      ∀ q ∈ skipped, q ∈ db ∧ p.key ≤ q.key ∧ q.key < k := by
  obtain ⟨passed, hdb⟩ := hit
  have hinc := h.increasing
  rw [← hdb] at hinc
  obtain ⟨-, hsuffix, hpassed⟩ := Increasing.append_iff.mp hinc
  obtain ⟨skipped, rest, hsplit, hskipped, hrest⟩ := hsuffix.exists_cut k
  have hfrom : fromKey Pair.key k db = rest := by
    rw [← hdb, hsplit, ← List.append_assoc]
    refine fromKey_append (fun q hq => ?_) hrest
    rcases List.mem_append.mp hq with hq | hq
    · exact (hpassed q hq p List.mem_cons_self).trans hlt
    · exact hskipped q hq
  refine ⟨skipped, by rw [hsplit, hfrom], ?_, fun q hq => ?_⟩
  · rintro rfl
    have hp : p ∈ rest := by
      rw [← List.nil_append rest, ← hsplit]
      exact List.mem_cons_self
    exact absurd hlt (not_lt.mpr (hrest p hp))
  · have hmem : q ∈ p :: it := by
      rw [hsplit]
      exact List.mem_append_left _ hq
    refine ⟨hdb ▸ List.mem_append_right _ hmem, ?_, hskipped q hq⟩
    rcases List.mem_cons.mp hmem with rfl | hmem
    · exact le_rfl
    · exact ((Increasing.cons_iff.mp hsuffix).1 q hmem).le

include h hN hsep

/-- A live pair of the range has a code between those of the corners, and its key lies between the
keys of its code and of the codes above. -/
theorem live_point {p : Pair} (hp : p ∈ db) (hok : isOK now p = true) {lo : BitVec 64}
    (hle : headKey keyN lo ≤ p.key) (hgo : stop keyN rect p.key = false) :
    lo ≤ codeOf keyN p.key ∧ codeOf keyN p.key ≤ rect.z_max ∧
      ∀ r, headKey keyN r ≤ p.key ↔ r ≤ codeOf keyN p.key := by
  obtain ⟨s, x, hpoint, hcode, hlo, hhi⟩ := live_range h hN hsep hp hok hle hgo
  have hused := used_of_point h hpoint.1
  rw [hcode, hpoint.2.1]
  exact ⟨hlo, hhi, fun r => (between_dataKey_iff hN hused r r x.1).1⟩

/-- From a pair outside on, no point of the rectangle is in front of the code that is computed from
its code. -/
theorem not_good_of_between {xd r : BitVec 64} (hout : rect.inside (fromMorton2D32 xd) = false)
    (hleast : ∀ w, xd < w → rect.inside (fromMorton2D32 w) = true → r ≤ w) {q : Pair}
    (hq : q ∈ db) (hle : headKey keyN xd ≤ q.key) (hgo : stop keyN rect q.key = false)
    (hfront : q.key < headKey keyN r ∨ rect.z_max < r) : good keyN rect now q = false := by
  by_cases hok : isOK now q = true
  · obtain ⟨hlo, hhi, hkey⟩ := live_point h hN hsep hq hok hle hgo
    rw [good_of_live hok]
    by_contra hin
    rw [Bool.not_eq_false] at hin
    have hne : xd ≠ codeOf keyN q.key := by
      intro heq
      rw [pointOf, ← heq, hout] at hin
      exact Bool.false_ne_true hin
    have hr := hleast _ (BitVec.lt_of_le_ne hlo hne) hin
    rcases hfront with hlt | hlt
    · exact absurd ((hkey r).mpr hr) (not_le.mpr hlt)
    · exact absurd (BitVec.le_trans hr hhi) (BitVec.not_le.mpr hlt)
  · exact good_of_dead (Bool.eq_false_iff.mpr hok)

omit h hsep in
/-- What comes before the key of a code up to that of the upper corner does not stop a search. -/
theorem go_of_lt {r : BitVec 64} (hr : r ≤ rect.z_max) {key : Key} (hlt : key < headKey keyN r) :
    stop keyN rect key = false := by
  have hle : headKey keyN r ≤ headKey keyN rect.z_max := (headKey_le_iff hN).mpr hr
  unfold stop StopRangePrefixPredicate
  rw [if_neg (not_lt.mpr (hlt.le.trans hle))]

end Jumps

/-! ## One page -/

/-- What a search with so many iterations left gives for a range: it goes over some pairs of the
range and shows the points of the rectangle among them, and it goes over one pair at least unless
it has no room; or a shift is not defined. -/
def Answers (keyN : Key) (rect : MortonRectangle) (now : UInt64) (count left : ℕ) (s : Search)
    (range : List Pair) (out : Option (List Key)) : Prop :=
  (∃ seen later, range = seen ++ later ∧ out = some (s.answer keyN rect now seen later) ∧
    (0 < left → s.results < count → s.skips < MAX_SKIPS → seen = [] → later = [])) ∨
  out = none ∧ ¬rect.SameSides

section Answers

variable {keyN : Key} {rect : MortonRectangle} {now : UInt64} {count left : ℕ} {s : Search}
  {range : List Pair} {out : Option (List Key)}

theorem answers_end : Answers keyN rect now count left s [] (some (s.tail [])) := by
  refine .inl ⟨[], [], rfl, ?_, fun _ _ _ _ => rfl⟩
  rw [answer_nil _ _ _ rfl]
  rfl

theorem answers_cut {p : Pair}
    (hroom : ¬(0 < left ∧ s.results < count ∧ s.skips < MAX_SKIPS)) :
    Answers keyN rect now count left s (p :: range) (some (s.tail p.key)) := by
  refine .inl ⟨[], p :: range, rfl, ?_, fun h1 h2 h3 => absurd ⟨h1, h2, h3⟩ hroom⟩
  rw [answer_nil _ _ _ rfl]
  rfl

/-- A search that goes on behind some pairs has gone over them. -/
theorem Answers.behind {left' : ℕ} {s' : Search}
    (h : Answers keyN rect now count left' s' range out) (passed : List Pair) (hne : passed ≠ [])
    (hsame : ∀ seen later, s'.answer keyN rect now seen later =
      s.answer keyN rect now (passed ++ seen) later) :
    Answers keyN rect now count left s (passed ++ range) out := by
  refine h.imp_left ?_
  rintro ⟨seen, later, hrange, hout, -⟩
  refine ⟨passed ++ seen, later, by rw [hrange, List.append_assoc], ?_, fun _ _ _ hnil => ?_⟩
  · rw [hout, hsame]
  · exact absurd (List.append_eq_nil_iff.mp hnil).1 hne

end Answers

/-- Every search gives such an answer. -/
theorem search_answers {m : Key × Key → Option (BitVec 64 × Key)} {db : Db} (h : Holds m db)
    {keyN : Key} (hN : valid keyN) (hsep : separator ∉ keyN) (rect : MortonRectangle)
    (now : UInt64) (count left : ℕ) (s : Search) {it : List Pair} (hit : it <:+ db)
    (hmin : ∀ q ∈ it, headKey keyN rect.z_min ≤ q.key) :
    Answers keyN rect now count left s (front (stop keyN rect) it)
      (mortonSearchFrom true now keyN count rect db left s it) := by
  induction left generalizing s it with
  | zero =>
    cases it with
    | nil =>
      rw [search_nil]
      exact answers_end
    | cons p it =>
      by_cases hstop : stop keyN rect p.key = true
      · rw [search_stop _ _ hstop, front_of_stop hstop]
        exact answers_end
      · have hgo := Bool.eq_false_iff.mpr hstop
        rw [search_spent it hgo, front_cons hgo]
        exact answers_cut fun hroom => absurd hroom.1 (lt_irrefl 0)
  | succ left ih =>
    cases it with
    | nil =>
      rw [search_nil]
      exact answers_end
    | cons p it =>
      by_cases hstop : stop keyN rect p.key = true
      · rw [search_stop _ _ hstop, front_of_stop hstop]
        exact answers_end
      have hgo := Bool.eq_false_iff.mpr hstop
      have hmem : p ∈ db := hit.subset List.mem_cons_self
      have hle := hmin p List.mem_cons_self
      have hfirst : ∀ q ∈ p :: it, p.key ≤ q.key := by
        have hinc : Increasing Pair.key (p :: it) := h.increasing.sublist hit.sublist
        intro q hq
        rcases List.mem_cons.mp hq with rfl | hq
        · exact le_rfl
        · exact ((Increasing.cons_iff.mp hinc).1 q hq).le
      have hnext (s : Search) := ih s ((List.suffix_cons p it).trans hit) fun q hq =>
        hmin q (List.mem_cons_of_mem p hq)
      rw [front_cons hgo]
      by_cases hok : isOK now p = true
      · obtain ⟨hlo, hhi, hkey⟩ := live_point h hN hsep hmem hok hle hgo
        have hgood := @good_of_live now keyN rect p hok
        by_cases hin : rect.inside (pointOf keyN p) = true
        · rw [hin] at hgood
          rw [search_inside left it hgo hok hin]
          by_cases hfull : count < s.results + 1
          · rw [if_pos hfull]
            exact answers_cut fun hroom => by omega
          · rw [if_neg hfull]
            refine (hnext _).behind [p] (List.cons_ne_nil p []) fun seen later => ?_
            exact (answer_good s later hgood seen true).symm
        · have hout := Bool.eq_false_iff.mpr hin
          rw [hout] at hgood
          rw [search_outside left it hgo hok hout, if_neg Bool.noConfusion]
          by_cases hskip : s.skips + 1 ≤ MAX_SKIPS
          · rw [if_pos hskip]
            refine (hnext s.skip).behind [p] (List.cons_ne_nil p []) fun seen later => ?_
            exact (answer_not_good s later hgood seen).symm
          rw [if_neg hskip]
          by_cases hretry : MAX_RETRIES < s.retries + 1
          · rw [if_pos hretry]
            exact answers_cut fun hroom => by omega
          rw [if_neg hretry]
          by_cases hsides : rect.SameSides
          · obtain ⟨r, hr, hlt, hleast⟩ := MortonRectangle.bigmin_of_sameSides hlo hhi hsides hout
            rw [hr, Option.bind_some]
            by_cases hdone : rect.z_max < r
            · -- no point of the rectangle is left
              rw [if_pos hdone, ← front_cons hgo]
              refine .inl ⟨front (stop keyN rect) (p :: it), [], (List.append_nil _).symm, ?_,
                fun _ _ _ _ => rfl⟩
              rw [answer_nil]
              · rfl
              refine entries_of_not_good fun q hq => ?_
              have hq' : q ∈ p :: it := (List.takeWhile_prefix _).subset hq
              have hstay := List.mem_takeWhile_imp hq
              rw [Bool.not_eq_true'] at hstay
              exact not_good_of_between h hN hsep hout hleast (hit.subset hq')
                (((hkey _).mpr (BitVec.le_refl _)).trans (hfirst q hq')) hstay (.inr hdone)
            · have hr := BitVec.not_lt.mp hdone
              have hkr : p.key < headKey keyN r :=
                not_le.mp fun hle => BitVec.not_le.mpr hlt ((hkey r).mp hle)
              obtain ⟨skipped, hsplit, hne, hskipped⟩ := exists_skipped h hit hkr
              have hgoes : ∀ q ∈ skipped, stop keyN rect q.key = false := fun q hq =>
                go_of_lt hN hr (hskipped q hq).2.2
              have hnot : ∀ q ∈ skipped, good keyN rect now q = false := fun q hq => by
                obtain ⟨hq', hle', hlt'⟩ := hskipped q hq
                exact not_good_of_between h hN hsep hout hleast hq'
                  (((hkey _).mpr (BitVec.le_refl _)).trans hle') (hgoes q hq) (.inl hlt')
              rw [if_neg hdone, ← front_cons hgo, hsplit, front_append hgoes]
              refine (ih s.retry (List.dropWhile_suffix _) fun q hq => ?_).behind skipped hne
                fun seen later => (answer_skipped s later hnot seen).symm
              refine le_trans ((headKey_le_iff hN).mpr ?_) (h.increasing.mem_fromKey.mp hq).2
              have habove : rect.z_min.toNat < r.toNat :=
                lt_of_le_of_lt (BitVec.le_def.mp hlo) (BitVec.lt_def.mp hlt)
              exact BitVec.le_def.mpr habove.le
          · rw [MortonRectangle.bigmin_of_not_sameSides hlo hhi hsides, Option.bind_none]
            exact .inr ⟨rfl, hsides⟩
      · have hdead := Bool.eq_false_iff.mpr hok
        have hgood := @good_of_dead now keyN rect p hdead
        rw [search_dead left it hgo hdead]
        refine (hnext s).behind [p] (List.cons_ne_nil p []) fun seen later => ?_
        exact (answer_not_good s later hgood seen).symm

/-! ## Points in a row -/

section InRow

variable {α : Type*} (limit : ℕ) (inside : α → Bool)

/-- No more than so many elements that are not inside come in a row. -/
def InRow (l : List α) : Prop :=
  ∀ w, w <:+: l → (∀ x ∈ w, inside x = false) → w.length ≤ limit

/-- The same behind some such elements. -/
structure InRowFrom (k : ℕ) (l : List α) : Prop where
  front : ∀ w, w <+: l → (∀ x ∈ w, inside x = false) → k + w.length ≤ limit
  all : InRow limit inside l

variable {limit inside} {k : ℕ} {x : α} {l : List α}

theorem inRowFrom_zero : InRowFrom limit inside 0 l ↔ InRow limit inside l :=
  ⟨fun h => h.all, fun h =>
    ⟨fun w hw hout => (Nat.zero_add _).symm ▸ h w hw.isInfix hout, h⟩⟩

theorem inRowFrom_nil (hk : k ≤ limit) : InRowFrom limit inside k [] := by
  constructor
  · intro w hw _
    rw [List.prefix_nil.mp hw]
    exact hk
  · intro w hw _
    rw [List.infix_nil.mp hw]
    exact Nat.zero_le limit

/-- An element inside ends a row. -/
theorem inRowFrom_cons_inside (hk : k ≤ limit) (hx : inside x = true) :
    InRowFrom limit inside k (x :: l) ↔ InRowFrom limit inside 0 l := by
  have hnil {w : List α} (hw : w <+: x :: l) (hout : ∀ y ∈ w, inside y = false) : w = [] := by
    rcases List.prefix_cons_iff.mp hw with rfl | ⟨t, rfl, -⟩
    · rfl
    · exact absurd (hx.symm.trans (hout x List.mem_cons_self)) Bool.noConfusion
  rw [inRowFrom_zero]
  constructor
  · intro h w hw hout
    exact h.all w (List.infix_cons_iff.mpr (.inr hw)) hout
  · intro h
    constructor
    · intro w hw hout
      rw [hnil hw hout]
      exact hk
    · intro w hw hout
      rcases List.infix_cons_iff.mp hw with hw | hw
      · rw [hnil hw hout]
        exact Nat.zero_le limit
      · exact h w hw hout

/-- An element that is not inside goes on with a row. -/
theorem inRowFrom_cons_outside (hx : inside x = false) :
    InRowFrom limit inside k (x :: l) ↔ k + 1 ≤ limit ∧ InRowFrom limit inside (k + 1) l := by
  constructor
  · intro h
    have hcons {w : List α} (hw : w <+: l) (hout : ∀ y ∈ w, inside y = false) :
        k + 1 + w.length ≤ limit := by
      have hle := h.front (x :: w) (List.cons_prefix_cons.mpr ⟨rfl, hw⟩)
        (List.forall_mem_cons.mpr ⟨hx, hout⟩)
      rw [List.length_cons] at hle
      omega
    have hnone : ∀ y ∈ ([] : List α), inside y = false := fun y hy => absurd hy List.not_mem_nil
    refine ⟨hcons (List.nil_prefix) hnone, fun w hw hout => hcons hw hout, fun w hw hout => ?_⟩
    exact h.all w (List.infix_cons_iff.mpr (.inr hw)) hout
  · rintro ⟨hk, h⟩
    have hcons {w : List α} (hw : w <+: x :: l) (hout : ∀ y ∈ w, inside y = false) :
        k + w.length ≤ limit := by
      rcases List.prefix_cons_iff.mp hw with rfl | ⟨t, rfl, ht⟩
      · rw [List.length_nil]
        omega
      · have hle := h.front t ht (List.forall_mem_cons.mp hout).2
        rw [List.length_cons]
        omega
    refine ⟨fun w hw hout => hcons hw hout, fun w hw hout => ?_⟩
    rcases List.infix_cons_iff.mp hw with hw | hw
    · exact (Nat.le_add_left _ _).trans (hcons hw hout)
    · exact h.all w hw hout

end InRow

/-- Behind so many skips, no more than `MAX_SKIPS` live pairs outside come in a row. -/
def Steady (keyN : Key) (rect : MortonRectangle) (now : UInt64) (skips : ℕ) (seen : List Pair) :
    Prop :=
  InRowFrom MAX_SKIPS (fun p => rect.inside (pointOf keyN p)) skips (seen.filter (isOK now))

section Steady

variable {keyN : Key} {rect : MortonRectangle} {now : UInt64} {skips : ℕ} {p : Pair}
  {seen : List Pair}

theorem steady_nil (hskips : skips ≤ MAX_SKIPS) : Steady keyN rect now skips [] :=
  inRowFrom_nil hskips

theorem steady_dead (hdead : isOK now p = false) :
    Steady keyN rect now skips (p :: seen) ↔ Steady keyN rect now skips seen := by
  rw [Steady, List.filter_cons_of_neg (Bool.eq_false_iff.mp hdead), Steady]

theorem steady_inside (hskips : skips ≤ MAX_SKIPS) (hlive : isOK now p = true)
    (hin : rect.inside (pointOf keyN p) = true) :
    Steady keyN rect now skips (p :: seen) ↔ Steady keyN rect now 0 seen := by
  rw [Steady, List.filter_cons_of_pos hlive, Steady]
  exact inRowFrom_cons_inside hskips hin

theorem steady_outside (hlive : isOK now p = true)
    (hout : rect.inside (pointOf keyN p) = false) :
    Steady keyN rect now skips (p :: seen) ↔
      skips + 1 ≤ MAX_SKIPS ∧ Steady keyN rect now (skips + 1) seen := by
  rw [Steady, List.filter_cons_of_pos hlive, Steady]
  exact inRowFrom_cons_outside hout

end Steady

section Undefined

variable {m : Key × Key → Option (BitVec 64 × Key)} {db : Db} (h : Holds m db) {keyN : Key}
  (hN : valid keyN) (hsep : separator ∉ keyN) {rect : MortonRectangle} (now : UInt64) {count : ℕ}

include h hN hsep

/-- As long as no code has to be computed a search is the naive one. Where one has to be and is not
defined, the search is not. -/
theorem search_steady (left : ℕ) {s : Search} (hs : s.results ≤ count)
    (hskips : s.skips ≤ MAX_SKIPS) {it : List Pair} (hit : it <:+ db)
    (hmin : ∀ q ∈ it, headKey keyN rect.z_min ≤ q.key) {seen later : List Pair}
    (hcut : cut keyN rect now left (count - s.results) (front (stop keyN rect) it) =
      (seen, later)) :
    (Steady keyN rect now s.skips seen →
      mortonSearchFrom true now keyN count rect db left s it =
        some (s.answer keyN rect now seen later)) ∧
    (s.retries < MAX_RETRIES → ¬rect.SameSides → ¬Steady keyN rect now s.skips seen →
      mortonSearchFrom true now keyN count rect db left s it = none) := by
  -- a page that ends at once
  have hstopped {s : Search} (hskips : s.skips ≤ MAX_SKIPS) {range seen later : List Pair}
      {out : Option (List Key)} (hout : out = some (s.tail (tailOf range)))
      (hcut : (([], range) : List Pair × List Pair) = (seen, later)) :
      (Steady keyN rect now s.skips seen → out = some (s.answer keyN rect now seen later)) ∧
      (s.retries < MAX_RETRIES → ¬rect.SameSides → ¬Steady keyN rect now s.skips seen →
        out = none) := by
    obtain ⟨rfl, rfl⟩ := Prod.mk.inj hcut
    refine ⟨fun _ => ?_, fun _ _ hnot => absurd (steady_nil hskips) hnot⟩
    rw [hout, answer_nil _ _ _ rfl]
  induction left generalizing s it seen later with
  | zero =>
    cases it with
    | nil => exact hstopped hskips (search_nil 0) hcut
    | cons p it =>
      by_cases hstop : stop keyN rect p.key = true
      · rw [front_of_stop hstop] at hcut
        exact hstopped hskips (search_stop 0 it hstop) hcut
      · have hgo := Bool.eq_false_iff.mpr hstop
        rw [front_cons hgo] at hcut
        exact hstopped hskips (search_spent it hgo) hcut
  | succ left ih =>
    cases it with
    | nil => exact hstopped hskips (search_nil (left + 1)) hcut
    | cons p it =>
      by_cases hstop : stop keyN rect p.key = true
      · rw [front_of_stop hstop] at hcut
        exact hstopped hskips (search_stop (left + 1) it hstop) hcut
      have hgo := Bool.eq_false_iff.mpr hstop
      have hmem : p ∈ db := hit.subset List.mem_cons_self
      have hit' : it <:+ db := (List.suffix_cons p it).trans hit
      have hmin' : ∀ q ∈ it, headKey keyN rect.z_min ≤ q.key := fun q hq =>
        hmin q (List.mem_cons_of_mem p hq)
      rw [front_cons hgo] at hcut
      by_cases hok : isOK now p = true
      · have hgood := @good_of_live now keyN rect p hok
        by_cases hin : rect.inside (pointOf keyN p) = true
        · rw [hin] at hgood
          by_cases hfull : count < s.results + 1
          · have hzero : count - s.results = 0 := by omega
            rw [hzero, cut_full left _ hgood] at hcut
            refine hstopped hskips ?_ hcut
            rw [search_inside left it hgo hok hin, if_pos hfull]
            rfl
          · have hmore : count - s.results = count - (s.results + 1) + 1 := by omega
            rw [hmore, cut_good left _ _ hgood] at hcut
            obtain ⟨rfl, rfl⟩ := Prod.mk.inj hcut
            have hnext := @ih (s.found true (pointOf keyN p) p.val) (Nat.not_lt.mp hfull)
              (Nat.zero_le _) it hit' hmin' _ _ rfl
            rw [search_inside left it hgo hok hin, if_neg hfull, steady_inside hskips hok hin,
              answer_good s _ hgood _ true]
            exact hnext
        · have hout := Bool.eq_false_iff.mpr hin
          rw [hout] at hgood
          rw [cut_not_good left _ _ hgood] at hcut
          obtain ⟨rfl, rfl⟩ := Prod.mk.inj hcut
          rw [search_outside left it hgo hok hout, if_neg Bool.noConfusion,
            steady_outside hok hout, answer_not_good s _ hgood]
          by_cases hskip : s.skips + 1 ≤ MAX_SKIPS
          · have hnext := @ih s.skip hs hskip it hit' hmin' _ _ rfl
            rw [if_pos hskip, and_iff_right hskip]
            exact hnext
          · refine ⟨fun hsteady => absurd hsteady.1 hskip, fun hretries hsides _ => ?_⟩
            obtain ⟨hlo, hhi, -⟩ :=
              live_point h hN hsep hmem hok (hmin p List.mem_cons_self) hgo
            rw [if_neg hskip, if_neg (by omega),
              MortonRectangle.bigmin_of_not_sameSides hlo hhi hsides, Option.bind_none]
      · have hdead := Bool.eq_false_iff.mpr hok
        have hgood := @good_of_dead now keyN rect p hdead
        rw [cut_not_good left _ _ hgood] at hcut
        obtain ⟨rfl, rfl⟩ := Prod.mk.inj hcut
        rw [search_dead left it hgo hdead, steady_dead hdead, answer_not_good s _ hgood]
        exact ih hs hskips hit' hmin' rfl

end Undefined

/-! ## All pages -/

/-- The pages of a query, which is asked again with each tail until it is empty. -/
inductive SearchPages (query : UInt64 → Key → Option Reply) :
    Key → List (List (MCVector × Key)) → Prop
  | last {now start entries}
      (h : query now start = some (.container (render formatLine2 0 entries ++ [[]]))) :
      SearchPages query start [entries]
  | next {now start entries tail pages}
      (h : query now start = some (.container (render formatLine2 0 entries ++ [tail])))
      (hne : tail ≠ []) (hrest : SearchPages query tail pages) :
      SearchPages query start (entries :: pages)

/-- The pairs of the range of a query. -/
def rangeFrom (keyN : Key) (rect : MortonRectangle) (db : Db) (start : Key) : List Pair :=
  front (stop keyN rect)
    (fromKey Pair.key (if start = [] then headKey keyN rect.z_min else start) db)

/-- No page of the naive query goes over more than `MAX_SKIPS` live points outside in a row. -/
inductive Calm (keyN : Key) (rect : MortonRectangle) (now : UInt64) (count : ℕ) : List Pair → Prop
  | last {range} (h : (cut keyN rect now ITERATIONS_LOOPS_MAX count range).2 = [])
      (hrow : InRow MAX_SKIPS (fun p => rect.inside (pointOf keyN p))
        ((cut keyN rect now ITERATIONS_LOOPS_MAX count range).1.filter (isOK now))) :
      Calm keyN rect now count range
  | next {range p r} (h : (cut keyN rect now ITERATIONS_LOOPS_MAX count range).2 = p :: r)
      (hrow : InRow MAX_SKIPS (fun p => rect.inside (pointOf keyN p))
        ((cut keyN rect now ITERATIONS_LOOPS_MAX count range).1.filter (isOK now)))
      (hrest : Calm keyN rect now count (p :: r)) : Calm keyN rect now count range

/-- The times of searches of stored points do not matter. -/
theorem search_congr {m : Key × Key → Option (BitVec 64 × Key)} {db : Db} (h : Holds m db)
    (bigmin_optimized : Bool) (now now' : UInt64) (keyN : Key) (count : ℕ) (rect : MortonRectangle)
    (left : ℕ) (s : Search) {it : List Pair} (hit : it ⊆ db) :
    mortonSearchFrom bigmin_optimized now keyN count rect db left s it =
      mortonSearchFrom bigmin_optimized now' keyN count rect db left s it := by
  induction left generalizing s it with
  | zero => cases it <;> rfl
  | succ left ih =>
    cases it with
    | nil => rfl
    | cons p it =>
      have hok := isOK_eq h (hit List.mem_cons_self) now now'
      have hnext (s : Search) := ih s fun q hq => hit (List.mem_cons_of_mem p hq)
      have hjump (s : Search) (r : BitVec 64) :=
        @ih s (fromKey Pair.key (headKey keyN r) db) (List.dropWhile_sublist _).subset
      simp only [mortonSearchFrom, hok, hnext, hjump]

theorem tailOf_eq_nil {later : List Pair} (hnil : tailOf later = []) : later = [] := by
  cases later with
  | nil => rfl
  | cons p r => exact absurd hnil (key_ne_nil p)

/-- What is answered tells the entries and the tail. -/
theorem answer_inj {out out' : List (MCVector × Key)} {tail tail' : Key}
    (heq : Reply.container (render formatLine2 0 out ++ [tail]) =
      .container (render formatLine2 0 out' ++ [tail'])) : out = out' ∧ tail = tail' := by
  obtain ⟨hrender, htail⟩ := List.append_inj' (Reply.container.inj heq) rfl
  exact ⟨render_injective formatLine2_injective 0 hrender, List.singleton_inj.mp htail⟩

section Pages

variable {m : Key × Key → Option (BitVec 64 × Key)} {db : Db} (h : Holds m db) {keyN : Key}
  (hN : valid keyN) (hsep : separator ∉ keyN) {rect : MortonRectangle} {count : Key}

/-- A key from which a page of the range starts. -/
def Starts (keyN : Key) (rect : MortonRectangle) (start : Key) : Prop :=
  headKey keyN rect.z_min ≤ if start = [] then headKey keyN rect.z_min else start

theorem starts_nil : Starts keyN rect [] := by
  rw [Starts, if_pos rfl]

include h

/-- The next page goes over the pairs from its tail on. -/
theorem rangeFrom_next {start : Key} (hstart : Starts keyN rect start) {seen later : List Pair}
    {p : Pair} (hrange : rangeFrom keyN rect db start = seen ++ p :: later) :
    rangeFrom keyN rect db p.key = p :: later ∧ Starts keyN rect p.key := by
  let l := fromKey Pair.key (if start = [] then headKey keyN rect.z_min else start) db
  have hgoes : ∀ q ∈ front (stop keyN rect) l, stop keyN rect q.key = false := fun q hq => by
    have hstay := List.mem_takeWhile_imp hq
    rwa [Bool.not_eq_true'] at hstay
  have hfront : front (stop keyN rect) l = seen ++ p :: later := hrange
  have hsplit : l = seen ++ p :: (later ++ ScanTails.rest (stop keyN rect) l) := by
    have hboth : front (stop keyN rect) l ++ ScanTails.rest (stop keyN rect) l = l :=
      List.takeWhile_append_dropWhile
    rw [hfront, List.append_assoc, List.cons_append] at hboth
    exact hboth.symm
  have hfrom := (fromKey_of_append h.increasing hsplit).1
  have hmem : p ∈ l := by
    rw [hsplit]
    exact List.mem_append_right _ List.mem_cons_self
  have hseen : ∀ q ∈ seen, stop keyN rect q.key = false := fun q hq => hgoes q (by
    rw [hfront]
    exact List.mem_append_left _ hq)
  constructor
  · rw [rangeFrom, if_neg (key_ne_nil p), hfrom]
    rw [hsplit, front_append hseen] at hfront
    exact List.append_cancel_left hfront
  · rw [Starts, if_neg (key_ne_nil p)]
    exact hstart.trans (h.increasing.mem_fromKey.mp hmem).2

include hN hsep

/-- A query that is defined shows the points of the rectangle among some pairs of its range, at
least one unless there is none, and its tail is the key of the next pair. -/
theorem query_page {start : Key} (hstart : Starts keyN rect start) (bigmin_optimized : Bool)
    (now : UInt64) {reply : Reply}
    (hquery : rangeCommand bigmin_optimized now db (rangeParams2 keyN rect count start) =
      some reply) :
    ∃ seen later, rangeFrom keyN rect db start = seen ++ later ∧
      reply = .container (render formatLine2 0 (entries keyN rect 0 seen) ++ [tailOf later]) ∧
      (seen = [] → later = []) := by
  rw [rangeCommand_eq hN] at hquery
  obtain ⟨out, hout, rfl⟩ := Option.map_eq_some_iff.mp hquery
  have hsuffix :
      fromKey Pair.key (if start = [] then headKey keyN rect.z_min else start) db <:+ db :=
    List.dropWhile_suffix _
  rw [search_congr h bigmin_optimized now 0 keyN _ rect _ _ hsuffix.subset] at hout
  have hpos := room_pos count
  cases bigmin_optimized with
  | true =>
    have hanswers := search_answers h hN hsep rect 0 (room count) ITERATIONS_LOOPS_MAX
      ⟨0, 0, 0, 0, []⟩ hsuffix fun q hq => hstart.trans (h.increasing.mem_fromKey.mp hq).2
    rw [hout] at hanswers
    rcases hanswers with ⟨seen, later, hrange, hanswer, hprogress⟩ | ⟨hnone, -⟩
    · refine ⟨seen, later, hrange, ?_, hprogress (by decide) hpos (by decide)⟩
      rw [Option.some.inj hanswer, Search.answer, List.nil_append]
    · exact absurd hnone (Option.some_ne_none out)
  | false =>
    rw [naive_eq ITERATIONS_LOOPS_MAX (Nat.zero_le (room count))] at hout
    have hcut := @cut_append keyN rect 0 ITERATIONS_LOOPS_MAX (room count)
      (rangeFrom keyN rect db start)
    refine ⟨_, _, hcut.symm, ?_, cut_progress (by decide) hpos⟩
    rw [← Option.some.inj hout, Search.answer, List.nil_append]
    rfl

/-- As long as no code has to be computed a page of `MC2RANGE` is that of the naive query. Where one
has to be and is not defined, the page is not. -/
theorem query_steady {start : Key} (hstart : Starts keyN rect start) (now : UInt64)
    {seen later : List Pair}
    (hcut : cut keyN rect 0 ITERATIONS_LOOPS_MAX (room count) (rangeFrom keyN rect db start) =
      (seen, later)) :
    (InRow MAX_SKIPS (fun p => rect.inside (pointOf keyN p)) (seen.filter (isOK 0)) →
      rangeCommand true now db (rangeParams2 keyN rect count start) =
        some (.container (render formatLine2 0 (entries keyN rect 0 seen) ++ [tailOf later]))) ∧
    (¬rect.SameSides →
      ¬InRow MAX_SKIPS (fun p => rect.inside (pointOf keyN p)) (seen.filter (isOK 0)) →
      rangeCommand true now db (rangeParams2 keyN rect count start) = none) := by
  have hsuffix :
      fromKey Pair.key (if start = [] then headKey keyN rect.z_min else start) db <:+ db :=
    List.dropWhile_suffix _
  obtain ⟨hgoes, hends⟩ := search_steady h hN hsep 0 ITERATIONS_LOOPS_MAX (s := ⟨0, 0, 0, 0, []⟩)
    (Nat.zero_le (room count)) (Nat.zero_le _) hsuffix
    (fun q hq => hstart.trans (h.increasing.mem_fromKey.mp hq).2) hcut
  rw [rangeCommand_eq hN, search_congr h true now 0 keyN _ rect _ _ hsuffix.subset,
    ← inRowFrom_zero]
  constructor
  · intro hrow
    rw [hgoes hrow, Search.answer, List.nil_append]
    rfl
  · intro hsides hrow
    rw [hends (by decide) hsides hrow]
    rfl

/-- All pages of a query together show the points of the rectangle in its range. -/
theorem pages_flatten (bigmin_optimized : Bool) {start : Key} (hstart : Starts keyN rect start)
    {pages : List (List (MCVector × Key))}
    (hpages : SearchPages (fun now start =>
      rangeCommand bigmin_optimized now db (rangeParams2 keyN rect count start)) start pages) :
    pages.flatten = entries keyN rect 0 (rangeFrom keyN rect db start) := by
  induction hpages with
  | last hquery =>
    obtain ⟨seen, later, hrange, hreply, -⟩ :=
      query_page h hN hsep hstart bigmin_optimized _ hquery
    obtain ⟨rfl, htail⟩ := answer_inj hreply
    rw [hrange, tailOf_eq_nil htail.symm, List.append_nil, List.flatten_singleton]
  | next hquery hne hrest ih =>
    obtain ⟨seen, later, hrange, hreply, -⟩ :=
      query_page h hN hsep hstart bigmin_optimized _ hquery
    obtain ⟨rfl, rfl⟩ := answer_inj hreply
    cases later with
    | nil => exact absurd rfl hne
    | cons p r =>
      obtain ⟨hnext, hstarts⟩ := rangeFrom_next h hstart hrange
      rw [List.flatten_cons, ih hstarts, hrange, entries_append]
      exact congrArg _ (congrArg _ hnext)

/-- Queries that are always defined come to an end. -/
theorem exists_searchPages {bigmin_optimized : Bool}
    (hdefined : ∀ start, Starts keyN rect start → ∃ reply,
      rangeCommand bigmin_optimized 0 db (rangeParams2 keyN rect count start) = some reply)
    {start : Key} (hstart : Starts keyN rect start) :
    ∃ pages, SearchPages (fun now start =>
      rangeCommand bigmin_optimized now db (rangeParams2 keyN rect count start)) start pages := by
  induction hn : (rangeFrom keyN rect db start).length using Nat.strong_induction_on
    generalizing start with
  | _ n ih =>
    subst hn
    obtain ⟨reply, hquery⟩ := hdefined start hstart
    obtain ⟨seen, later, hrange, rfl, hprogress⟩ :=
      query_page h hN hsep hstart bigmin_optimized 0 hquery
    cases later with
    | nil => exact ⟨_, .last hquery⟩
    | cons p r =>
      obtain ⟨hnext, hstarts⟩ := rangeFrom_next h hstart hrange
      have hpos : 0 < seen.length :=
        List.length_pos_iff.mpr fun hnil => List.cons_ne_nil p r (hprogress hnil)
      have hlt : (rangeFrom keyN rect db p.key).length < (rangeFrom keyN rect db start).length := by
        rw [hnext, hrange, List.length_append]
        omega
      obtain ⟨pages, hpages⟩ := ih _ hlt hstarts rfl
      exact ⟨_, .next hquery (key_ne_nil p) hpages⟩

/-- In calm pages no code has to be computed. -/
theorem exists_calmPages {start : Key} (hstart : Starts keyN rect start)
    (hcalm : Calm keyN rect 0 (room count) (rangeFrom keyN rect db start)) :
    ∃ pages, SearchPages (fun now start =>
      rangeCommand true now db (rangeParams2 keyN rect count start)) start pages := by
  generalize hrange : rangeFrom keyN rect db start = range at hcalm
  induction hcalm generalizing start with
  | last hend hrow =>
    subst hrange
    have hquery := (query_steady h hN hsep hstart 0 Prod.mk.eta.symm).1 hrow
    rw [hend] at hquery
    exact ⟨_, .last hquery⟩
  | @next range p r hcut hrow hrest ih =>
    subst hrange
    have hquery := (query_steady h hN hsep hstart 0 Prod.mk.eta.symm).1 hrow
    rw [hcut] at hquery
    have hsplit := @cut_append keyN rect 0 ITERATIONS_LOOPS_MAX (room count)
      (rangeFrom keyN rect db start)
    rw [hcut] at hsplit
    obtain ⟨hnext, hstarts⟩ := rangeFrom_next h hstart hsplit.symm
    obtain ⟨pages, hpages⟩ := ih hstarts hnext
    exact ⟨_, .next hquery (key_ne_nil p) hpages⟩

/-- Pages that are defined where no code can be computed are calm. -/
theorem calm_of_searchPages (hsides : ¬rect.SameSides) {start : Key}
    (hstart : Starts keyN rect start) {pages : List (List (MCVector × Key))}
    (hpages : SearchPages (fun now start =>
      rangeCommand true now db (rangeParams2 keyN rect count start)) start pages) :
    Calm keyN rect 0 (room count) (rangeFrom keyN rect db start) := by
  have hpage {start : Key} (hstart : Starts keyN rect start) {now : UInt64}
      {out : List (MCVector × Key)} {tail : Key}
      (hquery : rangeCommand true now db (rangeParams2 keyN rect count start) =
        some (.container (render formatLine2 0 out ++ [tail]))) :
      InRow MAX_SKIPS (fun p => rect.inside (pointOf keyN p))
          ((cut keyN rect 0 ITERATIONS_LOOPS_MAX (room count)
            (rangeFrom keyN rect db start)).1.filter (isOK 0)) ∧
        tail = tailOf (cut keyN rect 0 ITERATIONS_LOOPS_MAX (room count)
          (rangeFrom keyN rect db start)).2 := by
    obtain ⟨hgoes, hends⟩ :=
      @query_steady _ _ h _ hN hsep rect count _ hstart now _ _ Prod.mk.eta.symm
    by_cases hrow : InRow MAX_SKIPS (fun p => rect.inside (pointOf keyN p))
        ((cut keyN rect 0 ITERATIONS_LOOPS_MAX (room count)
          (rangeFrom keyN rect db start)).1.filter (isOK 0))
    · rw [hgoes hrow] at hquery
      exact ⟨hrow, (answer_inj (Option.some.inj hquery)).2.symm⟩
    · rw [hends hsides hrow] at hquery
      exact absurd hquery.symm (Option.some_ne_none _)
  induction hpages with
  | last hquery =>
    obtain ⟨hrow, htail⟩ := hpage hstart hquery
    exact .last (tailOf_eq_nil htail.symm) hrow
  | @next now start out tail pages hquery hne hrest ih =>
    obtain ⟨hrow, htail⟩ := hpage hstart hquery
    have hsplit := @cut_append keyN rect 0 ITERATIONS_LOOPS_MAX (room count)
      (rangeFrom keyN rect db start)
    cases hcut : (cut keyN rect 0 ITERATIONS_LOOPS_MAX (room count)
      (rangeFrom keyN rect db start)).2 with
    | nil =>
      rw [hcut] at htail
      exact absurd htail hne
    | cons p r =>
      rw [hcut] at htail hsplit
      subst htail
      obtain ⟨hnext, hstarts⟩ := rangeFrom_next h hstart hsplit.symm
      have hrest' : Calm keyN rect 0 (room count) (rangeFrom keyN rect db p.key) := ih hstarts
      rw [hnext] at hrest'
      exact .next hcut hrow hrest'

omit h hsep in
/-- The naive query is always defined. -/
theorem naive_defined (start : Key) : ∃ reply,
    rangeCommand false 0 db (rangeParams2 keyN rect count start) = some reply := by
  rw [rangeCommand_eq hN, naive_eq ITERATIONS_LOOPS_MAX (Nat.zero_le (room count))]
  exact ⟨_, rfl⟩

/-- With corners on the same sides `MC2RANGE` is defined too. -/
theorem search_defined (hsides : rect.SameSides) {start : Key} (hstart : Starts keyN rect start) :
    ∃ reply, rangeCommand true 0 db (rangeParams2 keyN rect count start) = some reply := by
  have hanswers := search_answers h hN hsep rect 0 (room count) ITERATIONS_LOOPS_MAX
    ⟨0, 0, 0, 0, []⟩ (List.dropWhile_suffix _)
    fun q hq => hstart.trans (h.increasing.mem_fromKey.mp hq).2
  rw [rangeCommand_eq hN]
  rcases hanswers with ⟨seen, later, -, hanswer, -⟩ | ⟨-, hnot⟩
  · exact ⟨_, Option.map_eq_some_iff.mpr ⟨_, hanswer, rfl⟩⟩
  · exact absurd hsides hnot

/-- The pages of `MC2RANGE` come to an end if and only if all codes that have to be computed are
defined. -/
theorem exists_pages_iff :
    (∃ pages, SearchPages (fun now start =>
      rangeCommand true now db (rangeParams2 keyN rect count start)) [] pages) ↔
      rect.SameSides ∨ Calm keyN rect 0 (room count) (rangeFrom keyN rect db []) := by
  constructor
  · rintro ⟨pages, hpages⟩
    by_cases hsides : rect.SameSides
    · exact .inl hsides
    · exact .inr (calm_of_searchPages h hN hsep hsides starts_nil hpages)
  · rintro (hsides | hcalm)
    · exact exists_searchPages h hN hsep (fun start => search_defined h hN hsep hsides) starts_nil
    · exact exists_calmPages h hN hsep starts_nil hcalm

/-- The whole range shows the points of the rectangle that have a value. -/
theorem lists_entries : Lists (visible fun s => m (keyN, s))
    (fun z => rect.inside (fromMorton2D32 z) = true)
    ((entries keyN rect 0 (rangeFrom keyN rect db [])).map (Prod.map toMorton2D32 id)) := by
  let inRect (p : Pair) : Bool := rect.inside (pointOf keyN p)
  have hmap : (entries keyN rect 0 (rangeFrom keyN rect db [])).map (Prod.map toMorton2D32 id) =
      ((between keyN rect.z_min rect.z_max 0 db).filter inRect).map
        fun p => (codeOf keyN p.key, p.val) := by
    rw [entries, List.map_map, between, List.filter_filter]
    have hsame : good keyN rect 0 = fun p => inRect p && isOK 0 p :=
      funext fun p => Bool.and_comm _ _
    rw [hsame]
    refine List.map_congr_left fun p _ => ?_
    exact Prod.ext (toMorton_fromMorton2D32 (codeOf keyN p.key)) rfl
  have hinc : Increasing Pair.key ((between keyN rect.z_min rect.z_max 0 db).filter inRect) :=
    ((h.increasing.fromKey.sublist (List.takeWhile_sublist _)).sublist
      List.filter_sublist).sublist List.filter_sublist
  rw [hmap]
  refine lists_visible h hN hinc (fun p hp => ?_) fun s x hx hne hin => ?_
  · obtain ⟨hp, hin⟩ := List.mem_filter.mp hp
    obtain ⟨hmem, hok, hle, hgo⟩ := (mem_between h).mp hp
    obtain ⟨s, x, hpoint, hcode, -⟩ := live_range h hN hsep hmem hok hle hgo
    refine ⟨s, x, hpoint, ?_⟩
    rw [← hcode]
    exact hin
  · obtain ⟨p, hp, hkey, -, hok⟩ := exists_live h hx hne 0
    have hused := used_of_point h hx
    have hiff := between_dataKey_iff hN hused rect.z_min rect.z_max x.1
    have hbox := MortonRectangle.inside_iff.mp hin
    have hlo := MortonKeys.toMorton_le MortonCurve.lawful_2D32 fun d => (hbox d).1
    have hhi := MortonKeys.toMorton_le MortonCurve.lawful_2D32 fun d => (hbox d).2
    have hz := toMorton_fromMorton2D32 x.1
    rw [toMorton2D32] at hz
    rw [hz] at hlo hhi
    refine ⟨p, List.mem_filter.mpr ⟨(mem_between h).mpr ⟨hp, hok, ?_, ?_⟩, ?_⟩, hkey⟩
    · rw [hkey]
      exact hiff.1.mpr hlo
    · rw [hkey]
      exact hiff.2.mpr hhi
    · have hcode := codeOf_dataKey hused x.1
      dsimp only [inRect, pointOf]
      rw [hkey, hcode]
      exact hin

end Pages

/-! ## Exactness -/

/-- `MC2RANGE` is exact: its pages and those of the naive query come to an end, and together they
show each point of the rectangle once, with its value, in the order of the codes. -/
structure Exact (commands : List Command) (keyN : Key) (rect : MortonRectangle) (count : Key) :
    Prop where
  ends : ∃ pages, SearchPages
    (fun now start => MC2RANGE now (rangeParams2 keyN rect count start) (after commands)) [] pages
  ends_naive : ∃ pages, SearchPages
    (fun now start => MC2RANGENAIVE now (rangeParams2 keyN rect count start) (after commands))
    [] pages
  same : ∀ pages naive, SearchPages
    (fun now start => MC2RANGE now (rangeParams2 keyN rect count start) (after commands))
    [] pages → SearchPages
    (fun now start => MC2RANGENAIVE now (rangeParams2 keyN rect count start) (after commands))
    [] naive → pages.flatten = naive.flatten
  lists : ∀ pages, SearchPages
    (fun now start => MC2RANGE now (rangeParams2 keyN rect count start) (after commands))
    [] pages → Lists (stored commands keyN) (fun z => rect.inside (fromMorton2D32 z) = true)
      (pages.flatten.map (Prod.map toMorton2D32 id))

/-- For all commands on names without separators, corners and page sizes `MC2RANGE` is exact if and
only if no point of the rectangle has an empty value, and the corners are on the same side of the
middle in each coordinate, or no code has to be computed in the pages of the naive query. -/
theorem mc2range_exact_iff {commands : List Command} (hkeyN : ∀ c ∈ commands, separator ∉ c.keyN)
    {keyN : Key} (hN : valid keyN) (hsep : separator ∉ keyN) (rect : MortonRectangle)
    (count : Key) :
    Exact commands keyN rect count ↔
      (∀ s x, stored commands keyN s = some x → rect.inside (fromMorton2D32 x.1) = true →
        x.2 ≠ []) ∧
      (rect.SameSides ∨
        Calm keyN rect 0 (room count) (rangeFrom keyN rect (after commands) [])) := by
  have h := after_holds hkeyN
  have hflatten := @pages_flatten _ _ h keyN hN hsep rect count
  have hlists : ∀ {pages}, SearchPages (fun now start =>
      MC2RANGE now (rangeParams2 keyN rect count start) (after commands)) [] pages →
      (Lists (stored commands keyN) (fun z => rect.inside (fromMorton2D32 z) = true)
        (pages.flatten.map (Prod.map toMorton2D32 id)) ↔
      ∀ s x, stored commands keyN s = some x → (rect.inside (fromMorton2D32 x.1) = true ↔
        rect.inside (fromMorton2D32 x.1) = true ∧ x.2 ≠ [])) := by
    intro pages hpages
    rw [hflatten true starts_nil hpages]
    exact (lists_entries h hN hsep).visible_iff
  constructor
  · intro hexact
    obtain ⟨pages, hpages⟩ := hexact.ends
    refine ⟨fun s x hx hin => ?_, (exists_pages_iff h hN hsep).mp ⟨pages, hpages⟩⟩
    exact (((hlists hpages).mp (hexact.lists pages hpages) s x hx).mp hin).2
  · rintro ⟨hvalued, hdefined⟩
    exact
      { ends := (exists_pages_iff h hN hsep).mpr hdefined
        ends_naive := exists_searchPages h hN hsep (fun start _ => naive_defined hN start)
          starts_nil
        same := fun pages naive hpages hnaive =>
          (hflatten true starts_nil hpages).trans (hflatten false starts_nil hnaive).symm
        lists := fun pages hpages => (hlists hpages).mpr fun s x hx =>
          ⟨fun hin => ⟨hin, hvalued s x hx hin⟩, fun hin => hin.1⟩ }

/-- One point, at the coordinates three and zero. -/
theorem mc2range_exact_five : Exact [addOne [53]] [107] ⟨fun _ => 0, fun _ => 10⟩ [49, 48] := by
  have hmsb : (0 : BitVec 32).msb = (10 : BitVec 32).msb := by decide
  refine (mc2range_exact_iff (by decide) (by decide) (by decide) _ [49, 48]).mpr
    ⟨fun s x hx _ => ?_, .inl fun _ => hmsb⟩
  rw [(stored_addOne hx).2]
  decide

/-- The command that adds points at the coordinates 2147483647 and one, more than may be skipped in
a row, and another at 2147483648 and zero. -/
def addOutside : Command :=
  .MC2ADD (fun _ => someEnv) ([[], [107]] ++
    ((List.range 21).flatMap fun i =>
      [[Fin.ofNat 256 (97 + i)], numeral 2147483647, [49], [118]]) ++
    [[122], numeral 2147483648, [48], [118]])

/-- A rectangle over the middle of the first coordinate. -/
def overMiddle : MortonRectangle :=
  ⟨fun d => if d = 0 then 5 else 0, fun d => if d = 0 then 2147483653 else 0⟩

/-- The first live points of the first page are outside. -/
theorem row_spec :
    let row := ((cut [107] overMiddle 0 ITERATIONS_LOOPS_MAX (room [49, 48])
      (rangeFrom [107] overMiddle (after [addOutside]) [])).1.filter (isOK 0)).take 21
    row.length = 21 ∧ ∀ p ∈ row, overMiddle.inside (pointOf [107] p) = false := by
  decide +kernel

/-- At the last of them a code has to be computed. -/
theorem not_exact_outside : ¬Exact [addOutside] [107] overMiddle [49, 48] := by
  have hkeyN : ∀ c ∈ [addOutside], separator ∉ c.keyN := fun c hc => by
    rw [List.mem_singleton.mp hc]
    decide
  obtain ⟨hlength, houtside⟩ := row_spec
  have hnotRow : ¬InRow MAX_SKIPS (fun p => overMiddle.inside (pointOf [107] p))
      ((cut [107] overMiddle 0 ITERATIONS_LOOPS_MAX (room [49, 48])
        (rangeFrom [107] overMiddle (after [addOutside]) [])).1.filter (isOK 0)) := by
    intro hrow
    have hle := hrow _ (List.take_prefix 21 _).isInfix houtside
    rw [hlength] at hle
    exact absurd hle (by decide)
  intro hexact
  rcases (exists_pages_iff (after_holds hkeyN) (by decide) (by decide)).mp hexact.ends with
    hsides | hcalm
  · exact absurd (hsides 0) (by decide)
  · cases hcalm with
    | last _ hrow => exact hnotRow hrow
    | next _ hrow _ => exact hnotRow hrow

end HM4.MortonSearch
