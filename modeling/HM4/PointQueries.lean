import HM4.LinearCurve

/-!
# Queries for one point

`MC1POINT` and `MC2POINT` look for the records at one coordinate, in pages. A query that goes on
from a key takes this key for the place where it starts and for the prefix at which it stops, so
that its pages leave records out; `MC2POINT` goes on from the text of its page size.
-/

namespace HM4.PointQueries

open LexPrefix Bytes Pairs KeyedList Database Separated IndexToken AccumulateResults ScanTails
  PointSets PointPages LinearCurve RedisProtocol
open Queue (ITERATIONS_LOOPS_MAX)

/-! ## The commands -/

/-- `linearSearchPoint`. -/
def linearSearchPoint (now : UInt64) (keyN : Key) (count : ℕ) (x_coord : BitVec 64)
    (startKey : Key) (db : Db) : Reply :=
  let pre := if startKey ≠ [] then startKey else headKey keyN x_coord
  answer formatLine (fun _ => x_coord) count (StopPrefixPredicate pre) now
    (fromKey Pair.key pre db)

/-- `MC1POINT`. -/
def MC1POINT (now : UInt64) (p : List Key) (db : Db) : Reply :=
  if p.length ≠ 4 ∧ p.length ≠ 5 then .error .NEED_EXACT_PARAMS_45
  else
    let keyN := p.getD 1 []
    if keyN = [] then .error .EMPTY_KEY
    else if ¬valid keyN then .error .INVALID_KEY_SIZE
    else
      let x := fromString 32 (p.getD 2 []) 0
      let count := myClamp (p.getD 3 []) ITERATIONS_RESULTS_MIN ITERATIONS_RESULTS_MAX
      let startKey := if p.length = 5 then p.getD 4 [] else []
      linearSearchPoint now keyN count (BitVec.ofNat 64 x) startKey db

attribute [local instance] two_neZero

/-- `formatLine` of two coordinates. -/
def formatLine2 (v : MCVector) (id : ℕ) : Key :=
  fill 10 (numeral (v 0).toNat) ++ 44 :: (fill 10 (numeral (v 1).toNat) ++ 44 :: hex08 id)

/-- `mortonSearchPoint`. -/
def mortonSearchPoint (now : UInt64) (keyN : Key) (count : ℕ) (point : MCVector)
    (startKey : Key) (db : Db) : Reply :=
  let pre := if startKey ≠ [] then startKey else headKey keyN (toMorton2D32 point)
  answer formatLine2 (fun _ => point) count (StopPrefixPredicate pre) now (fromKey Pair.key pre db)

/-- `DIM`. -/
def DIM : ℕ := 2

/-- `MC2POINT`; its start key is the parameter of its page size. -/
def MC2POINT (now : UInt64) (p : List Key) (db : Db) : Reply :=
  if p.length ≠ 2 + DIM + 1 ∧ p.length ≠ 2 + DIM + 1 + 1 then .error .NEED_EXACT_PARAMS_45
  else
    let keyN := p.getD 1 []
    if keyN = [] then .error .EMPTY_KEY
    else if ¬valid keyN then .error .INVALID_KEY_SIZE
    else
      let pr := 2
      let point := vectorOf fun d => p.getD (d + pr) []
      let sx := DIM + pr
      let count := myClamp (p.getD (sx + 0) []) ITERATIONS_RESULTS_MIN ITERATIONS_RESULTS_MAX
      let startKey := if p.length = 2 + DIM + 1 + 1 then p.getD (sx + 0) [] else []
      mortonSearchPoint now keyN count point startKey db

/-- The parameters of `MC1POINT`; the first of its queries has no key to start from. -/
def pointParams1 (keyN : Key) (x : BitVec 64) (count start : Key) : List Key :=
  [[], keyN, numeral x.toNat, count] ++ if start = [] then [] else [start]

/-- The parameters of `MC2POINT`. -/
def pointParams2 (keyN : Key) (v : MCVector) (count start : Key) : List Key :=
  [[], keyN, numeral (v 0).toNat, numeral (v 1).toNat, count] ++
    if start = [] then [] else [start]

theorem mc1point_eq {keyN : Key} (hN : valid keyN) (x : BitVec 64) (count : Key) (now : UInt64)
    (start : Key) (db : Db) :
    MC1POINT now (pointParams1 keyN x count start) db =
      answer formatLine (fun _ => readBound x) (room count)
        (StopPrefixPredicate (if start = [] then headKey keyN (readBound x) else start)) now
        (fromKey Pair.key (if start = [] then headKey keyN (readBound x) else start) db) := by
  have hread (startKey : Key) :
      linearSearchPoint now keyN (room count)
          (BitVec.ofNat 64 (fromString 32 (numeral x.toNat) 0)) startKey db =
        linearSearchPoint now keyN (room count) (readBound x) startKey db := by
    rw [ofNat_fromString]
  unfold MC1POINT pointParams1
  by_cases hstart : start = []
  · simp only [if_pos hstart, List.append_nil, List.length_cons, List.length_nil,
      List.getD_cons_succ, List.getD_cons_zero, hN, hN.1, not_true_eq_false, if_false]
    exact hread []
  · simp only [if_neg hstart, List.cons_append, List.nil_append, List.length_cons, List.length_nil,
      List.getD_cons_succ, List.getD_cons_zero, hN, hN.1, not_true_eq_false, if_false]
    refine (hread start).trans ?_
    rw [linearSearchPoint, if_pos hstart]

theorem vectorOf_numeral (v : MCVector) (rest : List Key) :
    (vectorOf fun d => (numeral (v 0).toNat :: numeral (v 1).toNat :: rest).getD d []) = v := by
  have hread (x : BitVec 32) : BitVec.ofNat 32 (fromString 32 (numeral x.toNat) 0) = x := by
    rw [fromString_numeral x.isLt, BitVec.ofNat_toNat, BitVec.setWidth_eq]
  funext d
  rcases Fin.exists_fin_two.mp ⟨d, rfl⟩ with hd | hd
  · rw [vectorOf, hd]
    exact hread (v 0)
  · rw [vectorOf, hd]
    exact hread (v 1)

/-- Where a query of `MC2POINT` starts and stops. -/
def resumed (keyN : Key) (v : MCVector) (count start : Key) : Key :=
  if start = [] then headKey keyN (toMorton2D32 v)
  else if count = [] then headKey keyN (toMorton2D32 v) else count

theorem mc2point_eq {keyN : Key} (hN : valid keyN) (v : MCVector) (count : Key) (now : UInt64)
    (start : Key) (db : Db) :
    MC2POINT now (pointParams2 keyN v count start) db =
      answer formatLine2 (fun _ => v) (room count) (StopPrefixPredicate (resumed keyN v count start))
        now (fromKey Pair.key (resumed keyN v count start) db) := by
  unfold MC2POINT pointParams2
  by_cases hstart : start = []
  · have hv := vectorOf_numeral v [count]
    simp only [if_pos hstart, List.append_nil, List.length_cons, List.length_nil, DIM,
      List.getD_cons_succ, List.getD_cons_zero, hN, hN.1, not_true_eq_false, if_false, hv]
    rw [resumed, if_pos hstart]
    rfl
  · have hv := vectorOf_numeral v [count, start]
    simp only [if_neg hstart, List.cons_append, List.nil_append, List.length_cons, List.length_nil,
      DIM, List.getD_cons_succ, List.getD_cons_zero, hN, hN.1, not_true_eq_false, if_false, hv]
    rw [resumed, if_neg hstart]
    by_cases hcount : count = []
    · rw [if_pos hcount, hcount]
      rfl
    · rw [if_neg hcount]
      change mortonSearchPoint now keyN (room count) v count db = _
      rw [mortonSearchPoint, if_pos hcount]

theorem formatLine2_injective (id : ℕ) : Function.Injective fun v => formatLine2 v id := by
  intro v v' heq
  have hlen (x : BitVec 32) : (fill 10 (numeral x.toNat)).length = 10 :=
    length_fill (numeral_length_le (k := 9) (x.isLt.trans (by decide)))
  obtain ⟨h0, hrest⟩ := List.append_inj heq ((hlen _).trans (hlen _).symm)
  have h1 := List.append_cancel_right (List.cons.inj hrest).2
  funext d
  rcases Fin.exists_fin_two.mp ⟨d, rfl⟩ with rfl | rfl
  · exact BitVec.eq_of_toNat_eq (fill_numeral_injective 10 h0)
  · exact BitVec.eq_of_toNat_eq (fill_numeral_injective 10 h1)

/-! ## Pages that go on from their tails -/

/-- The pairs with a prefix are in front of the place where a page from this prefix on stops. -/
theorem front_of_le {l : List Pair} (hl : Increasing Pair.key l) {pre : Key}
    (hle : ∀ p ∈ l, pre ≤ p.key) :
    front (StopPrefixPredicate pre) l = l.filter fun p => decide (pre <+: p.key) := by
  have htake := takeWhile_fromKey hl pre
  rw [fromKey_of_le hle] at htake
  exact htake

section Covers

variable (alive : Pair → Bool) (count : ℕ) (good : Pair → Bool)

/-- A list is cut into pages, and the key of the first pair of a page is the prefix at which the
page stops. The good pairs are covered if every page that is cut goes over good ones only, and if
the good ones from the last page on are those with its prefix. -/
inductive Covers : Key → List Pair → Prop
  | last {start l}
      (h : (page (StopPrefixPredicate start) alive ITERATIONS_LOOPS_MAX count l).2 = [])
      (hgood : ∀ p ∈ l, alive p = true → (start <+: p.key ↔ good p = true)) : Covers start l
  | next {start l p r}
      (h : (page (StopPrefixPredicate start) alive ITERATIONS_LOOPS_MAX count l).2 = p :: r)
      (hseen : ∀ q ∈ (page (StopPrefixPredicate start) alive ITERATIONS_LOOPS_MAX count l).1,
        alive q = true → good q = true)
      (hrest : Covers p.key (p :: r)) : Covers start l

variable {alive count good}

theorem filter_and_eq {l : List Pair} (h : ∀ q ∈ l, alive q = true → good q = true) :
    l.filter (fun p => alive p && good p) = l.filter alive := by
  refine List.filter_congr fun q hq => ?_
  cases halive : alive q with
  | false => rw [Bool.false_and]
  | true => rw [Bool.true_and, h q hq halive]

/-- The pairs with a prefix are the good ones if they are the same among those alive. -/
theorem filter_prefix_eq_iff {l : List Pair} {start : Key} :
    l.filter (fun p => alive p && decide (start <+: p.key)) =
        l.filter (fun p => alive p && good p) ↔
      ∀ p ∈ l, alive p = true → (start <+: p.key ↔ good p = true) := by
  constructor
  · intro heq p hp halive
    have hmem : (p ∈ l.filter fun p => alive p && decide (start <+: p.key)) ↔
        p ∈ l.filter fun p => alive p && good p := by rw [heq]
    simp only [List.mem_filter, hp, halive, Bool.true_and, true_and, decide_eq_true_iff] at hmem
    exact hmem
  · intro hgood
    refine List.filter_congr fun p hp => ?_
    cases halive : alive p with
    | false => rw [Bool.false_and, Bool.false_and]
    | true =>
      rw [Bool.true_and, Bool.true_and, Bool.eq_iff_iff, decide_eq_true_iff]
      exact hgood p hp halive

/-- The pages show the good pairs if they cover them. -/
theorem shows_iff_covers {db : Db} (hdb : Increasing Pair.key db) {start : Key}
    {l shown : List Pair} (h : Shows StopPrefixPredicate alive count start l shown)
    (hl : l = fromKey Pair.key start db) :
    shown = l.filter (fun p => alive p && good p) ↔ Covers alive count good start l := by
  induction h with
  | @last start l h =>
    have hinc : Increasing Pair.key l := hl ▸ hdb.fromKey
    have hfront := front_of_le hinc fun p hp => (hdb.mem_fromKey.mp (hl ▸ hp)).2
    rw [page_fst_of_end h, hfront, List.filter_filter, filter_prefix_eq_iff]
    constructor
    · intro hgood
      exact .last h hgood
    · intro hcovers
      cases hcovers with
      | last _ hgood => exact hgood
      | next h' => exact nomatch h.symm.trans h'
  | @next start l p r shown h hrest ih =>
    have hsplit := (page_of_cut h).1
    have hnext : p :: r = fromKey Pair.key p.key db :=
      (fromKey_of_append hdb (hl.symm.trans hsplit)).1.symm
    have hfilter : l.filter (fun p => alive p && good p) =
        (page (StopPrefixPredicate start) alive ITERATIONS_LOOPS_MAX count l).1.filter
            (fun p => alive p && good p) ++ (p :: r).filter fun p => alive p && good p := by
      rw [← List.filter_append, ← hsplit]
    rw [hfilter]
    constructor
    · intro heq
      have hseen : ∀ q ∈ (page (StopPrefixPredicate start) alive ITERATIONS_LOOPS_MAX count l).1,
          alive q = true → good q = true := by
        intro q hq halive
        have hmem : q ∈ l.filter fun p => alive p && good p := by
          rw [hfilter, ← heq]
          exact List.mem_append_left _ (List.mem_filter.mpr ⟨hq, halive⟩)
        have hboth := (List.mem_filter.mp hmem).2
        rw [halive, Bool.true_and] at hboth
        exact hboth
      rw [filter_and_eq hseen] at heq
      exact .next h hseen ((ih hnext).mp (List.append_cancel_left heq))
    · intro hcovers
      cases hcovers with
      | last h' => exact nomatch h.symm.trans h'
      | next h' hseen hrest' =>
        rw [h] at h'
        obtain ⟨rfl, rfl⟩ := List.cons.inj h'
        rw [(ih hnext).mpr hrest', filter_and_eq hseen]

end Covers

/-! ## The records at a code -/

/-- A live pair has a value. -/
theorem val_ne_nil {now : UInt64} {p : Pair} (hok : isOK now p = true) : p.val ≠ [] := by
  intro hnil
  rw [isOK, (isTombstone_iff p).mpr (.inr hnil), Bool.not_true, Bool.false_and] at hok
  exact Bool.false_ne_true hok

/-- The live pairs at a code. -/
def atCode (keyN : Key) (z : BitVec 64) (now : UInt64) (l : List Pair) : List Pair :=
  l.filter fun p => isOK now p && decide (headKey keyN z <+: p.key)

/-- The records of some points at a code, as they should be shown. -/
def Valued (f : Key → Option (BitVec 64 × Key)) (z : BitVec 64) : Prop :=
  ∀ s x, f s = some x → x.1 = z → x.2 ≠ []

section At

variable {m : Key × Key → Option (BitVec 64 × Key)} {db : Db} (h : Holds m db) {keyN : Key}
  (hN : valid keyN) (hsep : separator ∉ keyN) (z : BitVec 64) (now : UInt64)

include h in
theorem atCode_eq_front : atCode keyN z now db =
    (front (StopPrefixPredicate (headKey keyN z))
      (fromKey Pair.key (headKey keyN z) db)).filter (isOK now) := by
  have hfront : front (StopPrefixPredicate (headKey keyN z))
      (fromKey Pair.key (headKey keyN z) db) = _ := takeWhile_fromKey h.increasing (headKey keyN z)
  rw [hfront, List.filter_filter, atCode]

include h in
theorem atCode_fromKey : atCode keyN z now (fromKey Pair.key (headKey keyN z) db) =
    atCode keyN z now db := by
  rw [atCode_eq_front h]
  have hinc : Increasing Pair.key (fromKey Pair.key (headKey keyN z) db) := h.increasing.fromKey
  rw [front_of_le hinc fun p hp => (h.increasing.mem_fromKey.mp hp).2, List.filter_filter, atCode]

include h hN hsep

theorem lists_atCode : Lists (visible fun s => m (keyN, s)) (fun w => w = z)
    ((atCode keyN z now db).map fun p => (z, p.val)) := by
  have hpoint : ∀ p ∈ atCode keyN z now db, ∃ s x, IsPoint m keyN p s x ∧ x.1 = z := by
    intro p hp
    obtain ⟨hmem, hboth⟩ := List.mem_filter.mp hp
    rw [Bool.and_eq_true, decide_eq_true_iff] at hboth
    exact live_prefix h hN hsep hmem hboth.1 hboth.2
  have hcodes : (atCode keyN z now db).map (fun p => (z, p.val)) =
      (atCode keyN z now db).map fun p => (codeOf keyN p.key, p.val) := by
    refine List.map_congr_left fun p hp => ?_
    obtain ⟨s, x, hx, rfl⟩ := hpoint p hp
    rw [hx.2.1]
    exact congrArg (·, p.val) (codeOf_dataKey (used_of_point h hx.1) x.1).symm
  have hinc : Increasing Pair.key (atCode keyN z now db) := h.increasing.sublist List.filter_sublist
  rw [hcodes]
  refine lists_visible h hN hinc hpoint fun s x hx hne hw => ?_
  obtain ⟨p, hp, hkey, -, hok⟩ := exists_live h hx hne now
  refine ⟨p, List.mem_filter.mpr ⟨hp, ?_⟩, hkey⟩
  rw [hok, Bool.true_and, decide_eq_true_iff, hkey, ← hw]
  exact headKey_isPrefix hN (used_of_point h hx) x.1

/-- Some live pairs are an answer if all points have values and they have the values of the pairs
at the code. -/
theorem lists_iff_perm {shown : List Pair} (hshown : ∀ p ∈ shown, isOK now p = true) :
    Lists (fun s => m (keyN, s)) (fun w => w = z) (shown.map fun p => (z, p.val)) ↔
      Valued (fun s => m (keyN, s)) z ∧
        (shown.map Pair.val).Perm ((atCode keyN z now db).map Pair.val) := by
  have hvisible := lists_atCode h hN hsep z now
  have hall (hvalued : Valued (fun s => m (keyN, s)) z) :
      Lists (fun s => m (keyN, s)) (fun w => w = z)
        ((atCode keyN z now db).map fun p => (z, p.val)) :=
    hvisible.visible_iff.mpr fun s x hx => ⟨fun hw => ⟨hw, hvalued s x hx hw⟩, And.left⟩
  constructor
  · intro hlists
    have hvalued : Valued (fun s => m (keyN, s)) z := by
      intro s x hx hw
      obtain ⟨p, hp, hpx⟩ := List.mem_map.mp (hlists.mem_iff.mpr ⟨s, hx, hw⟩)
      rw [← hpx]
      exact val_ne_nil (hshown p hp)
    have hperm := (hlists.perm (hall hvalued)).map Prod.snd
    rw [List.map_map, List.map_map] at hperm
    exact ⟨hvalued, hperm⟩
  · rintro ⟨hvalued, hperm⟩
    have hentries := hperm.map fun v => (z, v)
    rw [List.map_map, List.map_map] at hentries
    refine (hall hvalued).of_perm hentries ?_
    rw [List.pairwise_map]
    exact List.pairwise_of_forall fun _ _ => BitVec.le_refl z

omit hN hsep in
/-- What is shown up to some place are the pairs at the code if there are as many of them. -/
theorem eq_atCode {n : ℕ} {shown : List Pair}
    (hshown : shown = ((fromKey Pair.key (headKey keyN z) db).take n).filter (isOK now))
    (hperm : (shown.map Pair.val).Perm ((atCode keyN z now db).map Pair.val)) :
    shown = atCode keyN z now db := by
  have hlen := hperm.length_eq
  rw [List.length_map, List.length_map] at hlen
  rw [atCode_eq_front h] at hlen ⊢
  have hlead : front (StopPrefixPredicate (headKey keyN z))
      (fromKey Pair.key (headKey keyN z) db) <+: fromKey Pair.key (headKey keyN z) db :=
    List.takeWhile_prefix _
  rw [hshown] at hlen ⊢
  rcases List.prefix_or_prefix_of_prefix (List.take_prefix n _) hlead with hp | hp
  · exact (hp.sublist.filter _).eq_of_length hlen
  · exact ((hp.sublist.filter _).eq_of_length hlen.symm).symm

end At

/-! ## All pages of the queries -/

section Queries

variable {m : Key × Key → Option (BitVec 64 × Key)} {db : Db} (h : Holds m db) {keyN : Key}
  (hN : valid keyN) (hsep : separator ∉ keyN)

/-- The pairs of a coordinate that fits into 32 bits. -/
def isAt (keyN : Key) (x : BitVec 64) (p : Pair) : Bool :=
  decide (x.toNat < 2 ^ 32) && decide (headKey keyN x <+: p.key)

/-- When `MC1POINT` is exact: every point at the coordinate has a value and the coordinate fits
into 32 bits, and the pages cover the pairs at it. -/
structure Covered (f : Key → Option (BitVec 64 × Key)) (keyN : Key) (x : BitVec 64) (count : ℕ)
    (now : UInt64) (db : Db) : Prop where
  valued : ∀ s y, f s = some y → y.1 = x → x.toNat < 2 ^ 32 ∧ y.2 ≠ []
  covers : Covers (isOK now) count (isAt keyN x) (headKey keyN (readBound x))
    (fromKey Pair.key (headKey keyN (readBound x)) db)

include h hN hsep

/-- All pages of `MC1POINT` together are exact if the pages cover the pairs at the coordinate. -/
theorem point1_iff (x : BitVec 64) (count : Key) (now : UInt64) :
    (∃ pages, Pages formatLine
        (fun now start => MC1POINT now (pointParams1 keyN x count start) db) [] pages ∧
        Lists (fun s => m (keyN, s)) (fun w => w = x) pages.flatten) ↔
      Covered (fun s => m (keyN, s)) keyN x (room count) now db := by
  have hquery (now : UInt64) (start : Key) := mc1point_eq hN x count now start db
  obtain ⟨shown, hshown⟩ := @exists_shows StopPrefixPredicate (isOK now) (room count)
    (room_pos count) (headKey keyN (readBound x))
    (fromKey Pair.key (headKey keyN (readBound x)) db)
  obtain ⟨pages, hpages, hflatten⟩ := @exists_pages _ _ _ _ _ _ h.increasing now
    (fun now start => MC1POINT now (pointParams1 keyN x count start) db) _ (hquery now)
    _ _ _ hshown [] (if_pos rfl) rfl
  have hcovers := @shows_iff_covers _ _ (isAt keyN x) _ h.increasing _ _ _ hshown rfl
  obtain ⟨n, htake⟩ := hshown.eq_take
  have halive : ∀ p ∈ shown, isOK now p = true := fun p hp => by
    rw [htake] at hp
    exact (List.mem_filter.mp hp).2
  have hexact : (∃ pages, Pages formatLine
      (fun now start => MC1POINT now (pointParams1 keyN x count start) db) [] pages ∧
      Lists (fun s => m (keyN, s)) (fun w => w = x) pages.flatten) ↔
      Lists (fun s => m (keyN, s)) (fun w => w = x)
        (shown.map fun p => (readBound x, p.val)) := by
    rw [← hflatten]
    exact hpages.exists_iff formatLine_injective (query_congr h hquery) _
  rw [hexact]
  by_cases hx : x.toNat < 2 ^ 32
  · have hread : readBound x = x := if_pos hx
    rw [hread] at hcovers htake ⊢
    have hgood : (fromKey Pair.key (headKey keyN x) db).filter (fun p => isOK now p && isAt keyN x p) =
        atCode keyN x now db := by
      rw [← atCode_fromKey h x now, atCode]
      simp only [isAt, decide_eq_true hx, Bool.true_and]
    rw [hgood] at hcovers
    rw [lists_iff_perm h hN hsep x now halive]
    constructor
    · rintro ⟨hvalued, hperm⟩
      refine ⟨fun s y hy hw => ⟨hx, hvalued s y hy hw⟩, ?_⟩
      rw [hread]
      exact hcovers.mp (eq_atCode h x now htake hperm)
    · rintro ⟨hvalued, hcov⟩
      rw [hread] at hcov
      rw [hcovers.mpr hcov]
      exact ⟨fun s y hy hw => (hvalued s y hy hw).2, .refl _⟩
  · have hread : readBound x = 0#64 := if_neg hx
    have hgood : (fromKey Pair.key (headKey keyN (readBound x)) db).filter
        (fun p => isOK now p && isAt keyN x p) = [] := by
      simp only [isAt, decide_eq_false hx, Bool.false_and, Bool.and_false, List.filter_false]
    rw [hgood] at hcovers
    have hzero : (0#64 : BitVec 64) ≠ x := by
      rintro rfl
      exact hx (by decide)
    constructor
    · intro hlist
      have hnone : shown = [] := by
        refine List.eq_nil_iff_forall_not_mem.mpr fun p hp => ?_
        have hmem : (readBound x, p.val) ∈ shown.map fun p => (readBound x, p.val) :=
          List.mem_map_of_mem hp
        obtain ⟨s, -, hw⟩ := hlist.mem_iff.mp hmem
        exact hzero (hread.symm.trans hw)
      refine ⟨fun s y hy hw => ?_, hcovers.mp hnone⟩
      have hmem := hlist.mem_iff.mpr ⟨s, hy, hw⟩
      rw [hnone] at hmem
      exact absurd hmem List.not_mem_nil
    · rintro ⟨hvalued, hcov⟩
      rw [hcovers.mpr hcov]
      refine ⟨[], List.nodup_nil, fun s => ?_, .refl _, List.Pairwise.nil⟩
      refine iff_of_false List.not_mem_nil ?_
      rintro ⟨y, hy, hw⟩
      exact hx (hvalued s y hy hw).1

omit h hN hsep in
/-- A query that always gives a tail has no last page. -/
theorem not_pages {α : Type*} {line : α → ℕ → Key} {query : UInt64 → Key → Reply}
    (hquery : ∀ now start, start ≠ [] → ∃ entries tail, tail ≠ [] ∧
      query now start = .container (render line 0 entries ++ [tail])) {start : Key}
    (hstart : start ≠ []) {pages : List (List (α × Key))} : ¬Pages line query start pages := by
  intro hpages
  induction hpages with
  | @last now start entries hq =>
    obtain ⟨entries', tail', hne', hq'⟩ := hquery now start hstart
    rw [hq] at hq'
    obtain ⟨-, htail⟩ := List.append_inj' (Reply.container.inj hq') rfl
    exact hne' (List.singleton_inj.mp htail).symm
  | next hq hne hrest ih => exact ih hne

/-- The first page of the pairs from a key on, which is also the prefix at which it stops. -/
def firstPage (pre : Key) (count : ℕ) (now : UInt64) (db : Db) : List Pair × List Pair :=
  page (StopPrefixPredicate pre) (isOK now) ITERATIONS_LOOPS_MAX count (fromKey Pair.key pre db)

/-- When `MC2POINT` is exact: every point at the coordinate has a value, and the first page is not
cut, or what has the text of the page size as its prefix fits into one page and has the values of
the records behind the cut. -/
structure Resumed (f : Key → Option (BitVec 64 × Key)) (keyN : Key) (v : MCVector) (count : Key)
    (now : UInt64) (db : Db) : Prop where
  valued : Valued f (toMorton2D32 v)
  resumes : (firstPage (headKey keyN (toMorton2D32 v)) (room count) now db).2 = [] ∨
    count ≠ [] ∧ (firstPage count (room count) now db).2 = [] ∧
      (((firstPage count (room count) now db).1.filter (isOK now)).map Pair.val).Perm
        ((atCode keyN (toMorton2D32 v) now
          (firstPage (headKey keyN (toMorton2D32 v)) (room count) now db).2).map Pair.val)

/-- What a query of `MC2POINT` shows of some pairs. -/
def entriesAt (v : MCVector) (now : UInt64) (l : List Pair) : List (MCVector × Key) :=
  (l.filter (isOK now)).map fun p => (v, p.val)

section Two

variable (v : MCVector) (count : Key) (now : UInt64)

omit hsep

theorem mc2point_congr (now now' : UInt64) (start : Key) :
    MC2POINT now (pointParams2 keyN v count start) db =
      MC2POINT now' (pointParams2 keyN v count start) db :=
  query_congr h (fun now start => mc2point_eq hN v count now start db) now now' start

theorem mc2point_answer (now' : UInt64) (start : Key) :
    MC2POINT now' (pointParams2 keyN v count start) db = .container
      (render formatLine2 0
          (entriesAt v now (firstPage (resumed keyN v count start) (room count) now db).1) ++
        [tailOf (firstPage (resumed keyN v count start) (room count) now db).2]) := by
  rw [mc2point_congr h hN v count now' now, mc2point_eq hN, answer_eq]
  rfl

/-- Without a cut the first page is the last. -/
theorem pages2_of_end
    (hend : (firstPage (headKey keyN (toMorton2D32 v)) (room count) now db).2 = []) :
    Pages formatLine2 (fun now start => MC2POINT now (pointParams2 keyN v count start) db) []
      [entriesAt v now (firstPage (headKey keyN (toMorton2D32 v)) (room count) now db).1] := by
  have hfirst : resumed keyN v count [] = headKey keyN (toMorton2D32 v) := if_pos rfl
  have hask := mc2point_answer h hN v count now now []
  rw [hfirst, hend] at hask
  exact .last hask

section Cut

variable {p : Pair} {r : List Pair}
  (hcut : (firstPage (headKey keyN (toMorton2D32 v)) (room count) now db).2 = p :: r)

include hcut

theorem mc2point_first : ∀ now', MC2POINT now' (pointParams2 keyN v count []) db = .container
    (render formatLine2 0
        (entriesAt v now (firstPage (headKey keyN (toMorton2D32 v)) (room count) now db).1) ++
      [p.key]) := by
  intro now'
  have hfirst : resumed keyN v count [] = headKey keyN (toMorton2D32 v) := if_pos rfl
  have hask := mc2point_answer h hN v count now now' []
  rw [hfirst, hcut] at hask
  exact hask

/-- A second page that is not cut is the last. -/
theorem pages2_of_next (hcount : count ≠ [])
    (hend : (firstPage count (room count) now db).2 = []) :
    Pages formatLine2 (fun now start => MC2POINT now (pointParams2 keyN v count start) db) []
      [entriesAt v now (firstPage (headKey keyN (toMorton2D32 v)) (room count) now db).1,
        entriesAt v now (firstPage count (room count) now db).1] := by
  have hresumed : resumed keyN v count p.key = count := by
    rw [resumed, if_neg (key_ne_nil p), if_neg hcount]
  have hnext := mc2point_answer h hN v count now now p.key
  rw [hresumed, hend] at hnext
  exact .next (mc2point_first h hN v count now hcut now) (key_ne_nil p) (.last hnext)

/-- Otherwise each page gives a tail again, and there is no last page. -/
theorem not_pages2 (hloop : count = [] ∨ (firstPage count (room count) now db).2 ≠ [])
    (pages : List (List (MCVector × Key))) : ¬Pages formatLine2
      (fun now start => MC2POINT now (pointParams2 keyN v count start) db) [] pages := by
  have hnone (pages : List (List (MCVector × Key))) : ¬Pages formatLine2
      (fun now start => MC2POINT now (pointParams2 keyN v count start) db) p.key pages := by
    refine not_pages (fun now' start hstart => ⟨_, _, ?_, mc2point_answer h hN v count now now' start⟩)
      (key_ne_nil p)
    have hne : (firstPage (resumed keyN v count start) (room count) now db).2 ≠ [] := by
      rw [resumed, if_neg hstart]
      by_cases hcount : count = []
      · rw [if_pos hcount, hcut]
        exact List.cons_ne_nil _ _
      · rw [if_neg hcount]
        exact hloop.resolve_left hcount
    obtain ⟨q, r', hq⟩ := List.exists_cons_of_ne_nil hne
    rw [hq]
    exact key_ne_nil q
  have htail {now' : UInt64} {entries : List (MCVector × Key)} {tail : Key}
      (hq : MC2POINT now' (pointParams2 keyN v count []) db =
        .container (render formatLine2 0 entries ++ [tail])) : p.key = tail := by
    rw [mc2point_first h hN v count now hcut] at hq
    obtain ⟨-, heq⟩ := List.append_inj' (Reply.container.inj hq) rfl
    exact List.singleton_inj.mp heq
  intro hpages
  cases hpages with
  | last hq => exact key_ne_nil p (htail hq)
  | next hq hne hrest =>
    obtain rfl := htail hq
    exact hnone _ hrest

omit hN in
/-- The records behind the cut are those that the first page leaves out. -/
theorem atCode_of_cut : atCode keyN (toMorton2D32 v) now db =
    (firstPage (headKey keyN (toMorton2D32 v)) (room count) now db).1.filter (isOK now) ++
      atCode keyN (toMorton2D32 v) now (p :: r) := by
  obtain ⟨hsplit, hseen⟩ := page_of_cut hcut
  rw [← atCode_fromKey h, hsplit, atCode, List.filter_append, ← atCode]
  congr 1
  refine filter_and_eq fun q hq _ => ?_
  have hgo := hseen q hq
  rw [StopPrefixPredicate, Bool.not_eq_false'] at hgo
  exact hgo

end Cut

include hsep

/-- What some live pairs show is an answer if all points have values and they have the values of
the pairs at the code. -/
theorem lists_entriesAt (l : List Pair) :
    Lists (fun s => m (keyN, s)) (fun w => w = toMorton2D32 v)
        ((entriesAt v now l).map (Prod.map toMorton2D32 id)) ↔
      Valued (fun s => m (keyN, s)) (toMorton2D32 v) ∧
        ((l.filter (isOK now)).map Pair.val).Perm
          ((atCode keyN (toMorton2D32 v) now db).map Pair.val) := by
  rw [entriesAt, List.map_map]
  exact lists_iff_perm h hN hsep (toMorton2D32 v) now fun p hp => (List.mem_filter.mp hp).2

/-- All pages of `MC2POINT` together are exact if there is one, or if the page of the text of the
page size happens to have the same values as the records that are left. -/
theorem point2_iff :
    (∃ pages, Pages formatLine2
        (fun now start => MC2POINT now (pointParams2 keyN v count start) db) [] pages ∧
        Lists (fun s => m (keyN, s)) (fun w => w = toMorton2D32 v)
          (pages.flatten.map (Prod.map toMorton2D32 id))) ↔
      Resumed (fun s => m (keyN, s)) keyN v count now db := by
  have hexact {pages : List (List (MCVector × Key))} (hpages : Pages formatLine2
      (fun now start => MC2POINT now (pointParams2 keyN v count start) db) [] pages) :=
    hpages.exists_iff formatLine2_injective (mc2point_congr h hN v count) fun entries =>
      Lists (fun s => m (keyN, s)) (fun w => w = toMorton2D32 v)
        (entries.map (Prod.map toMorton2D32 id))
  cases hcut : (firstPage (headKey keyN (toMorton2D32 v)) (room count) now db).2 with
  | nil =>
    have hat : (firstPage (headKey keyN (toMorton2D32 v)) (room count) now db).1.filter (isOK now) =
        atCode keyN (toMorton2D32 v) now db := by
      rw [atCode_eq_front h, firstPage, page_fst_of_end hcut]
    rw [hexact (pages2_of_end h hN v count now hcut), List.flatten_singleton,
      lists_entriesAt h hN hsep, hat]
    constructor
    · intro hboth
      exact ⟨hboth.1, .inl hcut⟩
    · intro hres
      exact ⟨hres.valued, .refl _⟩
  | cons p r =>
    have hcutne : (firstPage (headKey keyN (toMorton2D32 v)) (room count) now db).2 ≠ [] := by
      rw [hcut]
      exact List.cons_ne_nil _ _
    by_cases hloop : count = [] ∨ (firstPage count (room count) now db).2 ≠ []
    · -- the pages do not end
      refine iff_of_false ?_ ?_
      · rintro ⟨pages, hpages, -⟩
        exact not_pages2 h hN v count now hcut hloop pages hpages
      · rintro ⟨-, hend | ⟨hcount, hend, -⟩⟩
        · exact hcutne hend
        · exact hloop.elim hcount fun hne => hne hend
    · -- the second page is the last
      obtain ⟨hcount, hend⟩ := not_or.mp hloop
      have hend' := not_not.mp hend
      have hboth : [entriesAt v now (firstPage (headKey keyN (toMorton2D32 v)) (room count) now db).1,
          entriesAt v now (firstPage count (room count) now db).1].flatten =
          entriesAt v now ((firstPage (headKey keyN (toMorton2D32 v)) (room count) now db).1 ++
            (firstPage count (room count) now db).1) := by
        rw [List.flatten_cons, List.flatten_singleton, entriesAt, entriesAt, ← List.map_append,
          ← List.filter_append, ← entriesAt]
      rw [hexact (pages2_of_next h hN v count now hcut hcount hend'), hboth,
        lists_entriesAt h hN hsep, atCode_of_cut h v count now hcut, List.filter_append,
        List.map_append, List.map_append, List.perm_append_left_iff]
      constructor
      · rintro ⟨hvalued, hperm⟩
        refine ⟨hvalued, .inr ⟨hcount, hend', ?_⟩⟩
        rw [hcut]
        exact hperm
      · rintro ⟨hvalued, hone | ⟨-, -, hperm⟩⟩
        · exact absurd hone hcutne
        · rw [hcut] at hperm
          exact ⟨hvalued, hperm⟩

end Two

end Queries

/-! ## Exactness -/

/-- The pages of `MC1POINT` together show each record at the coordinate once and no other. -/
def Exact1 (commands : List Command) (keyN : Key) (x : BitVec 64) (count : Key) : Prop :=
  ∃ pages, Pages formatLine
      (fun now start => MC1POINT now (pointParams1 keyN x count start) (after commands)) [] pages ∧
    Lists (stored commands keyN) (fun w => w = x) pages.flatten

/-- The pages of `MC2POINT` together show each record at the coordinate once and no other. -/
def Exact2 (commands : List Command) (keyN : Key) (v : MCVector) (count : Key) : Prop :=
  ∃ pages, Pages formatLine2
      (fun now start => MC2POINT now (pointParams2 keyN v count start) (after commands)) [] pages ∧
    Lists (stored commands keyN) (fun w => w = toMorton2D32 v)
      (pages.flatten.map (Prod.map toMorton2D32 id))

/-- For all commands on names without separators, coordinates and page sizes: `MC1POINT` is exact
if and only if all records at the coordinate, which has 32 bits, have values and the keys at which
its pages are cut are prefixes that cover the records, and `MC2POINT` if and only if the records
have values and fit into one page, or the page of its page size stands in for the rest. -/
theorem point_queries_exact_iff {commands : List Command}
    (hkeyN : ∀ c ∈ commands, separator ∉ c.keyN) {keyN : Key} (hN : valid keyN)
    (hsep : separator ∉ keyN) (count : Key) (now : UInt64) :
    (∀ x, Exact1 commands keyN x count ↔
      Covered (stored commands keyN) keyN x (room count) now (after commands)) ∧
    ∀ v, Exact2 commands keyN v count ↔
      Resumed (stored commands keyN) keyN v count now (after commands) :=
  have h := after_holds hkeyN
  ⟨fun x => point1_iff h hN hsep x count now, fun v => point2_iff h hN hsep v count now⟩

/-- One record, asked for with its code and with its two coordinates. -/
theorem point_queries_exact_five :
    Exact1 [addOne [53]] [107] 5 [49, 48] ∧
      Exact2 [addOne [53]] [107] (fun d => if d = 0 then 3 else 0) [49, 48] := by
  obtain ⟨h1, h2⟩ := @point_queries_exact_iff [addOne [53]] (by decide) [107] (by decide)
    (by decide) [49, 48] 0
  have hvalue {s : Key} {y : BitVec 64 × Key} (hy : stored [addOne [53]] [107] s = some y) :
      y.2 ≠ [] := by
    rw [(stored_addOne hy).2]
    decide
  refine ⟨(h1 5).mpr ⟨fun s y hy _ => ⟨by decide, hvalue hy⟩, .last ?_ ?_⟩,
    (h2 _).mpr ⟨fun s y hy _ => hvalue hy, .inl ?_⟩⟩
  · decide +kernel
  · decide +kernel
  · decide +kernel

/-- The command that adds twelve records at the coordinate five. -/
def addTwelve : Command :=
  .MC1ADD (fun _ => someEnv) ([[], [107]] ++
    (List.range 12).flatMap fun i => [[Fin.ofNat 256 (97 + i)], [53], [118]])

/-- The pairs behind the cut of their first page. -/
def leftOver : List Pair :=
  (page (StopPrefixPredicate (headKey [107] 5)) (isOK 0) ITERATIONS_LOOPS_MAX (room [49, 48])
    (fromKey Pair.key (headKey [107] 5) (after [addTwelve]))).2

theorem leftOver_spec : leftOver.length = 14 ∧
    (∀ p ∈ leftOver.take 1, ∀ q ∈ (leftOver.drop 1).take 1,
      isOK 0 q = true ∧ isAt [107] 5 q = true ∧ ¬p.key <+: q.key) ∧
    ∀ p ∈ leftOver.take 1, (page (StopPrefixPredicate p.key) (isOK 0) ITERATIONS_LOOPS_MAX
      (room [49, 48]) leftOver).2.length = 0 := by
  decide +kernel

/-- The second page stops behind its first record, so that the last of them is left out. -/
theorem not_exact_twelve : ¬Exact1 [addTwelve] [107] 5 [49, 48] := by
  have hkeyN : ∀ c ∈ [addTwelve], separator ∉ c.keyN := fun c hc => by
    rw [List.mem_singleton.mp hc]
    decide
  intro hexact
  have hcovers := ((point1_iff (after_holds hkeyN) (by decide) (by decide) _ _ 0).mp hexact).covers
  have hread : readBound 5 = 5 := by decide
  rw [hread] at hcovers
  obtain ⟨hlen, hlost, hlast⟩ := leftOver_spec
  cases hcovers with
  | last hend =>
    change leftOver = [] at hend
    rw [hend] at hlen
    exact absurd hlen (by decide)
  | @next _ _ p r hcut _ hrest =>
    change leftOver = p :: r at hcut
    rw [hcut] at hlen hlost hlast
    cases r with
    | nil => exact absurd hlen (by rw [List.length_singleton]; decide)
    | cons q r =>
      have hp : p ∈ (p :: q :: r).take 1 := List.mem_cons_self
      have hq : q ∈ ((p :: q :: r).drop 1).take 1 := List.mem_cons_self
      cases hrest with
      | last hend hsame =>
        obtain ⟨hok, hat, hlead⟩ := hlost p hp q hq
        exact hlead ((hsame q (List.mem_cons_of_mem p List.mem_cons_self) hok).mpr hat)
      | next hcut' =>
        have hnone := hlast p hp
        rw [hcut'] at hnone
        exact absurd hnone (Nat.succ_ne_zero _)

end HM4.PointQueries
