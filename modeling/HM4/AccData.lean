import Mathlib.Algebra.BigOperators.Group.List.Basic
import Mathlib.Data.Real.Basic
import Mathlib.Order.Bounds.Basic

/-!
# Summary statistics

An accumulator keeps count, first, last, least and greatest number and four sums of the numbers
given to it. The numbers are exact, over any ordered sums; reciprocal and logarithm are arbitrary
functions. Two accumulators merge into the one of both sequences, as long as the count of the
whole sequence fits into its 64 bits.
-/

namespace HM4.SummaryStats

/-- A double over exact numbers; the others are NaN and the infinities. -/
inductive Double (K : Type*) where
  | finite (x : K)
  | notFinite

/-- `AccData`; with the count 0 the other fields have no meaning. -/
structure AccData (K : Type*) where
  count : UInt64
  first : K
  last : K
  min : K
  max : K
  sum : K
  sumSquare : K
  sumHarmonic : K
  sumLog : K

/-- The functions of the sums that are not sums and products. -/
structure Functions (K : Type*) where
  recip : K → K
  log : K → K

section Code

variable {K : Type*} [AddCommMonoid K] [Mul K] [LinearOrder K]

namespace Functions

/-- What a number adds to the sum of the reciprocals. -/
def harmonic (fn : Functions K) (x : K) : K := if x ≠ 0 then fn.recip x else 0

/-- What a number adds to the sum of the logarithms. -/
def logarithm (fn : Functions K) (x : K) : K := if x > 0 then fn.log x else 0

end Functions

namespace AccData

/-- `init_`. -/
def init_ (fn : Functions K) (x : K) : AccData K where
  count := 1
  first := x
  last := x
  min := x
  max := x
  sum := x
  sumSquare := x * x
  sumHarmonic := if x ≠ 0 then fn.recip x else 0
  sumLog := if x > 0 then fn.log x else 0

/-- `accumulate_`. -/
def accumulate_ (fn : Functions K) (acc : AccData K) (x : K) : AccData K where
  count := acc.count + 1
  first := acc.first
  last := x
  min := if x < acc.min then x else acc.min
  max := if x > acc.max then x else acc.max
  sum := acc.sum + x
  sumSquare := acc.sumSquare + x * x
  sumHarmonic := if x ≠ 0 then acc.sumHarmonic + fn.recip x else acc.sumHarmonic
  sumLog := if x > 0 then acc.sumLog + fn.log x else acc.sumLog

/-- `accumulate`. -/
def accumulate (fn : Functions K) (acc : AccData K) : Double K → AccData K
  | .notFinite => acc
  | .finite x => if acc.count = 0 then init_ fn x else acc.accumulate_ fn x

/-- `merge`. -/
def merge (acc other : AccData K) (older : Bool) : AccData K :=
  if other.count = 0 then acc
  else if acc.count = 0 then other
  else
    { first := if older then other.first else acc.first
      last := if older then acc.last else other.last
      min := if acc.min > other.min then other.min else acc.min
      max := if acc.max < other.max then other.max else acc.max
      sum := acc.sum + other.sum
      sumSquare := acc.sumSquare + other.sumSquare
      sumHarmonic := acc.sumHarmonic + other.sumHarmonic
      sumLog := acc.sumLog + other.sumLog
      count := acc.count + other.count }

/-- One accumulator for a sequence of numbers. -/
def accumulateAll (fn : Functions K) (acc : AccData K) (xs : List (Double K)) : AccData K :=
  xs.foldl (accumulate fn) acc

/-- One accumulator for a sequence of accumulators, all in one direction. -/
def mergeAll (acc : AccData K) (others : List (AccData K)) (older : Bool) : AccData K :=
  others.foldl (fun a other => a.merge other older) acc

/-- The same count, and the same fields where they have a meaning. -/
def Same (a b : AccData K) : Prop := a.count = b.count ∧ (a.count ≠ 0 → a = b)

end AccData

/-- The finite numbers of a sequence. -/
def finites (xs : List (Double K)) : List K :=
  xs.filterMap fun
    | .finite x => some x
    | .notFinite => none

/-- An accumulator that is not in use yet. -/
abbrev Fresh (K : Type*) : Type _ := {acc : AccData K // acc.count = 0}

/-- A sequence of numbers and the accumulator it is given to. -/
structure Chunk (K : Type*) where
  fresh : Fresh K
  numbers : List (Double K)

/-- The accumulator of a chunk, after its numbers. -/
def Chunk.acc (fn : Functions K) (c : Chunk K) : AccData K :=
  c.fresh.val.accumulateAll fn c.numbers

end Code

/-! ## Sequences and their bounds -/

section Order

variable {K : Type*} [LinearOrder K]

theorem isLeast_ite {S T : Set K} {a b : K} (ha : IsLeast S a) (hb : IsLeast T b) :
    IsLeast (S ∪ T) (if b < a then b else a) := by
  have hunion := ha.union hb
  by_cases hlt : b < a
  · rw [if_pos hlt]
    rwa [min_eq_right hlt.le] at hunion
  · rw [if_neg hlt]
    rwa [min_eq_left (not_lt.mp hlt)] at hunion

theorem isGreatest_ite {S T : Set K} {a b : K} (ha : IsGreatest S a) (hb : IsGreatest T b) :
    IsGreatest (S ∪ T) (if a < b then b else a) := by
  have hunion := ha.union hb
  by_cases hlt : a < b
  · rw [if_pos hlt]
    rwa [max_eq_right hlt.le] at hunion
  · rw [if_neg hlt]
    rwa [max_eq_left (not_lt.mp hlt)] at hunion

end Order

section InOrder

variable {K : Type*}

/-- The older numbers stand in front of the newer ones. -/
def inOrder (older : Bool) (xs ys : List K) : List K := if older then ys ++ xs else xs ++ ys

theorem length_inOrder (older : Bool) (xs ys : List K) :
    (inOrder older xs ys).length = xs.length + ys.length := by
  cases older
  · simp [inOrder]
  · simp [inOrder, Nat.add_comm]

theorem setOf_mem_inOrder (older : Bool) (xs ys : List K) :
    {y | y ∈ inOrder older xs ys} = {y | y ∈ xs} ∪ {y | y ∈ ys} := by
  ext y
  cases older
  · simp [inOrder]
  · simp [inOrder, or_comm]

theorem setOf_mem_snoc (xs : List K) (x : K) : {y | y ∈ xs ++ [x]} = {y | y ∈ xs} ∪ {x} := by
  ext y
  simp [or_comm]

theorem sum_map_inOrder [AddCommMonoid K] (older : Bool) (f : K → K) (xs ys : List K) :
    ((inOrder older xs ys).map f).sum = (xs.map f).sum + (ys.map f).sum := by
  cases older
  · simp [inOrder]
  · simp [inOrder, add_comm]

end InOrder

/-! ## What an accumulator says about its numbers -/

section Summary

variable {K : Type*} [AddCommMonoid K] [Mul K] [LinearOrder K] {fn : Functions K}
  {acc other : AccData K} {xs ys : List K}

/-- The fields describe a sequence that is not empty. -/
structure Describes (fn : Functions K) (acc : AccData K) (xs : List K) : Prop where
  first : xs.head? = some acc.first
  last : xs.getLast? = some acc.last
  min : IsLeast {x | x ∈ xs} acc.min
  max : IsGreatest {x | x ∈ xs} acc.max
  sum : acc.sum = xs.sum
  sumSquare : acc.sumSquare = (xs.map fun x => x * x).sum
  sumHarmonic : acc.sumHarmonic = (xs.map fn.harmonic).sum
  sumLog : acc.sumLog = (xs.map fn.logarithm).sum

/-- The accumulator stands for a sequence. -/
structure Summarises (fn : Functions K) (acc : AccData K) (xs : List K) : Prop where
  count : acc.count.toNat = xs.length
  fields : xs ≠ [] → Describes fn acc xs

theorem Summarises.count_eq_zero_iff (h : Summarises fn acc xs) : acc.count = 0 ↔ xs = [] := by
  rw [← UInt64.toNat_inj, h.count, UInt64.toNat_zero, List.length_eq_zero_iff]

theorem Fresh.summarises (fn : Functions K) (fresh : Fresh K) : Summarises fn fresh.val [] where
  count := by simp [fresh.property]
  fields := fun h => absurd rfl h

theorem Describes.eq (h : Describes fn acc xs) (h' : Describes fn other xs)
    (hcount : acc.count = other.count) : acc = other := by
  have hfirst : acc.first = other.first := Option.some_inj.mp (h.first.symm.trans h'.first)
  have hlast : acc.last = other.last := Option.some_inj.mp (h.last.symm.trans h'.last)
  have hmin : acc.min = other.min := h.min.unique h'.min
  have hmax : acc.max = other.max := h.max.unique h'.max
  have hsum : acc.sum = other.sum := h.sum.trans h'.sum.symm
  have hsquare : acc.sumSquare = other.sumSquare := h.sumSquare.trans h'.sumSquare.symm
  have hharmonic : acc.sumHarmonic = other.sumHarmonic := h.sumHarmonic.trans h'.sumHarmonic.symm
  have hlog : acc.sumLog = other.sumLog := h.sumLog.trans h'.sumLog.symm
  cases acc
  cases other
  simp only at hcount hfirst hlast hmin hmax hsum hsquare hharmonic hlog
  simp only [AccData.mk.injEq]
  exact ⟨hcount, hfirst, hlast, hmin, hmax, hsum, hsquare, hharmonic, hlog⟩

/-- Two accumulators that stand for one sequence are the same. -/
theorem Summarises.same (h : Summarises fn acc xs) (h' : Summarises fn other xs) :
    acc.Same other := by
  have hcount : acc.count = other.count := by
    rw [← UInt64.toNat_inj, h.count, h'.count]
  refine ⟨hcount, fun hne => ?_⟩
  have hxs : xs ≠ [] := fun hnil => hne (h.count_eq_zero_iff.mpr hnil)
  exact (h.fields hxs).eq (h'.fields hxs) hcount

/-! ## Accumulating -/

theorem describes_init_ (fn : Functions K) (x : K) : Describes fn (AccData.init_ fn x) [x] where
  first := rfl
  last := rfl
  min := by simp [AccData.init_]
  max := by simp [AccData.init_]
  sum := by simp [AccData.init_]
  sumSquare := by simp [AccData.init_]
  sumHarmonic := by simp [AccData.init_, Functions.harmonic]
  sumLog := by simp [AccData.init_, Functions.logarithm]

theorem Describes.accumulate_ (h : Describes fn acc xs) (x : K) :
    Describes fn (acc.accumulate_ fn x) (xs ++ [x]) where
  first := by simp [AccData.accumulate_, List.head?_append, h.first]
  last := by simp [AccData.accumulate_]
  min := by
    rw [setOf_mem_snoc]
    exact isLeast_ite h.min isLeast_singleton
  max := by
    rw [setOf_mem_snoc]
    exact isGreatest_ite h.max isGreatest_singleton
  sum := by simp [AccData.accumulate_, h.sum]
  sumSquare := by simp [AccData.accumulate_, h.sumSquare]
  sumHarmonic := by
    by_cases hx : x = 0
    · simp [AccData.accumulate_, h.sumHarmonic, Functions.harmonic, hx]
    · simp [AccData.accumulate_, h.sumHarmonic, Functions.harmonic, hx]
  sumLog := by
    by_cases hx : 0 < x
    · simp [AccData.accumulate_, h.sumLog, Functions.logarithm, hx]
    · simp [AccData.accumulate_, h.sumLog, Functions.logarithm, hx]

/-- One more number, when the count has room for it. -/
theorem Summarises.accumulate (h : Summarises fn acc xs) (hroom : xs.length + 1 < 2 ^ 64) (x : K) :
    Summarises fn (acc.accumulate fn (.finite x)) (xs ++ [x]) := by
  rw [AccData.accumulate]
  by_cases hzero : acc.count = 0
  · rw [if_pos hzero, h.count_eq_zero_iff.mp hzero]
    exact ⟨rfl, fun _ => describes_init_ fn x⟩
  · rw [if_neg hzero]
    have hxs : xs ≠ [] := fun hnil => hzero (h.count_eq_zero_iff.mpr hnil)
    refine ⟨?_, fun _ => (h.fields hxs).accumulate_ x⟩
    have hcount : (acc.accumulate_ fn x).count.toNat = (acc.count.toNat + 1) % 2 ^ 64 :=
      UInt64.toNat_add _ _
    rw [hcount, h.count, Nat.mod_eq_of_lt hroom, List.length_append, List.length_singleton]

/-- A whole sequence of numbers, when the count has room for it. -/
theorem Summarises.accumulateAll (h : Summarises fn acc xs) (numbers : List (Double K))
    (hroom : xs.length + (finites numbers).length < 2 ^ 64) :
    Summarises fn (acc.accumulateAll fn numbers) (xs ++ finites numbers) := by
  induction numbers generalizing acc xs with
  | nil => simpa [AccData.accumulateAll, finites] using h
  | cons number numbers ih =>
    cases number with
    | notFinite => exact ih h hroom
    | finite x =>
      have hlength : (finites (.finite x :: numbers)).length = (finites numbers).length + 1 := rfl
      have hstep := h.accumulate (by omega) x
      have hrest := ih hstep (by rw [List.length_append, List.length_singleton]; omega)
      rwa [List.append_assoc] at hrest

/-! ## Merging -/

/-- All the field rules at once: two accumulators in use. -/
theorem Describes.merge (h : Describes fn acc xs) (h' : Describes fn other ys) (older : Bool)
    (hacc : acc.count ≠ 0) (hother : other.count ≠ 0) :
    Describes fn (acc.merge other older) (inOrder older xs ys) := by
  rw [AccData.merge, if_neg hother, if_neg hacc]
  exact
    { first := by
        cases older
        · simp [inOrder, List.head?_append, h.first]
        · simp [inOrder, List.head?_append, h'.first]
      last := by
        cases older
        · simp [inOrder, List.getLast?_append, h'.last]
        · simp [inOrder, List.getLast?_append, h.last]
      min := by
        rw [setOf_mem_inOrder]
        exact isLeast_ite h.min h'.min
      max := by
        rw [setOf_mem_inOrder]
        exact isGreatest_ite h.max h'.max
      sum := by simpa [h.sum, h'.sum] using (sum_map_inOrder older id xs ys).symm
      sumSquare := by rw [sum_map_inOrder, h.sumSquare, h'.sumSquare]
      sumHarmonic := by rw [sum_map_inOrder, h.sumHarmonic, h'.sumHarmonic]
      sumLog := by rw [sum_map_inOrder, h.sumLog, h'.sumLog] }

/-- One merge, when the count has room for both. -/
theorem Summarises.merge (h : Summarises fn acc xs) (h' : Summarises fn other ys) (older : Bool)
    (hroom : xs.length + ys.length < 2 ^ 64) :
    Summarises fn (acc.merge other older) (inOrder older xs ys) := by
  by_cases hother : other.count = 0
  · have hys := h'.count_eq_zero_iff.mp hother
    have hsame : inOrder older xs ys = xs := by
      cases older
      · simp [inOrder, hys]
      · simp [inOrder, hys]
    rw [AccData.merge, if_pos hother, hsame]
    exact h
  by_cases hacc : acc.count = 0
  · have hxs := h.count_eq_zero_iff.mp hacc
    have hsame : inOrder older xs ys = ys := by
      cases older
      · simp [inOrder, hxs]
      · simp [inOrder, hxs]
    rw [AccData.merge, if_neg hother, if_pos hacc, hsame]
    exact h'
  have hxs : xs ≠ [] := fun hnil => hacc (h.count_eq_zero_iff.mpr hnil)
  have hys : ys ≠ [] := fun hnil => hother (h'.count_eq_zero_iff.mpr hnil)
  refine ⟨?_, fun _ => (h.fields hxs).merge (h'.fields hys) older hacc hother⟩
  have hcount : (acc.merge other older).count.toNat
      = (acc.count.toNat + other.count.toNat) % 2 ^ 64 := by
    rw [AccData.merge, if_neg hother, if_neg hacc]
    exact UInt64.toNat_add _ _
  rw [hcount, h.count, h'.count, Nat.mod_eq_of_lt hroom, length_inOrder]

end Summary

/-! ## Chunks -/

section Chunks

variable {K : Type*}

@[simp]
theorem AccData.mergeAll_nil [AddCommMonoid K] [LinearOrder K] (acc : AccData K) (older : Bool) :
    acc.mergeAll [] older = acc := rfl

@[simp]
theorem AccData.mergeAll_cons [AddCommMonoid K] [LinearOrder K] (acc other : AccData K)
    (others : List (AccData K)) (older : Bool) :
    acc.mergeAll (other :: others) older = (acc.merge other older).mergeAll others older := rfl

/-- The finite numbers of a sequence of chunks. -/
def numbersOf (chunks : List (Chunk K)) : List K := (chunks.map fun c => finites c.numbers).flatten

@[simp]
theorem numbersOf_nil : numbersOf ([] : List (Chunk K)) = [] := rfl

@[simp]
theorem numbersOf_cons (c : Chunk K) (chunks : List (Chunk K)) :
    numbersOf (c :: chunks) = finites c.numbers ++ numbersOf chunks := rfl

@[simp]
theorem numbersOf_append (chunks rest : List (Chunk K)) :
    numbersOf (chunks ++ rest) = numbersOf chunks ++ numbersOf rest := by
  simp [numbersOf]

theorem finites_append (xs ys : List (Double K)) : finites (xs ++ ys) = finites xs ++ finites ys :=
  List.filterMap_append

theorem finites_flatten (chunks : List (Chunk K)) :
    finites (chunks.map Chunk.numbers).flatten = numbersOf chunks := by
  induction chunks with
  | nil => rfl
  | cons c chunks ih => rw [List.map_cons, List.flatten_cons, finites_append, ih, numbersOf_cons]

variable [AddCommMonoid K] [Mul K] [LinearOrder K] {fn : Functions K} {acc : AccData K}
  {xs : List K}

theorem Chunk.summarises (c : Chunk K) (hroom : (finites c.numbers).length < 2 ^ 64) :
    Summarises fn (c.acc fn) (finites c.numbers) :=
  (c.fresh.summarises fn).accumulateAll c.numbers (by simpa using hroom)

/-- From the oldest to the newest, the newer one is always the other one. -/
theorem Summarises.mergeAll_newer (h : Summarises fn acc xs) (chunks : List (Chunk K))
    (hroom : xs.length + (numbersOf chunks).length < 2 ^ 64) :
    Summarises fn (acc.mergeAll (chunks.map (Chunk.acc fn)) false) (xs ++ numbersOf chunks) := by
  induction chunks generalizing acc xs with
  | nil => simpa using h
  | cons c chunks ih =>
    rw [numbersOf_cons, List.length_append] at hroom
    have hstep := h.merge (c.summarises (by omega)) false (by omega)
    have hrest := ih hstep (by rw [length_inOrder]; omega)
    simpa [inOrder] using hrest

/-- From the newest to the oldest, the older one is always the other one. -/
theorem Summarises.mergeAll_older (h : Summarises fn acc xs) (chunks : List (Chunk K))
    (hroom : xs.length + (numbersOf chunks.reverse).length < 2 ^ 64) :
    Summarises fn (acc.mergeAll (chunks.map (Chunk.acc fn)) true)
      (numbersOf chunks.reverse ++ xs) := by
  induction chunks generalizing acc xs with
  | nil => simpa using h
  | cons c chunks ih =>
    have hcons : numbersOf (c :: chunks).reverse
        = numbersOf chunks.reverse ++ finites c.numbers := by
      simp
    rw [hcons, List.length_append] at hroom
    have hstep := h.merge (c.summarises (by omega)) true (by omega)
    have hrest := ih hstep (by rw [length_inOrder]; omega)
    simpa [hcons, inOrder] using hrest

/-- The merges of the chunks, in both directions, against one accumulator for all numbers. -/
def MergesExactly (fn : Functions K) (chunks : List (Chunk K)) : Prop :=
  ∀ newest oldest whole : Fresh K,
    (newest.val.mergeAll (chunks.reverse.map (Chunk.acc fn)) true).Same
      (whole.val.accumulateAll fn (chunks.map Chunk.numbers).flatten) ∧
    (oldest.val.mergeAll (chunks.map (Chunk.acc fn)) false).Same
      (whole.val.accumulateAll fn (chunks.map Chunk.numbers).flatten)

/-- With fewer numbers than the count can hold, every cut into chunks merges to the whole. -/
theorem merges_exactly (fn : Functions K) (chunks : List (Chunk K))
    (hroom : (numbersOf chunks).length < 2 ^ 64) : MergesExactly fn chunks := by
  intro newest oldest whole
  have hwhole := (whole.summarises fn).accumulateAll (chunks.map Chunk.numbers).flatten
    (by simpa [finites_flatten] using hroom)
  have hnewest := (newest.summarises fn).mergeAll_older chunks.reverse (by simpa using hroom)
  have holdest := (oldest.summarises fn).mergeAll_newer chunks (by simpa using hroom)
  rw [finites_flatten, List.nil_append] at hwhole
  rw [List.reverse_reverse, List.append_nil] at hnewest
  rw [List.nil_append] at holdest
  exact ⟨hnewest.same hwhole, holdest.same hwhole⟩

end Chunks

/-! ## A count that wraps -/

section Wrapped

variable {K : Type*}

/-- An accumulator with one number in all the fields that have no meaning. -/
def Fresh.of (x : K) : Fresh K := ⟨⟨0, x, x, x, x, x, x, x, x⟩, rfl⟩

theorem merges_exactly_three : (numbersOf [Chunk.mk (Fresh.of (7 : ℚ)) [.finite 2, .notFinite],
      ⟨Fresh.of 5, []⟩, ⟨Fresh.of 1, [.finite 0, .finite (-3)]⟩]).length < 2 ^ 64 ∧
    MergesExactly ⟨fun x => x⁻¹, id⟩ [Chunk.mk (Fresh.of (7 : ℚ)) [.finite 2, .notFinite],
      ⟨Fresh.of 5, []⟩, ⟨Fresh.of 1, [.finite 0, .finite (-3)]⟩] :=
  ⟨by decide, merges_exactly _ _ (by decide)⟩

variable [AddCommMonoid K] [Mul K] [LinearOrder K]

/-- Two more numbers after the last one that the count can hold: the first is forgotten. -/
theorem accumulate_wraps (fn : Functions K) (acc : AccData K) (x y : K)
    (hfull : acc.count.toNat + 1 = 2 ^ 64) :
    (acc.accumulate fn (.finite x)).accumulate fn (.finite y) = AccData.init_ fn y := by
  have hne : acc.count ≠ 0 := by
    intro hzero
    rw [hzero] at hfull
    exact absurd hfull (by decide)
  have hwrap : acc.count + 1 = 0 := by
    rw [← UInt64.toNat_inj, UInt64.toNat_add, UInt64.toNat_one, hfull]
    rfl
  have hstep : acc.accumulate fn (.finite x) = acc.accumulate_ fn x := if_neg hne
  rw [hstep]
  exact if_pos hwrap

theorem accumulateAll_append (fn : Functions K) (acc : AccData K) (xs ys : List (Double K)) :
    acc.accumulateAll fn (xs ++ ys) = (acc.accumulateAll fn xs).accumulateAll fn ys :=
  List.foldl_append

omit [Mul K] in
theorem first_merge_newer {acc other : AccData K} (hacc : acc.count ≠ 0) :
    (acc.merge other false).first = acc.first := by
  by_cases hother : other.count = 0
  · rw [AccData.merge, if_pos hother]
  · rw [AccData.merge, if_neg hother, if_neg hacc]
    rfl

/-- The least number of ones that makes the count wrap when two more come. -/
theorem not_merges_of_full (n : ℕ) (hn : n + 2 = 2 ^ 64) : ¬ MergesExactly ⟨id, id⟩
    [Chunk.mk (Fresh.of (0 : ℝ)) (.finite 0 :: List.replicate n (.finite 1)),
      ⟨Fresh.of 0, [.finite 1, .finite 1]⟩] := by
  intro hmerges
  have hboth := (hmerges (Fresh.of 0) (Fresh.of 0) (Fresh.of 0)).2
  let fn : Functions ℝ := ⟨id, id⟩
  let full := (Fresh.of (0 : ℝ)).val.accumulateAll fn (.finite 0 :: List.replicate n (.finite 1))
  let pair := (Fresh.of (0 : ℝ)).val.accumulateAll fn [.finite 1, .finite 1]
  have hfinites : finites (Double.finite (0 : ℝ) :: List.replicate n (.finite 1))
      = 0 :: List.replicate n 1 := by simp [finites]
  have hfull : Summarises fn full (0 :: List.replicate n 1) := by
    have hsummary := ((Fresh.of (0 : ℝ)).summarises fn).accumulateAll
      (.finite 0 :: List.replicate n (.finite 1)) (by simp [hfinites]; omega)
    rwa [hfinites] at hsummary
  have hcount : full.count.toNat = n + 1 := by simpa using hfull.count
  have hzero : full.count ≠ 0 := by
    intro hzero
    rw [hzero, UInt64.toNat_zero] at hcount
    omega
  have hfirst : full.first = 0 := by
    have hhead := (hfull.fields (List.cons_ne_nil _ _)).first
    simpa using hhead.symm
  have hwhole : (Fresh.of (0 : ℝ)).val.accumulateAll fn
      ((.finite 0 :: List.replicate n (.finite 1)) ++ [.finite 1, .finite 1])
      = AccData.init_ fn 1 := by
    rw [accumulateAll_append]
    exact accumulate_wraps fn full 1 1 (by omega)
  have hmerged : ((Fresh.of (0 : ℝ)).val.mergeAll [full, pair] false).first = 0 := by
    have hmerge : (Fresh.of (0 : ℝ)).val.merge full false = full := by
      have hempty : (Fresh.of (0 : ℝ)).val.count = 0 := rfl
      rw [AccData.merge, if_neg hzero, if_pos hempty]
    rw [AccData.mergeAll_cons, AccData.mergeAll_cons, hmerge, AccData.mergeAll_nil,
      first_merge_newer hzero, hfirst]
  have hsame : ((Fresh.of (0 : ℝ)).val.mergeAll [full, pair] false).Same (AccData.init_ fn 1) := by
    rw [← hwhole]
    exact hboth
  have hused : ((Fresh.of (0 : ℝ)).val.mergeAll [full, pair] false).count ≠ 0 := by
    have hone : (AccData.init_ fn 1).count = 1 := rfl
    rw [hsame.1, hone]
    decide
  rw [hsame.2 hused] at hmerged
  exact one_ne_zero hmerged

/-- The numbers 0, 1, 1, … that the count can just hold, and two more: one accumulator starts
again with the last of them, the merge keeps the first. -/
theorem not_merges_wrapped : ¬ MergesExactly ⟨id, id⟩
    [Chunk.mk (Fresh.of (0 : ℝ)) (.finite 0 :: List.replicate 18446744073709551614 (.finite 1)),
      ⟨Fresh.of 0, [.finite 1, .finite 1]⟩] :=
  not_merges_of_full 18446744073709551614 (by decide)

end Wrapped

end HM4.SummaryStats
