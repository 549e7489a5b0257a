import HM4.General.NeighbourMerge
import Mathlib.Algebra.Order.Field.Rat
import Mathlib.Algebra.Order.Group.Abs
import Mathlib.Tactic.FieldSimp
import Mathlib.Tactic.Linarith
import Mathlib.Tactic.Positivity

/-!
# T-digests

A digest keeps weighted means in order, not more than its capacity. A value that is added to a full
digest needs two neighbours that are merged; how far apart they may be depends on the way the
digest is compressed, and a value for which there is no room is dropped. Means are exact rational
numbers here.
-/

namespace HM4.Digest

open NeighbourMerge

/-! ## The code -/

/-- `Centroid`. -/
structure Centroid where
  mean : ℚ
  weight : ℕ
  deriving DecidableEq

/-- `weightedMean`. -/
def Centroid.weightedMean (c : Centroid) : ℚ := c.mean * c.weight

/-- `insertIntoSortedRange`, in front of the first that is not less. -/
def insertIntoSortedRange (centroids : List Centroid) (item : Centroid) : List Centroid :=
  centroids.takeWhile (fun c => decide (c.mean < item.mean)) ++
    item :: centroids.dropWhile fun c => decide (c.mean < item.mean)

/-- `std::numeric_limits<double>::max()`. -/
def largest : ℚ := (2 ^ 53 - 1) * 2 ^ 971

/-- The distance of two centroids. -/
def distance (a b : Centroid) : ℚ := |a.mean - b.mean|

/-- `findMinDistance`. -/
def findMinDistance (centroids : List Centroid) : ℚ :=
  (centroids.zip centroids.tail).foldl
    (fun minDistance x => if distance x.1 x.2 < minDistance then distance x.1 x.2 else minDistance)
    largest

/-- The weight of two centroids, of 64 bits. -/
def weight_u (current c : Centroid) : ℕ := (current.weight + c.weight) % 2 ^ 64

/-- Whether a centroid is merged with the next. -/
def merges (useWeight : Bool) (delta : ℚ) (current c : Centroid) : Bool :=
  decide ((if useWeight = true then (weight_u current c : ℚ) else 1) * distance c current ≤ delta)

/-- Two centroids that are merged. -/
def merged (current c : Centroid) : Centroid :=
  ⟨(current.weightedMean + c.weightedMean) / weight_u current c, weight_u current c⟩

/-- `compressCentroids_`. -/
def compressCentroids_ (useWeight : Bool) (centroids : List Centroid) (delta : ℚ) :
    List Centroid :=
  match centroids with
  | [] => []
  | current :: rest => pass (merges useWeight delta) merged current rest

/-- `compressNormal`. -/
def compressNormal (centroids : List Centroid) (delta : ℚ) : List Centroid :=
  if centroids.length < 2 then centroids else compressCentroids_ true centroids delta

/-- `compressAggressive`. -/
def compressAggressive (centroids : List Centroid) (delta : ℚ) : List Centroid :=
  if centroids.length < 2 then centroids
  else
    let distance := findMinDistance centroids
    if delta < distance then compressCentroids_ false centroids distance
    else compressCentroids_ true centroids delta

/-- `RawTDigest::TDigest`; its size is the length of its data. -/
structure TDigest where
  weight : ℕ
  min : ℚ
  max : ℚ
  data : List Centroid
  deriving DecidableEq

/-- `clear`. -/
def clear : TDigest := ⟨0, 0, 0, []⟩

/-- `RawTDigest::Compression`. -/
inductive Compression
  | NONE
  | STANDARD
  | AGGRESSIVE

namespace RawTDigest

variable (capacity : ℕ)

/-- `valid`. -/
def valid (td : TDigest) : Prop := td.data.length ≤ capacity

instance (td : TDigest) : Decidable (valid capacity td) := inferInstanceAs (Decidable (_ ≤ _))

/-- The centroids that `size` lets see, none of a digest that is not valid. -/
def centroids (td : TDigest) : List Centroid := if valid capacity td then td.data else []

/-- `updateMinMax_`. -/
def updateMinMax_ (td : TDigest) (value : ℚ) : TDigest :=
  if td.data = [] then { td with min := value, max := value }
  else
    let td := if value < td.min then { td with min := value } else td
    if td.max < value then { td with max := value } else td

/-- `add_`. -/
def add_ (C : Compression) (td : TDigest) (delta value : ℚ) (weight : ℕ) : TDigest :=
  let data := centroids capacity td
  let td := updateMinMax_ td value
  let oldWeight := if td.data = [] then 0 else td.weight
  let insert (data : List Centroid) : TDigest :=
    { td with
      data := insertIntoSortedRange data ⟨value, weight⟩
      weight := (oldWeight + weight) % 2 ^ 64 }
  if data.length < capacity then insert data
  else
    match C with
    | .NONE => td
    | .STANDARD =>
      let data := compressNormal data delta
      if data.length < capacity then insert data else { td with data := data }
    | .AGGRESSIVE =>
      let data := compressAggressive data delta
      if data.length < capacity then insert data else { td with data := data }

/-- `merge_` of a digest of some capacity. -/
def merge_ (C : Compression) (dest : TDigest) (delta : ℚ) (capacity_src : ℕ) (src : TDigest) :
    TDigest :=
  if ¬valid capacity_src src then dest
  else src.data.foldl (fun dest c => add_ capacity C dest delta c.mean c.weight) dest

/-- `compress`. -/
def compress (td : TDigest) (delta : ℚ) : TDigest :=
  { td with data := compressNormal (centroids capacity td) delta }

end RawTDigest

/-! ## Merging -/

/-- What a centroid keeps in some bounds. -/
def Within (lo hi : ℚ) (c : Centroid) : Prop := 0 < c.weight ∧ lo ≤ c.mean ∧ c.mean ≤ hi

section Merged

variable {a b : Centroid} (hfits : a.weight + b.weight < 2 ^ 64)

include hfits

theorem weight_u_eq : weight_u a b = a.weight + b.weight := Nat.mod_eq_of_lt hfits

/-- The mean of two centroids is a weighted mean of their means. -/
theorem merged_mean (ha : 0 < a.weight) :
    (merged a b).mean * (a.weight + b.weight) = a.mean * a.weight + b.mean * b.weight := by
  have hpos : (0 : ℚ) < a.weight + b.weight := by
    have ha' : (0 : ℚ) < a.weight := Nat.cast_pos.mpr ha
    have hb' : (0 : ℚ) ≤ b.weight := Nat.cast_nonneg _
    linarith
  rw [merged, weight_u_eq hfits, Nat.cast_add, div_mul_cancel₀ _ hpos.ne']
  rfl

/-- It lies in all bounds in which both lie. -/
theorem merged_within {lo hi : ℚ} (ha : Within lo hi a) (hb : Within lo hi b) :
    Within lo hi (merged a b) := by
  obtain ⟨hwa, hloa, hhia⟩ := ha
  obtain ⟨hwb, hlob, hhib⟩ := hb
  have hmean := merged_mean hfits hwa
  have hwa' : (0 : ℚ) < a.weight := Nat.cast_pos.mpr hwa
  have hwb' : (0 : ℚ) < b.weight := Nat.cast_pos.mpr hwb
  have hpos : (0 : ℚ) < a.weight + b.weight := by linarith
  have hweight : (merged a b).weight = a.weight + b.weight := weight_u_eq hfits
  have hlow : lo * (a.weight + b.weight) ≤ (merged a b).mean * (a.weight + b.weight) := by
    have h1 := mul_le_mul_of_nonneg_right hloa hwa'.le
    have h2 := mul_le_mul_of_nonneg_right hlob hwb'.le
    linarith
  have hhigh : (merged a b).mean * (a.weight + b.weight) ≤ hi * (a.weight + b.weight) := by
    have h1 := mul_le_mul_of_nonneg_right hhia hwa'.le
    have h2 := mul_le_mul_of_nonneg_right hhib hwb'.le
    linarith
  exact ⟨hweight ▸ Nat.add_pos_left hwa _, le_of_mul_le_mul_right hlow hpos,
    le_of_mul_le_mul_right hhigh hpos⟩

end Merged

/-- The total weight of some centroids. -/
def totalWeight (data : List Centroid) : ℕ := (data.map Centroid.weight).sum

/-- Centroids in order. -/
def Sorted (data : List Centroid) : Prop := data.Pairwise fun a b => a.mean ≤ b.mean

/-- Two neighbours may be merged by their weight. -/
def Mergeable (delta : ℚ) (data : List Centroid) : Prop :=
  SomeNeighbours (fun a b => (a.weight + b.weight : ℕ) * distance a b ≤ delta) data

section Compress

variable {data : List Centroid} {lo hi : ℚ}

theorem distance_comm (a b : Centroid) : distance a b = distance b a := abs_sub_comm _ _

/-- A compression keeps the total weight, the order and all bounds. -/
theorem compressCentroids_spec (useWeight : Bool) (delta : ℚ) (hall : ∀ c ∈ data, Within lo hi c)
    (hfits : totalWeight data < 2 ^ 64) (hsorted : Sorted data) :
    (∀ c ∈ compressCentroids_ useWeight data delta, Within lo hi c) ∧
      totalWeight (compressCentroids_ useWeight data delta) = totalWeight data ∧
      Sorted (compressCentroids_ useWeight data delta) ∧
      (compressCentroids_ useWeight data delta).length ≤ data.length := by
  cases data with
  | nil => exact ⟨hall, rfl, hsorted, le_rfl⟩
  | cons current rest =>
    have hmerge : ∀ x y, Within lo hi x → Within lo hi y → x.weight + y.weight < 2 ^ 64 →
        Within lo hi (merged x y) ∧ (merged x y).weight = x.weight + y.weight :=
      fun x y hx hy hxy => ⟨merged_within hxy hx hy, weight_u_eq hxy⟩
    have hbetween : ∀ x y, Within lo hi x → Within lo hi y → x.weight + y.weight < 2 ^ 64 →
        x.mean ≤ y.mean → x.mean ≤ (merged x y).mean ∧ (merged x y).mean ≤ y.mean := by
      intro x y hx hy hxy hle
      have hwithin : Within x.mean y.mean (merged x y) :=
        merged_within hxy ⟨hx.1, le_rfl, hle⟩ ⟨hy.1, hle, le_rfl⟩
      exact hwithin.2
    have htotal : current.weight + (rest.map Centroid.weight).sum < 2 ^ 64 := hfits
    obtain ⟨hkept, hsum⟩ := @pass_kept _ (merges useWeight delta) _ _ _ _ hmerge _ _ hall htotal
    obtain ⟨hpass, -⟩ := @pass_sorted _ (merges useWeight delta) _ _ _ _ hmerge _ _ _ hbetween _ _
      hall htotal hsorted
    exact ⟨hkept, hsum, hpass, length_pass_le _ _⟩

theorem weights_le_total {a b : Centroid} {l1 l2 : List Centroid}
    (h : data = l1 ++ a :: b :: l2) : a.weight + b.weight ≤ totalWeight data := by
  rw [h, totalWeight, List.map_append, List.sum_append, List.map_cons, List.map_cons, List.sum_cons,
    List.sum_cons]
  omega

/-- A compression by weight makes room if some neighbours may be merged, and otherwise changes
nothing. -/
theorem compressNormal_room {delta : ℚ} (hfits : totalWeight data < 2 ^ 64) :
    ((compressNormal data delta).length < data.length ↔ Mergeable delta data) ∧
      (¬Mergeable delta data → compressNormal data delta = data) := by
  have hsame : Mergeable delta data ↔
      SomeNeighbours (fun a b => merges true delta a b = true) data := by
    constructor
    · rintro ⟨l1, a, b, l2, heq, hle⟩
      refine ⟨l1, a, b, l2, heq, decide_eq_true ?_⟩
      rw [if_pos rfl, weight_u_eq ((weights_le_total heq).trans_lt hfits), distance_comm]
      exact hle
    · rintro ⟨l1, a, b, l2, heq, hle⟩
      have hle' := of_decide_eq_true hle
      rw [if_pos rfl, weight_u_eq ((weights_le_total heq).trans_lt hfits), distance_comm] at hle'
      exact ⟨l1, a, b, l2, heq, hle'⟩
  unfold compressNormal
  rw [hsame]
  cases data with
  | nil =>
    refine ⟨iff_of_false (lt_irrefl _) ?_, fun _ => rfl⟩
    rintro ⟨l1, a, b, l2, heq, -⟩
    exact absurd heq.symm (List.append_ne_nil_of_right_ne_nil _ (List.cons_ne_nil _ _))
  | cons current rest =>
    cases rest with
    | nil => exact ⟨iff_of_false (lt_irrefl _) (not_someNeighbours_singleton _), fun _ => rfl⟩
    | cons c rest =>
      have hlong : ¬(current :: c :: rest).length < 2 := by
        rw [List.length_cons, List.length_cons]
        omega
      rw [if_neg hlong]
      exact ⟨length_pass_lt_iff _ _, fun hnot => pass_eq_self hnot⟩

/-- The least distance is not greater than any, and it is one of them or the largest number. -/
theorem findMinDistance_spec (data : List Centroid) :
    (∀ x ∈ data.zip data.tail, findMinDistance data ≤ distance x.1 x.2) ∧
      (findMinDistance data = largest ∨
        ∃ x ∈ data.zip data.tail, distance x.1 x.2 = findMinDistance data) := by
  have hfold : ∀ (l : List (Centroid × Centroid)) (start : ℚ),
      (l.foldl (fun m x => if distance x.1 x.2 < m then distance x.1 x.2 else m) start ≤ start) ∧
      (∀ x ∈ l, l.foldl (fun m x => if distance x.1 x.2 < m then distance x.1 x.2 else m) start ≤
        distance x.1 x.2) ∧
      (l.foldl (fun m x => if distance x.1 x.2 < m then distance x.1 x.2 else m) start = start ∨
        ∃ x ∈ l, distance x.1 x.2 =
          l.foldl (fun m x => if distance x.1 x.2 < m then distance x.1 x.2 else m) start) := by
    intro l
    induction l with
    | nil => exact fun start => ⟨le_rfl, fun _ h => absurd h List.not_mem_nil, .inl rfl⟩
    | cons y l ih =>
      intro start
      rw [List.foldl_cons]
      obtain ⟨hle, hall, hone⟩ := ih (if distance y.1 y.2 < start then distance y.1 y.2 else start)
      have hstart : (if distance y.1 y.2 < start then distance y.1 y.2 else start) ≤ start := by
        split
        · next hlt => exact hlt.le
        · exact le_rfl
      have hy : (if distance y.1 y.2 < start then distance y.1 y.2 else start) ≤
          distance y.1 y.2 := by
        split
        · exact le_rfl
        · next hnot => exact not_lt.mp hnot
      refine ⟨hle.trans hstart, fun x hx => ?_, ?_⟩
      · rcases List.mem_cons.mp hx with rfl | hx
        · exact hle.trans hy
        · exact hall x hx
      · rcases hone with heq | ⟨x, hx, heq⟩
        · rw [heq]
          split
          · exact .inr ⟨y, List.mem_cons_self, rfl⟩
          · exact .inl rfl
        · exact .inr ⟨x, List.mem_cons_of_mem y hx, heq⟩
  obtain ⟨-, hall, hone⟩ := hfold (data.zip data.tail) largest
  exact ⟨hall, hone⟩

/-- The aggressive compression makes room if some neighbours may be merged by their weight, or if
all neighbours are more than `delta` apart, some of them not more than the largest number. -/
theorem compressAggressive_room {delta : ℚ} (hpos : ∀ c ∈ data, 0 < c.weight)
    (hfits : totalWeight data < 2 ^ 64)
    (h : Mergeable delta data ∨
      (¬SomeNeighbours (fun a b => distance a b ≤ delta) data ∧
        SomeNeighbours (fun a b => distance a b ≤ largest) data)) :
    (compressAggressive data delta).length < data.length := by
  have hshort : ¬data.length < 2 := by
    have htwo : ∀ {r : Centroid → Centroid → Prop}, SomeNeighbours r data → 2 ≤ data.length := by
      rintro r ⟨l1, a, b, l2, heq, -⟩
      rw [heq, List.length_append, List.length_cons, List.length_cons]
      omega
    rcases h with h | ⟨-, h⟩
    · exact Nat.not_lt.mpr (htwo h)
    · exact Nat.not_lt.mpr (htwo h)
  have hnormal : compressNormal data delta = compressCentroids_ true data delta := if_neg hshort
  obtain ⟨hmin, hone⟩ := findMinDistance_spec data
  unfold compressAggressive
  rw [if_neg hshort]
  dsimp only
  rcases h with h | ⟨hapart, h⟩
  · -- neighbours that are merged by their weight are not farther apart than delta
    have hnear : findMinDistance data ≤ delta := by
      obtain ⟨l1, a, b, l2, heq, hle⟩ := h
      have hmem : a ∈ data := heq ▸ List.mem_append_right l1 List.mem_cons_self
      have hone : (1 : ℚ) ≤ (a.weight + b.weight : ℕ) := by
        have ha := hpos a hmem
        have hnat : 1 ≤ a.weight + b.weight := by omega
        exact_mod_cast hnat
      have hdist : distance a b ≤ (a.weight + b.weight : ℕ) * distance a b :=
        le_mul_of_one_le_left (abs_nonneg _) hone
      have hsome : SomeNeighbours (fun a b => distance a b ≤ delta) data :=
        ⟨l1, a, b, l2, heq, hdist.trans hle⟩
      obtain ⟨x, hx, hxd⟩ := someNeighbours_iff_zip.mp hsome
      exact (hmin x hx).trans hxd
    rw [if_neg (not_lt.mpr hnear), ← hnormal]
    exact (compressNormal_room hfits).1.mpr h
  · -- the nearest neighbours are merged
    obtain ⟨x, hx, hxd⟩ := someNeighbours_iff_zip.mp h
    have hnearest : ∃ x ∈ data.zip data.tail, distance x.1 x.2 ≤ findMinDistance data := by
      rcases hone with heq | ⟨y, hy, heq⟩
      · exact ⟨x, hx, heq ▸ hxd⟩
      · exact ⟨y, hy, heq.le⟩
    have hfar : delta < findMinDistance data := by
      obtain ⟨y, hy, hyd⟩ := hnearest
      by_contra hnot
      exact hapart (someNeighbours_iff_zip.mpr ⟨y, hy, hyd.trans (not_lt.mp hnot)⟩)
    rw [if_pos hfar]
    have hsome : SomeNeighbours (fun a b => distance a b ≤ findMinDistance data) data :=
      someNeighbours_iff_zip.mpr hnearest
    have hmerge : SomeNeighbours (fun a b => merges false (findMinDistance data) a b = true) data := by
      refine hsome.imp fun a b hle => decide_eq_true ?_
      rw [if_neg Bool.false_ne_true, one_mul, distance_comm]
      exact hle
    cases data with
    | nil => exact absurd Nat.two_pos hshort
    | cons current rest => exact (length_pass_lt_iff _ _).mpr hmerge

theorem compressAggressive_cases (data : List Centroid) (delta : ℚ) :
    compressAggressive data delta = data ∨
      ∃ useWeight d, compressAggressive data delta = compressCentroids_ useWeight data d := by
  unfold compressAggressive
  split
  · exact .inl rfl
  · right
    dsimp only
    split
    · exact ⟨_, _, rfl⟩
    · exact ⟨_, _, rfl⟩

end Compress

/-! ## One value -/

section Insert

variable (data : List Centroid) (item : Centroid)

theorem insertIntoSortedRange_perm : (insertIntoSortedRange data item).Perm (item :: data) := by
  have hmiddle := @List.perm_middle _ item (data.takeWhile fun c => decide (c.mean < item.mean))
    (data.dropWhile fun c => decide (c.mean < item.mean))
  rwa [List.takeWhile_append_dropWhile] at hmiddle

theorem length_insertIntoSortedRange :
    (insertIntoSortedRange data item).length = data.length + 1 :=
  (insertIntoSortedRange_perm data item).length_eq

theorem totalWeight_insertIntoSortedRange :
    totalWeight (insertIntoSortedRange data item) = item.weight + totalWeight data :=
  ((insertIntoSortedRange_perm data item).map Centroid.weight).sum_eq.trans
    (by rw [List.map_cons, List.sum_cons, totalWeight])

variable {data}

theorem sorted_insertIntoSortedRange (h : Sorted data) :
    Sorted (insertIntoSortedRange data item) := by
  have hsplit := @List.takeWhile_append_dropWhile _ (fun c => decide (c.mean < item.mean)) data
  have hboth := h
  rw [Sorted, ← hsplit, List.pairwise_append] at hboth
  obtain ⟨hfront, hback, hacross⟩ := hboth
  have hless : ∀ c ∈ data.takeWhile fun c => decide (c.mean < item.mean), c.mean ≤ item.mean :=
    fun c hc => (of_decide_eq_true (List.all_eq_true.mp List.all_takeWhile c hc)).le
  have hmore : ∀ c ∈ data.dropWhile fun c => decide (c.mean < item.mean), item.mean ≤ c.mean := by
    cases hdrop : data.dropWhile fun c => decide (c.mean < item.mean) with
    | nil => exact fun c hc => absurd hc List.not_mem_nil
    | cons x l =>
      rw [hdrop] at hback
      have hx : item.mean ≤ x.mean := by
        have hne : data.dropWhile (fun c => decide (c.mean < item.mean)) ≠ [] := by
          rw [hdrop]
          exact List.cons_ne_nil _ _
        have hnot := List.head_dropWhile_not (fun c : Centroid => decide (c.mean < item.mean)) hne
        simp only [hdrop, List.head_cons] at hnot
        exact not_lt.mp (of_decide_eq_false hnot)
      intro c hc
      rcases List.mem_cons.mp hc with rfl | hc
      · exact hx
      · exact hx.trans ((List.pairwise_cons.mp hback).1 c hc)
  rw [Sorted, insertIntoSortedRange, List.pairwise_append]
  refine ⟨hfront, List.pairwise_cons.mpr ⟨hmore, hback⟩, fun a ha b hb => ?_⟩
  rcases List.mem_cons.mp hb with rfl | hb
  · exact hless a ha
  · exact (hless a ha).trans (hmore b hb)

end Insert

open RawTDigest

/-- What a digest should be. -/
structure Good (capacity : ℕ) (td : TDigest) : Prop where
  size : td.data.length ≤ capacity
  sorted : Sorted td.data
  weight : totalWeight td.data = td.weight
  fits : td.weight < 2 ^ 64
  bounds : ∀ c ∈ td.data, Within td.min td.max c

/-- The centroids among which there may be room for a value. -/
def made (capacity : ℕ) (C : Compression) (data : List Centroid) (delta : ℚ) : List Centroid :=
  if data.length < capacity then data
  else
    match C with
    | .NONE => data
    | .STANDARD => compressNormal data delta
    | .AGGRESSIVE => compressAggressive data delta

theorem good_clear (capacity : ℕ) : Good capacity clear :=
  ⟨Nat.zero_le _, List.Pairwise.nil, rfl, by decide, fun _ hc => absurd hc List.not_mem_nil⟩

section Add

variable {capacity : ℕ} {td : TDigest} (h : Good capacity td)

theorem updateMinMax_data (td : TDigest) (value : ℚ) :
    (updateMinMax_ td value).data = td.data ∧ (updateMinMax_ td value).weight = td.weight := by
  unfold updateMinMax_
  split
  · exact ⟨rfl, rfl⟩
  · dsimp only
    split <;> split <;> exact ⟨rfl, rfl⟩

/-- The bounds take the value in. -/
theorem updateMinMax_bounds (td : TDigest) (value : ℚ) :
    ((updateMinMax_ td value).min ≤ value ∧ value ≤ (updateMinMax_ td value).max) ∧
      (td.data ≠ [] → (updateMinMax_ td value).min ≤ td.min ∧
        td.max ≤ (updateMinMax_ td value).max) := by
  unfold updateMinMax_
  split
  · next hnil => exact ⟨⟨le_rfl, le_rfl⟩, fun hne => absurd hnil hne⟩
  · dsimp only
    split
    · next hmin =>
      split
      · next hmax => exact ⟨⟨le_rfl, le_rfl⟩, fun _ => ⟨hmin.le, hmax.le⟩⟩
      · next hmax => exact ⟨⟨le_rfl, not_lt.mp hmax⟩, fun _ => ⟨hmin.le, le_rfl⟩⟩
    · next hmin =>
      split
      · next hmax => exact ⟨⟨not_lt.mp hmin, le_rfl⟩, fun _ => ⟨le_rfl, hmax.le⟩⟩
      · next hmax => exact ⟨⟨not_lt.mp hmin, not_lt.mp hmax⟩, fun _ => ⟨le_rfl, le_rfl⟩⟩

include h

theorem centroids_eq : centroids capacity td = td.data := if_pos h.size

theorem within_updateMinMax (value : ℚ) : ∀ c ∈ td.data,
    Within (updateMinMax_ td value).min (updateMinMax_ td value).max c := by
  intro c hc
  obtain ⟨hpos, hlo, hhi⟩ := h.bounds c hc
  obtain ⟨hmin, hmax⟩ := (updateMinMax_bounds td value).2 (List.ne_nil_of_mem hc)
  exact ⟨hpos, hmin.trans hlo, hhi.trans hmax⟩

/-- A value is added if there is room among the centroids that are made for it. -/
theorem add_eq (C : Compression) (delta value : ℚ) (weight : ℕ)
    (hfits : td.weight + weight < 2 ^ 64) :
    add_ capacity C td delta value weight =
      if (made capacity C td.data delta).length < capacity then
        { updateMinMax_ td value with
          data := insertIntoSortedRange (made capacity C td.data delta) ⟨value, weight⟩
          weight := td.weight + weight }
      else { updateMinMax_ td value with data := made capacity C td.data delta } := by
  obtain ⟨hdata, hweight⟩ := updateMinMax_data td value
  have hold : (if (updateMinMax_ td value).data = [] then 0
      else (updateMinMax_ td value).weight) = td.weight := by
    rw [hdata, hweight]
    split
    · next hnil =>
      have hzero := h.weight
      rw [hnil] at hzero
      exact hzero
    · rfl
  have hself : { updateMinMax_ td value with data := td.data } = updateMinMax_ td value := by
    rw [← hdata]
  unfold add_ made
  rw [centroids_eq h]
  dsimp only
  rw [hold, Nat.mod_eq_of_lt hfits]
  by_cases hroom : td.data.length < capacity
  · rw [if_pos hroom, if_pos hroom, if_pos hroom]
  · rw [if_neg hroom, if_neg hroom]
    cases C with
    | NONE => rw [if_neg hroom, hself]
    | STANDARD => rfl
    | AGGRESSIVE => rfl

/-- The centroids that are made for a value are as good as those of the digest. -/
theorem made_spec {lo hi : ℚ} (hall : ∀ c ∈ td.data, Within lo hi c) (C : Compression)
    (delta : ℚ) :
    (∀ c ∈ made capacity C td.data delta, Within lo hi c) ∧
      totalWeight (made capacity C td.data delta) = totalWeight td.data ∧
      Sorted (made capacity C td.data delta) ∧
      (made capacity C td.data delta).length ≤ td.data.length := by
  have hself : (∀ c ∈ td.data, Within lo hi c) ∧ totalWeight td.data = totalWeight td.data ∧
      Sorted td.data ∧ td.data.length ≤ td.data.length := ⟨hall, rfl, h.sorted, le_rfl⟩
  have htotal : totalWeight td.data < 2 ^ 64 := h.weight ▸ h.fits
  have hspec (useWeight : Bool) (d : ℚ) := compressCentroids_spec useWeight d hall htotal h.sorted
  unfold made
  split
  · exact hself
  · cases C with
    | NONE => exact hself
    | STANDARD =>
      dsimp only
      unfold compressNormal
      split
      · exact hself
      · exact hspec _ _
    | AGGRESSIVE =>
      rcases compressAggressive_cases td.data delta with heq | ⟨useWeight, d, heq⟩
      · dsimp only
        rw [heq]
        exact hself
      · dsimp only
        rw [heq]
        exact hspec _ _

/-- A value that is added, or dropped, leaves a good digest, which is not heavier than with it. -/
theorem good_add (C : Compression) (delta value : ℚ) {weight : ℕ} (hweight : 0 < weight)
    (hfits : td.weight + weight < 2 ^ 64) :
    Good capacity (add_ capacity C td delta value weight) ∧
      (add_ capacity C td delta value weight).weight ≤ td.weight + weight := by
  have hwithin := within_updateMinMax h value
  obtain ⟨hbounds, -⟩ := updateMinMax_bounds td value
  obtain ⟨hmade, htotal, hsorted, hlen⟩ := made_spec h hwithin C delta
  rw [h.weight] at htotal
  rw [add_eq h C delta value weight hfits]
  split
  · next hroom =>
    refine ⟨⟨?_, sorted_insertIntoSortedRange _ hsorted, ?_, hfits, fun c hc => ?_⟩, le_rfl⟩
    · rw [length_insertIntoSortedRange]
      exact hroom
    · rw [totalWeight_insertIntoSortedRange, htotal]
      exact Nat.add_comm _ _
    · rcases List.mem_cons.mp ((insertIntoSortedRange_perm _ _).mem_iff.mp hc) with rfl | hc
      · exact ⟨hweight, hbounds⟩
      · exact hmade c hc
  · have hsame := (updateMinMax_data td value).2
    refine ⟨⟨hlen.trans h.size, hsorted, htotal.trans hsame.symm, hsame ▸ h.fits, hmade⟩, ?_⟩
    exact hsame.le.trans (Nat.le_add_right _ _)

theorem good_compress (delta : ℚ) : Good capacity (compress capacity td delta) := by
  have hspec := compressCentroids_spec true delta h.bounds (h.weight ▸ h.fits) h.sorted
  unfold compress
  rw [centroids_eq h]
  unfold compressNormal
  split
  · exact h
  · obtain ⟨hall, htotal, hsorted, hlen⟩ := hspec
    exact ⟨hlen.trans h.size, hsorted, htotal.trans h.weight, h.fits, hall⟩

end Add

/-- All values of another digest leave a good digest. -/
theorem good_merge {capacity : ℕ} {td : TDigest} (h : Good capacity td) {capacity_src : ℕ}
    {src : TDigest} (hsrc : Good capacity_src src) (C : Compression) (delta : ℚ)
    (hfits : td.weight + src.weight < 2 ^ 64) :
    Good capacity (merge_ capacity C td delta capacity_src src) := by
  have hvalid : valid capacity_src src := hsrc.size
  rw [merge_, if_neg (not_not.mpr hvalid)]
  have hpos : ∀ c ∈ src.data, 0 < c.weight := fun c hc => (hsrc.bounds c hc).1
  rw [← hsrc.weight] at hfits
  clear hsrc hvalid
  generalize src.data = values at hpos hfits
  induction values generalizing td with
  | nil => exact h
  | cons c values ih =>
    obtain ⟨hc, hvalues⟩ := List.forall_mem_cons.mp hpos
    rw [totalWeight, List.map_cons, List.sum_cons, ← totalWeight] at hfits
    obtain ⟨hgood, hle⟩ := good_add h C delta c.mean hc (by omega)
    rw [List.foldl_cons]
    exact ih hgood hvalues (by omega)

/-! ## Runs -/

/-- The digests that additions, merges and compressions make from an empty one, as long as the
weights fit into 64 bits. -/
inductive Reached : ℕ → TDigest → Prop
  | clear (capacity : ℕ) : Reached capacity clear
  | add {capacity td} (h : Reached capacity td) (C : Compression) (delta value : ℚ) {weight : ℕ}
      (hweight : 0 < weight) (hfits : td.weight + weight < 2 ^ 64) :
      Reached capacity (add_ capacity C td delta value weight)
  | merge {capacity td capacity_src src} (h : Reached capacity td)
      (hsrc : Reached capacity_src src) (C : Compression) (delta : ℚ)
      (hfits : td.weight + src.weight < 2 ^ 64) :
      Reached capacity (merge_ capacity C td delta capacity_src src)
  | compress {capacity td} (h : Reached capacity td) (delta : ℚ) :
      Reached capacity (compress capacity td delta)

/-- A value gets a centroid of its own. -/
def Kept (capacity : ℕ) (C : Compression) (td : TDigest) (delta value : ℚ) (weight : ℕ) : Prop :=
  (∃ data, (add_ capacity C td delta value weight).data =
      insertIntoSortedRange data ⟨value, weight⟩) ∧
    (add_ capacity C td delta value weight).weight = td.weight + weight

/-- A value changes nothing but the bounds. -/
def Dropped (capacity : ℕ) (C : Compression) (td : TDigest) (delta value : ℚ) (weight : ℕ) : Prop :=
  (add_ capacity C td delta value weight).data = td.data ∧
    (add_ capacity C td delta value weight).weight = td.weight

theorem Reached.good {capacity : ℕ} {td : TDigest} (h : Reached capacity td) : Good capacity td := by
  induction h with
  | clear capacity => exact good_clear capacity
  | add h C delta value hweight hfits ih => exact (good_add ih C delta value hweight hfits).1
  | merge h hsrc C delta hfits ih ihsrc => exact good_merge ih ihsrc C delta hfits
  | compress h delta ih => exact good_compress ih delta

section Room

variable {capacity : ℕ} {td : TDigest} (h : Good capacity td) {delta value : ℚ} {weight : ℕ}
  (hweight : 0 < weight) (hfits : td.weight + weight < 2 ^ 64)

include h hfits

theorem kept_of_room {C : Compression} (hroom : (made capacity C td.data delta).length < capacity) :
    Kept capacity C td delta value weight := by
  rw [Kept, add_eq h C delta value weight hfits, if_pos hroom]
  exact ⟨⟨_, rfl⟩, rfl⟩

theorem dropped_of_full {C : Compression}
    (hroom : ¬(made capacity C td.data delta).length < capacity)
    (hsame : made capacity C td.data delta = td.data) :
    Dropped capacity C td delta value weight := by
  rw [Dropped, add_eq h C delta value weight hfits, if_neg hroom]
  exact ⟨hsame, (updateMinMax_data td value).2⟩

omit h hfits in
include hweight in
/-- A value is not kept and dropped at once. -/
theorem not_kept_of_dropped {C : Compression} (hdropped : Dropped capacity C td delta value weight) :
    ¬Kept capacity C td delta value weight := by
  intro hkept
  have hsame := hkept.2.symm.trans hdropped.2
  omega

/-- A full digest drops every value if it is not compressed. -/
theorem dropped_none (hfull : td.data.length = capacity) :
    Dropped capacity .NONE td delta value weight := by
  have hnot : ¬td.data.length < capacity := by omega
  have hmade : made capacity .NONE td.data delta = td.data := if_neg hnot
  exact dropped_of_full h hfits (by rwa [hmade]) hmade

/-- A full digest that is compressed by weight drops a value if no neighbours may be merged. -/
theorem dropped_standard (hfull : td.data.length = capacity) (hnone : ¬Mergeable delta td.data) :
    Dropped capacity .STANDARD td delta value weight := by
  have hnot : ¬td.data.length < capacity := by omega
  have hmade : made capacity .STANDARD td.data delta = td.data := by
    rw [made, if_neg hnot]
    exact (compressNormal_room (h.weight ▸ h.fits)).2 hnone
  exact dropped_of_full h hfits (by rwa [hmade]) hmade

theorem kept_standard (hfull : td.data.length = capacity) (hsome : Mergeable delta td.data) :
    Kept capacity .STANDARD td delta value weight := by
  have hnot : ¬td.data.length < capacity := by omega
  refine kept_of_room h hfits ?_
  rw [made, if_neg hnot, ← hfull]
  exact (compressNormal_room (h.weight ▸ h.fits)).1.mpr hsome

theorem kept_aggressive (hfull : td.data.length = capacity)
    (hsome : Mergeable delta td.data ∨
      (¬SomeNeighbours (fun a b => distance a b ≤ delta) td.data ∧
        SomeNeighbours (fun a b => distance a b ≤ largest) td.data)) :
    Kept capacity .AGGRESSIVE td delta value weight := by
  have hnot : ¬td.data.length < capacity := by omega
  refine kept_of_room h hfits ?_
  rw [made, if_neg hnot, ← hfull]
  exact compressAggressive_room (fun c hc => (h.bounds c hc).1) (h.weight ▸ h.fits) hsome

theorem kept_of_length_lt (C : Compression) (hroom : td.data.length < capacity) :
    Kept capacity C td delta value weight := by
  have hmade : made capacity C td.data delta = td.data := if_pos hroom
  refine kept_of_room h hfits ?_
  rw [hmade]
  exact hroom

end Room

/-- In every digest that additions, merges and compressions make from an empty one the centroids
are not more than the capacity and in order, their weights are the total weight, and the bounds
hold for all means. A compression makes room if some neighbours may
be merged by their weight. A value is kept if the digest is not full. In a full one it is dropped
without compression; with the standard one it is kept if some neighbours may be merged by their
weight, and else dropped; with the aggressive one it is kept if there are such neighbours, or if
all neighbours are more than `delta` apart. -/
theorem reached_spec {capacity : ℕ} {td : TDigest} (h : Reached capacity td) :
    Good capacity td ∧
      (∀ delta, (compress capacity td delta).data.length < td.data.length ↔
        Mergeable delta td.data) ∧
      ∀ (delta value : ℚ) (weight : ℕ), 0 < weight → td.weight + weight < 2 ^ 64 →
        (td.data.length < capacity → ∀ C, Kept capacity C td delta value weight) ∧
        (td.data.length = capacity →
          Dropped capacity .NONE td delta value weight ∧
          (Kept capacity .STANDARD td delta value weight ↔ Mergeable delta td.data) ∧
          (¬Mergeable delta td.data → Dropped capacity .STANDARD td delta value weight) ∧
          (Mergeable delta td.data ∨
            (¬SomeNeighbours (fun a b => distance a b ≤ delta) td.data ∧
              SomeNeighbours (fun a b => distance a b ≤ largest) td.data) →
            Kept capacity .AGGRESSIVE td delta value weight)) := by
  have hgood := h.good
  refine ⟨hgood, fun delta => ?_, fun delta value weight hweight hfits =>
    ⟨fun hroom C => kept_of_length_lt hgood hfits C hroom, fun hfull => ⟨dropped_none hgood hfits hfull,
      ⟨fun hkept => ?_, kept_standard hgood hfits hfull⟩, dropped_standard hgood hfits hfull,
      kept_aggressive hgood hfits hfull⟩⟩⟩
  · rw [compress, centroids_eq hgood]
    exact (compressNormal_room (hgood.weight ▸ hgood.fits)).1
  · by_contra hnone
    exact not_kept_of_dropped hweight (dropped_standard hgood hfits hfull hnone) hkept

/-- A digest of two values. -/
def twoValues : TDigest := add_ 2 .NONE (add_ 2 .NONE clear 1 0 1) 1 1 1

theorem reached_twoValues : Reached 2 twoValues :=
  ((Reached.clear 2).add .NONE 1 0 Nat.one_pos (by decide)).add .NONE 1 1 Nat.one_pos
    (by decide +kernel)

/-- It is full, and its values are one apart. -/
theorem reached_twoValues_spec :
    Good 2 twoValues ∧ Dropped 2 .NONE twoValues 1 5 1 ∧ Kept 2 .STANDARD twoValues 2 5 1 := by
  obtain ⟨hgood, -, hroom⟩ := reached_spec reached_twoValues
  have hdata : twoValues.data = [⟨0, 1⟩, ⟨1, 1⟩] := by decide +kernel
  have hfull : twoValues.data.length = 2 := by rw [hdata]; rfl
  have hfits : twoValues.weight + 1 < 2 ^ 64 := by decide +kernel
  refine ⟨hgood, ((hroom 1 5 1 Nat.one_pos hfits).2 hfull).1,
    ((hroom 2 5 1 Nat.one_pos hfits).2 hfull).2.1.mpr ⟨[], _, _, [], hdata, ?_⟩⟩
  norm_num [distance]

/-- Not every value is kept: a full digest that is not compressed drops one. -/
theorem not_always_kept : ¬∀ (capacity : ℕ) (td : TDigest), 2 ≤ capacity → Reached capacity td →
    ∀ (C : Compression) (delta value : ℚ) (weight : ℕ), 0 < weight → td.weight + weight < 2 ^ 64 →
      Kept capacity C td delta value weight := by
  intro hall
  have hkept := hall 2 twoValues le_rfl reached_twoValues .NONE 1 5 1 Nat.one_pos
    (by decide +kernel)
  have hfull : twoValues.data.length = 2 := by decide +kernel
  exact not_kept_of_dropped Nat.one_pos
    (dropped_none reached_twoValues.good (by decide +kernel) hfull) hkept

end HM4.Digest
