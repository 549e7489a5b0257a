import HM4.AccumulateResults
import HM4.GeoHash
import HM4.General.Decimal
import Mathlib.Data.Rat.Floor

/-!
# Searching around a point

`GEORADIUS` searches the cells around a point whose size fits the radius. Where a cell is large
for the radius it leaves out the row or the column on the far side of the point. It takes the row
on the far side where it leaves out both a row and a column.
-/

namespace HM4.GeoRadius

open LexPrefix Bytes Pairs KeyedList Database IndexToken AccumulateResults Bisection GeoHash

/-- `GeoSphere`, with the sizes of rectangles on it. -/
structure GeoSphere where
  cells : List ℚ
  width : Rectangle → ℚ
  height : Rectangle → ℚ
  length_cells : cells.length = MAX_SIZE

/-- `selectCellsSize_`. -/
def selectCellsSize (radius : ℚ) (sphere : GeoSphere) : ℕ :=
  if sphere.cells.getD 0 0 < radius then 0
  else (sphere.cells.takeWhile fun cell => decide (radius ≤ cell)).length

theorem selectCellsSize_le (radius : ℚ) (sphere : GeoSphere) :
    selectCellsSize radius sphere ≤ MAX_SIZE := by
  unfold selectCellsSize
  split
  · exact Nat.zero_le _
  · rw [← sphere.length_cells]
    exact (List.takeWhile_prefix _).length_le

/-- A cell, one to a side, one above or below, and the one between these. -/
def corner (hash : Key) (row column : Direction) : Option (List Key) := do
  let data1 ← adjacent hash row
  let data2 ← adjacent hash column
  let data3 ← adjacent data1 column
  return [hash, data1, data2, data3]

/-- Two rows or columns of three cells. -/
def band (hash : Key) (beside side side' : Direction) : Option (List Key) := do
  let data1 ← adjacent hash beside
  let data2 ← adjacent hash side
  let data3 ← adjacent hash side'
  let data4 ← adjacent data1 side
  let data5 ← adjacent data1 side'
  return [hash, data1, data2, data3, data4, data5]

/-- All cells around a cell. -/
def around (hash : Key) : Option (List Key) := do
  let data1 ← adjacent hash .n
  let data2 ← adjacent hash .s
  let data3 ← adjacent hash .e
  let data4 ← adjacent hash .w
  let data5 ← adjacent data1 .e
  let data6 ← adjacent data1 .w
  let data7 ← adjacent data2 .e
  let data8 ← adjacent data2 .w
  return [hash, data1, data2, data3, data4, data5, data6, data7, data8]

/-- The optimized cells for the cell `bbox` of a point. -/
def optimized (me : Point) (radius : ℚ) (sphere : GeoSphere) (hash : Key) (bbox : Rectangle) :
    Option (List Key) :=
  if 2 * radius < sphere.height bbox then
    if 2 * radius < sphere.width bbox then
      -- 2 x 2 = 4
      if me.lat < bbox.center.lat then
        if me.lon < bbox.center.lon then corner hash .n .w else corner hash .n .e
      else
        if me.lon < bbox.center.lon then corner hash .s .w else corner hash .s .e
    else
      -- 3 x 2 = 6
      if bbox.center.lat < me.lat then band hash .n .e .w else band hash .s .e .w
  else if 2 * radius < sphere.width bbox then
    -- 2 x 3 = 6
    if me.lon < bbox.center.lon then band hash .w .n .s else band hash .e .n .s
  else around hash

/-- `nearbyCells`; nothing if `decode` throws. -/
def nearbyCells (ENABLE_OPTIMIZATIONS : Bool) (me : Point) (radius : ℚ) (sphere : GeoSphere) :
    Option (List Key) :=
  let size := selectCellsSize radius sphere
  if size = 0 then some []
  else
    let hash := encode me size
    if ENABLE_OPTIMIZATIONS = true then (decode hash).bind (optimized me radius sphere hash)
    else around hash

/-! ## The search -/

/-- `to_string` of a number. -/
def to_string (n : ℕ) : Key := (Decimal.digits n).map fun d => Fin.ofNat 256 (48 + d)

/-- `extractName`: the last token. -/
def extractName (line : Key) : Key := (line.reverse.takeWhile (· ≠ separator)).reverse

/-- `makeKeyRangeN` without the last separator. -/
def makeKeyRange (keyN hash : Key) : Key :=
  concatenateBuffer bufferKeySize [keyN, [separator], hash]

section Search

variable (extractPoint : Key → Point) (distance : Point → Point → ℚ) (alive : Pair → Bool)

/-- `pPair`: it counts the pairs within the radius and pushes their names and distances. -/
def pPair (me : Point) (radius : ℚ) (s : ℕ × List (Key × Key)) (pair : Pair) :
    Bool × ℕ × List (Key × Key) :=
  let dist := distance me (extractPoint pair.val)
  if dist < radius then
    if ITERATIONS_RESULTS_MAX < s.1 + 1 then (false, s.1 + 1, s.2)
    else (true, s.1 + 1, s.2 ++ [(extractName pair.key, to_string dist.floor.toNat)])
  else (true, s)

/-- The loop of `GEORADIUS` over the cells. -/
def searchCells (keyN : Key) (me : Point) (radius : ℚ) (db : Db) (cells : List Key) :
    ℕ × List (Key × Key) :=
  cells.foldl (fun s hash =>
    let pre := makeKeyRange keyN hash
    (sharedAccumulatePairs none (StopPrefixPredicate pre) alive
      (pPair extractPoint distance me radius) 0 0 (fromKey Pair.key pre db) s).2) (0, [])

/-- What `GEORADIUS` answers for a point and a radius. -/
def georadius (ENABLE_OPTIMIZATIONS : Bool) (sphere : GeoSphere) (keyN : Key) (me : Point)
    (radius : ℚ) (db : Db) : Option (List (Key × Key)) :=
  (nearbyCells ENABLE_OPTIMIZATIONS me radius sphere).map fun cells =>
    (searchCells extractPoint distance alive keyN me radius db cells).2

end Search

/-! ## The places of the cells -/

/-- A geohash of so many letters with a place. -/
def IsPlace (n : ℕ) (hash : Key) (p : ℕ × ℕ) : Prop := hash.length = n ∧ place hash = some p

/-- A place and one that is at most one row and one column away. -/
def Around (p p' : ℕ × ℕ) : Prop :=
  (p.1 ≤ p'.1 + 1 ∧ p'.1 ≤ p.1 + 1) ∧ p.2 ≤ p'.2 + 1 ∧ p'.2 ≤ p.2 + 1

/-- A place that is not on the other side of a place. -/
def OnSide : Direction → ℕ × ℕ → ℕ × ℕ → Prop
  | .n, p, p' => p.2 ≤ p'.2
  | .s, p, p' => p'.2 ≤ p.2
  | .e, p, p' => p.1 ≤ p'.1
  | .w, p, p' => p'.1 ≤ p.1

variable {n : ℕ} {hash : Key} {p p' : ℕ × ℕ}

theorem IsPlace.adjacent {direction : Direction} (h : IsPlace n hash p)
    (hstay : Stays direction (gridSize (5 * n)) p) :
    ∃ hash', adjacent hash direction = some hash' ∧ IsPlace n hash' (shift direction p) := by
  obtain ⟨rfl, hplace⟩ := h
  obtain ⟨hash', hadjacent, hlen, hplace'⟩ := adjacent_place hplace hstay
  exact ⟨hash', hadjacent, hlen, hplace'⟩

theorem corner_spec {row column : Direction} (h : IsPlace n hash p)
    (hrow : Stays row (gridSize (5 * n)) p) (hcolumn : Stays column (gridSize (5 * n)) p)
    (hboth : Stays column (gridSize (5 * n)) (shift row p)) :
    ∃ cells, corner hash row column = some cells ∧ List.Forall₂ (IsPlace n) cells
      [p, shift row p, shift column p, shift column (shift row p)] := by
  obtain ⟨data1, h1, hp1⟩ := h.adjacent hrow
  obtain ⟨data2, h2, hp2⟩ := h.adjacent hcolumn
  obtain ⟨data3, h3, hp3⟩ := hp1.adjacent hboth
  refine ⟨[hash, data1, data2, data3], ?_, .cons h (.cons hp1 (.cons hp2 (.cons hp3 .nil)))⟩
  simp only [corner, h1, h2, h3, Option.bind_eq_bind, Option.bind_some, Option.pure_def]

theorem band_spec {beside side side' : Direction} (h : IsPlace n hash p)
    (hbeside : Stays beside (gridSize (5 * n)) p) (hside : Stays side (gridSize (5 * n)) p)
    (hside' : Stays side' (gridSize (5 * n)) p)
    (hboth : Stays side (gridSize (5 * n)) (shift beside p))
    (hboth' : Stays side' (gridSize (5 * n)) (shift beside p)) :
    ∃ cells, band hash beside side side' = some cells ∧ List.Forall₂ (IsPlace n) cells
      [p, shift beside p, shift side p, shift side' p, shift side (shift beside p),
        shift side' (shift beside p)] := by
  obtain ⟨data1, h1, hp1⟩ := h.adjacent hbeside
  obtain ⟨data2, h2, hp2⟩ := h.adjacent hside
  obtain ⟨data3, h3, hp3⟩ := h.adjacent hside'
  obtain ⟨data4, h4, hp4⟩ := hp1.adjacent hboth
  obtain ⟨data5, h5, hp5⟩ := hp1.adjacent hboth'
  refine ⟨[hash, data1, data2, data3, data4, data5], ?_,
    .cons h (.cons hp1 (.cons hp2 (.cons hp3 (.cons hp4 (.cons hp5 .nil)))))⟩
  simp only [band, h1, h2, h3, h4, h5, Option.bind_eq_bind, Option.bind_some, Option.pure_def]

theorem around_spec (h : IsPlace n hash p) (hinner : ∀ d, Stays d (gridSize (5 * n)) p) :
    ∃ cells, around hash = some cells ∧ List.Forall₂ (IsPlace n) cells
      [p, shift .n p, shift .s p, shift .e p, shift .w p, shift .e (shift .n p),
        shift .w (shift .n p), shift .e (shift .s p), shift .w (shift .s p)] := by
  obtain ⟨data1, h1, hp1⟩ := h.adjacent (hinner .n)
  obtain ⟨data2, h2, hp2⟩ := h.adjacent (hinner .s)
  obtain ⟨data3, h3, hp3⟩ := h.adjacent (hinner .e)
  obtain ⟨data4, h4, hp4⟩ := h.adjacent (hinner .w)
  obtain ⟨data5, h5, hp5⟩ := hp1.adjacent (show Stays .e _ _ from hinner .e)
  obtain ⟨data6, h6, hp6⟩ := hp1.adjacent (show Stays .w _ _ from hinner .w)
  obtain ⟨data7, h7, hp7⟩ := hp2.adjacent (show Stays .e _ _ from hinner .e)
  obtain ⟨data8, h8, hp8⟩ := hp2.adjacent (show Stays .w _ _ from hinner .w)
  refine ⟨[hash, data1, data2, data3, data4, data5, data6, data7, data8], ?_,
    .cons h (.cons hp1 (.cons hp2 (.cons hp3 (.cons hp4 (.cons hp5 (.cons hp6 (.cons hp7
      (.cons hp8 .nil))))))))⟩
  simp only [around, h1, h2, h3, h4, h5, h6, h7, h8, Option.bind_eq_bind, Option.bind_some,
    Option.pure_def]

/-- The row that is kept beside the point's, if one is left out. -/
def keptRow (me : Point) (radius : ℚ) (sphere : GeoSphere) (bbox : Rectangle) : Option Direction :=
  if 2 * radius < sphere.height bbox then
    if 2 * radius < sphere.width bbox then some (if me.lat < bbox.center.lat then .n else .s)
    else some (if bbox.center.lat < me.lat then .n else .s)
  else none

/-- The column that is kept, if one is left out. -/
def keptColumn (me : Point) (radius : ℚ) (sphere : GeoSphere) (bbox : Rectangle) :
    Option Direction :=
  if 2 * radius < sphere.width bbox then some (if me.lon < bbox.center.lon then .w else .e)
  else none

/-- The cells that are searched are the ones around a cell, without a row and a column. -/
def Kept (row column : Option Direction) (p p' : ℕ × ℕ) : Prop :=
  Around p p' ∧ (∀ d, row = some d → OnSide d p p') ∧ ∀ d, column = some d → OnSide d p p'

theorem around_kept (h : IsPlace n hash p) (hinner : ∀ d, Stays d (gridSize (5 * n)) p) :
    ∃ cells ps, around hash = some cells ∧ List.Forall₂ (IsPlace n) cells ps ∧
      ∀ p', p' ∈ ps ↔ Kept none none p p' := by
  obtain ⟨cells, hcells, hplaces⟩ := around_spec h hinner
  refine ⟨cells, _, hcells, hplaces, fun p' => ?_⟩
  have hlon : 0 < p.1 := hinner .w
  have hlat : 0 < p.2 := hinner .s
  obtain ⟨x, y⟩ := p
  obtain ⟨x', y'⟩ := p'
  simp only [List.mem_cons, List.not_mem_nil, or_false, Prod.mk.injEq, shift, Kept, Around,
    reduceCtorEq, false_imp_iff, implies_true, and_true] at *
  omega

theorem corner_kept {row column : Direction} (hrow : row = .n ∨ row = .s)
    (hcolumn : column = .e ∨ column = .w) (h : IsPlace n hash p)
    (hinner : ∀ d, Stays d (gridSize (5 * n)) p) :
    ∃ cells ps, corner hash row column = some cells ∧ List.Forall₂ (IsPlace n) cells ps ∧
      ∀ p', p' ∈ ps ↔ Kept (some row) (some column) p p' := by
  have hboth : Stays column (gridSize (5 * n)) (shift row p) := by
    rcases hcolumn with rfl | rfl
    · rcases hrow with rfl | rfl <;> exact hinner .e
    · rcases hrow with rfl | rfl <;> exact hinner .w
  obtain ⟨cells, hcells, hplaces⟩ := corner_spec h (hinner row) (hinner column) hboth
  refine ⟨cells, _, hcells, hplaces, fun p' => ?_⟩
  have hlon : 0 < p.1 := hinner .w
  have hlat : 0 < p.2 := hinner .s
  obtain ⟨x, y⟩ := p
  obtain ⟨x', y'⟩ := p'
  rcases hrow with rfl | rfl <;> rcases hcolumn with rfl | rfl <;>
    simp only [List.mem_cons, List.not_mem_nil, or_false, Prod.mk.injEq, shift, Kept, Around,
      OnSide, Option.some.injEq, forall_eq'] at * <;>
    omega

theorem rows_kept {beside : Direction} (hbeside : beside = .n ∨ beside = .s) (h : IsPlace n hash p)
    (hinner : ∀ d, Stays d (gridSize (5 * n)) p) :
    ∃ cells ps, band hash beside .e .w = some cells ∧ List.Forall₂ (IsPlace n) cells ps ∧
      ∀ p', p' ∈ ps ↔ Kept (some beside) none p p' := by
  have heast : Stays .e (gridSize (5 * n)) (shift beside p) := by
    rcases hbeside with rfl | rfl <;> exact hinner .e
  have hwest : Stays .w (gridSize (5 * n)) (shift beside p) := by
    rcases hbeside with rfl | rfl <;> exact hinner .w
  obtain ⟨cells, hcells, hplaces⟩ :=
    band_spec h (hinner beside) (hinner .e) (hinner .w) heast hwest
  refine ⟨cells, _, hcells, hplaces, fun p' => ?_⟩
  have hlon : 0 < p.1 := hinner .w
  have hlat : 0 < p.2 := hinner .s
  obtain ⟨x, y⟩ := p
  obtain ⟨x', y'⟩ := p'
  rcases hbeside with rfl | rfl <;>
    simp only [List.mem_cons, List.not_mem_nil, or_false, Prod.mk.injEq, shift, Kept, Around,
      OnSide, Option.some.injEq, forall_eq', reduceCtorEq, false_imp_iff, implies_true,
      and_true] at * <;>
    omega

theorem columns_kept {beside : Direction} (hbeside : beside = .e ∨ beside = .w)
    (h : IsPlace n hash p) (hinner : ∀ d, Stays d (gridSize (5 * n)) p) :
    ∃ cells ps, band hash beside .n .s = some cells ∧ List.Forall₂ (IsPlace n) cells ps ∧
      ∀ p', p' ∈ ps ↔ Kept none (some beside) p p' := by
  have hnorth : Stays .n (gridSize (5 * n)) (shift beside p) := by
    rcases hbeside with rfl | rfl <;> exact hinner .n
  have hsouth : Stays .s (gridSize (5 * n)) (shift beside p) := by
    rcases hbeside with rfl | rfl <;> exact hinner .s
  obtain ⟨cells, hcells, hplaces⟩ :=
    band_spec h (hinner beside) (hinner .n) (hinner .s) hnorth hsouth
  refine ⟨cells, _, hcells, hplaces, fun p' => ?_⟩
  have hlon : 0 < p.1 := hinner .w
  have hlat : 0 < p.2 := hinner .s
  obtain ⟨x, y⟩ := p
  obtain ⟨x', y'⟩ := p'
  rcases hbeside with rfl | rfl <;>
    simp only [List.mem_cons, List.not_mem_nil, or_false, Prod.mk.injEq, shift, Kept, Around,
      OnSide, Option.some.injEq, forall_eq', reduceCtorEq, false_imp_iff, implies_true,
      true_and] at * <;>
    omega

/-- The optimized cells are all around a cell but for a row and a column. -/
theorem optimized_kept {me : Point} {radius : ℚ} {sphere : GeoSphere} {bbox : Rectangle}
    (h : IsPlace n hash p) (hinner : ∀ d, Stays d (gridSize (5 * n)) p) :
    ∃ cells ps, optimized me radius sphere hash bbox = some cells ∧
      List.Forall₂ (IsPlace n) cells ps ∧
        ∀ p', p' ∈ ps ↔
          Kept (keptRow me radius sphere bbox) (keptColumn me radius sphere bbox) p p' := by
  unfold optimized keptRow keptColumn
  by_cases hheight : 2 * radius < sphere.height bbox
  · by_cases hwidth : 2 * radius < sphere.width bbox
    · simp only [if_pos hheight, if_pos hwidth]
      by_cases hlat : me.lat < bbox.center.lat
      · simp only [if_pos hlat]
        by_cases hlon : me.lon < bbox.center.lon
        · simp only [if_pos hlon]
          exact corner_kept (.inl rfl) (.inr rfl) h hinner
        · simp only [if_neg hlon]
          exact corner_kept (.inl rfl) (.inl rfl) h hinner
      · simp only [if_neg hlat]
        by_cases hlon : me.lon < bbox.center.lon
        · simp only [if_pos hlon]
          exact corner_kept (.inr rfl) (.inr rfl) h hinner
        · simp only [if_neg hlon]
          exact corner_kept (.inr rfl) (.inl rfl) h hinner
    · simp only [if_pos hheight, if_neg hwidth]
      by_cases hlat : bbox.center.lat < me.lat
      · simp only [if_pos hlat]
        exact rows_kept (.inl rfl) h hinner
      · simp only [if_neg hlat]
        exact rows_kept (.inr rfl) h hinner
  · by_cases hwidth : 2 * radius < sphere.width bbox
    · simp only [if_neg hheight, if_pos hwidth]
      by_cases hlon : me.lon < bbox.center.lon
      · simp only [if_pos hlon]
        exact columns_kept (.inr rfl) h hinner
      · simp only [if_neg hlon]
        exact columns_kept (.inl rfl) h hinner
    · simp only [if_neg hheight, if_neg hwidth]
      exact around_kept h hinner

/-! ## Points near the middle of a cell -/

/-- A point is on a side of the middle of its cell, or in the middle. -/
def Faces : Direction → Point → Point → Prop
  | .n, center, me => center.lat ≤ me.lat
  | .s, center, me => me.lat ≤ center.lat
  | .e, center, me => center.lon ≤ me.lon
  | .w, center, me => me.lon ≤ center.lon

/-- Two points that are less than half the height, or the width, of a rectangle apart. -/
def NearLat (r : Rectangle) (me q : Point) : Prop :=
  |q.lat - me.lat| < (r.ne.lat - r.sw.lat) / 2

/-- And of the width. -/
def NearLon (r : Rectangle) (me q : Point) : Prop :=
  |q.lon - me.lon| < (r.ne.lon - r.sw.lon) / 2

theorem height_cell (bits : ℕ) (p : ℕ × ℕ) :
    (cell bits p).ne.lat - (cell bits p).sw.lat = size 180 (bits / 2) :=
  left_succ_sub _ _

theorem width_cell (bits : ℕ) (p : ℕ × ℕ) :
    (cell bits p).ne.lon - (cell bits p).sw.lon = size 360 ((bits + 1) / 2) :=
  left_succ_sub _ _

variable {bits : ℕ} {me q : Point}

/-- Points near a point that faces a side are not on the other side of its cell. -/
theorem onSide_row {d : Direction} (hd : d = .n ∨ d = .s)
    (hfaces : Faces d (cell bits p).center me) (hnear : NearLat (cell bits p) me q)
    (hq : (cell bits p').Contains q) : OnSide d p p' := by
  unfold NearLat at hnear
  rw [height_cell] at hnear
  rcases hd with rfl | rfl
  · exact (contains_cell.mp hq).1.le_of_middle_le (by norm_num) hfaces hnear
  · exact (contains_cell.mp hq).1.le_of_le_middle (by norm_num) hfaces hnear

theorem onSide_column {d : Direction} (hd : d = .e ∨ d = .w)
    (hfaces : Faces d (cell bits p).center me) (hnear : NearLon (cell bits p) me q)
    (hq : (cell bits p').Contains q) : OnSide d p p' := by
  unfold NearLon at hnear
  rw [width_cell] at hnear
  rcases hd with rfl | rfl
  · exact (contains_cell.mp hq).2.le_of_middle_le (by norm_num) hfaces hnear
  · exact (contains_cell.mp hq).2.le_of_le_middle (by norm_num) hfaces hnear

variable {radius : ℚ} {sphere : GeoSphere} {bbox : Rectangle} {d : Direction}

/-- The column that is kept is on the side of the point. -/
theorem keptColumn_faces (h : keptColumn me radius sphere bbox = some d) :
    2 * radius < sphere.width bbox ∧ (d = .e ∨ d = .w) ∧ Faces d bbox.center me := by
  unfold keptColumn at h
  split at h
  · next hwidth =>
    obtain rfl := Option.some.inj h
    refine ⟨hwidth, ?_⟩
    split
    · next hlon => exact ⟨.inr rfl, hlon.le⟩
    · next hlon => exact ⟨.inl rfl, not_lt.mp hlon⟩
  · exact absurd h.symm (Option.some_ne_none d)

/-- Where both a row and a column are left out, the row on the side of the point is left out, if
the point is not half way up. -/
def Swapped (me : Point) (radius : ℚ) (sphere : GeoSphere) (bbox : Rectangle) : Prop :=
  (2 * radius < sphere.height bbox ∧ 2 * radius < sphere.width bbox) ∧ me.lat ≠ bbox.center.lat

theorem keptRow_faces (h : keptRow me radius sphere bbox = some d) :
    2 * radius < sphere.height bbox ∧ (d = .n ∨ d = .s) ∧
      (¬Swapped me radius sphere bbox → Faces d bbox.center me) := by
  unfold keptRow at h
  split at h
  · next hheight =>
    refine ⟨hheight, ?_⟩
    split at h
    · next hwidth =>
      obtain rfl := Option.some.inj h
      split
      · next hlat => exact ⟨.inl rfl, fun hnot => absurd ⟨⟨hheight, hwidth⟩, hlat.ne⟩ hnot⟩
      · next hlat =>
        refine ⟨.inr rfl, fun hnot => ?_⟩
        by_contra hfaces
        exact hnot ⟨⟨hheight, hwidth⟩, fun heq => hfaces heq.le⟩
    · obtain rfl := Option.some.inj h
      split
      · next hlat => exact ⟨.inl rfl, fun _ => hlat.le⟩
      · next hlat => exact ⟨.inr rfl, fun _ => not_lt.mp hlat⟩
  · exact absurd h.symm (Option.some_ne_none d)

/-- Points near enough to a point are in the cells that are kept, if the rows are not swapped. -/
theorem kept_of_near (hswap : ¬Swapped me radius sphere (cell bits p))
    (hlat : 2 * radius < sphere.height (cell bits p) → NearLat (cell bits p) me q)
    (hlon : 2 * radius < sphere.width (cell bits p) → NearLon (cell bits p) me q)
    (hq : (cell bits p').Contains q) (haround : Around p p') :
    Kept (keptRow me radius sphere (cell bits p)) (keptColumn me radius sphere (cell bits p))
      p p' := by
  refine ⟨haround, fun d hd => ?_, fun d hd => ?_⟩
  · obtain ⟨hheight, haxis, hfaces⟩ := keptRow_faces hd
    exact onSide_row haxis (hfaces hswap) (hlat hheight) hq
  · obtain ⟨hwidth, haxis, hfaces⟩ := keptColumn_faces hd
    exact onSide_column haxis hfaces (hlon hwidth) hq

/-- A point near the middle of its cell and the row that its latitude is not in. -/
theorem exists_lost (hcontains : (cell bits p).Contains me) (hlat : 0 < p.2)
    (hswap : Swapped me radius sphere (cell bits p)) : ∃ q p', (cell bits p').Contains q ∧
      Around p p' ∧ NearLat (cell bits p) me q ∧ NearLon (cell bits p) me q ∧
        ¬Kept (keptRow me radius sphere (cell bits p)) (keptColumn me radius sphere (cell bits p))
          p p' := by
  obtain ⟨⟨hheight, hwidth⟩, hne⟩ := hswap
  have hlon (t : ℚ) : NearLon (cell bits p) me ⟨t, me.lon⟩ := by
    unfold NearLon
    rw [width_cell, sub_self, abs_zero]
    exact half_pos (size_pos (by norm_num) _)
  have hrow : keptRow me radius sphere (cell bits p) =
      some (if me.lat < (cell bits p).center.lat then .n else .s) := by
    unfold keptRow
    rw [if_pos hheight, if_pos hwidth]
  obtain ⟨hcell, hcellLon⟩ := contains_cell.mp hcontains
  obtain ⟨x, y⟩ := p
  rcases hne.lt_or_gt with hlt | hgt
  · -- a point below its cell
    obtain ⟨y, rfl⟩ := Nat.exists_eq_succ_of_ne_zero hlat.ne'
    obtain ⟨t, ht, hnear⟩ := hcell.exists_left hlt
    refine ⟨⟨t, me.lon⟩, (x, y), contains_cell.mpr ⟨ht, hcellLon⟩, ?_, ?_, hlon t, fun hkept => ?_⟩
    · simp only [Around]
      omega
    · unfold NearLat
      rw [height_cell]
      exact hnear
    · have hside := hkept.2.1 _ hrow
      rw [if_pos hlt] at hside
      exact Nat.not_succ_le_self y hside
  · -- and above it
    obtain ⟨t, ht, hnear⟩ := hcell.exists_right hgt
    refine ⟨⟨t, me.lon⟩, (x, y + 1), contains_cell.mpr ⟨ht, hcellLon⟩, ?_, ?_, hlon t,
      fun hkept => ?_⟩
    · simp only [Around]
      omega
    · unfold NearLat
      rw [height_cell]
      exact hnear
    · have hside := hkept.2.1 _ hrow
      rw [if_neg hgt.not_gt] at hside
      exact Nat.not_succ_le_self y hside

/-! ## What a search finds -/

/-- The points of some cells. -/
theorem inHash_cells {cells : List Key} {ps : List (ℕ × ℕ)}
    (h : List.Forall₂ (IsPlace n) cells ps) :
    (∃ hash ∈ cells, InHash hash q) ↔ ∃ p ∈ ps, (cell (5 * n) p).Contains q := by
  induction h with
  | nil => simp only [List.not_mem_nil, false_and, exists_false]
  | @cons hash p cells ps hplace hrest ih =>
    obtain ⟨rfl, hplace⟩ := hplace
    have hhead : InHash hash q ↔ (cell (5 * hash.length) p).Contains q := by
      rw [inHash_iff, hplace]
      simp only [Option.some.injEq, exists_eq_left']
    simp only [List.mem_cons, exists_eq_or_imp, ih, hhead]

theorem length_cells {cells : List Key} {ps : List (ℕ × ℕ)}
    (h : List.Forall₂ (IsPlace n) cells ps) :
    ∀ hash ∈ cells, hash.length = n ∧ (place hash).isSome = true := by
  induction h with
  | nil => exact fun _ h => absurd h List.not_mem_nil
  | cons hplace hrest ih =>
    refine List.forall_mem_cons.mpr ⟨⟨hplace.1, ?_⟩, ih⟩
    rw [hplace.2]
    rfl

section Search

variable (extractPoint : Key → Point) (distance : Point → Point → ℚ) (alive : Pair → Bool)

/-- The pairs within the radius below a prefix. -/
def found (me : Point) (radius : ℚ) (db : Db) (pre : Key) : List Pair :=
  ((db.filter fun p => decide (pre <+: p.key)).filter alive).filter fun p =>
    decide (distance me (extractPoint p.val) < radius)

/-- What a pair within the radius is answered as. -/
def answer (me : Point) (pair : Pair) : Key × Key :=
  (extractName pair.key, to_string (distance me (extractPoint pair.val)).floor.toNat)

/-- A search that sees few enough pairs, and finds few enough. -/
structure WithinLimits (keyN : Key) (me : Point) (radius : ℚ) (db : Db) (cells : List Key) :
    Prop where
  loops : ∀ hash ∈ cells, (db.filter fun p => decide (makeKeyRange keyN hash <+: p.key)).length ≤
    Queue.ITERATIONS_LOOPS_MAX
  results : (cells.map fun hash => (found extractPoint distance alive me radius db
    (makeKeyRange keyN hash)).length).sum ≤ ITERATIONS_RESULTS_MAX

/-- The live pairs of a name have the geohash of their point in their key. -/
def Indexed (keyN : Key) (db : Db) : Prop :=
  ∀ pair ∈ db, alive pair = true → ∀ c ≠ separator, keyN ++ [separator, c] <+: pair.key →
    Rectangle.world.Contains (extractPoint pair.val) ∧ ∃ name, pair.key =
      keyN ++ separator :: (encode (extractPoint pair.val) MAX_SIZE ++ separator :: name)

variable {extractPoint distance alive}

/-- A walk over a cell within the limits pushes all pairs within the radius. -/
theorem walk_eq {stop : Key → Bool} {iterations : ℕ} (results : ℕ) (it : List Pair)
    (s : ℕ × List (Key × Key))
    (hloops : iterations + (it.takeWhile fun p => !stop p.key).length ≤ Queue.ITERATIONS_LOOPS_MAX)
    (hresults : s.1 + (((it.takeWhile fun p => !stop p.key).filter alive).filter fun p =>
      decide (distance me (extractPoint p.val) < radius)).length ≤ ITERATIONS_RESULTS_MAX) :
    (sharedAccumulatePairs none stop alive (pPair extractPoint distance me radius) iterations
      results it s).2 =
        (s.1 + (((it.takeWhile fun p => !stop p.key).filter alive).filter fun p =>
          decide (distance me (extractPoint p.val) < radius)).length,
          s.2 ++ (((it.takeWhile fun p => !stop p.key).filter alive).filter fun p =>
            decide (distance me (extractPoint p.val) < radius)).map
              (answer extractPoint distance me)) := by
  induction it generalizing iterations results s with
  | nil => simp [sharedAccumulatePairs]
  | cons p it ih =>
    by_cases hstop : stop p.key = true
    · have htake : (p :: it).takeWhile (fun p => !stop p.key) = [] := by
        rw [List.takeWhile_cons, hstop, Bool.not_true, if_neg Bool.false_ne_true]
      rw [htake, sharedAccumulatePairs, if_pos hstop]
      split <;> simp
    · have htake : (p :: it).takeWhile (fun p => !stop p.key) =
          p :: it.takeWhile fun p => !stop p.key := by
        rw [List.takeWhile_cons, Bool.eq_false_iff.mpr hstop, Bool.not_false, if_pos rfl]
      rw [htake] at hloops hresults ⊢
      rw [List.length_cons] at hloops
      have hroom : ¬Queue.ITERATIONS_LOOPS_MAX < iterations + 1 := by omega
      rw [sharedAccumulatePairs, if_neg hroom, if_neg hstop]
      by_cases halive : alive p = true
      · rw [if_neg (not_not.mpr halive), Option.any_none, if_neg Bool.false_ne_true]
        rw [List.filter_cons, if_pos halive, List.filter_cons] at hresults ⊢
        by_cases hnear : distance me (extractPoint p.val) < radius
        · rw [if_pos (decide_eq_true hnear), List.length_cons] at hresults ⊢
          have hmore : ¬ITERATIONS_RESULTS_MAX < s.1 + 1 := by omega
          have hpair : pPair extractPoint distance me radius s p =
              (true, s.1 + 1, s.2 ++ [answer extractPoint distance me p]) := by
            unfold pPair
            dsimp only
            rw [if_pos hnear, if_neg hmore]
            rfl
          simp only [hpair]
          rw [ih (results + 1) (s.1 + 1, s.2 ++ [answer extractPoint distance me p]) (by omega)
            (by dsimp only; omega), List.map_cons]
          refine Prod.ext ?_ ?_
          · dsimp only
            omega
          · exact List.append_assoc _ _ _
        · rw [if_neg (by rwa [decide_eq_true_iff])] at hresults ⊢
          have hpair : pPair extractPoint distance me radius s p = (true, s) := by
            unfold pPair
            dsimp only
            rw [if_neg hnear]
          simp only [hpair]
          exact ih (results + 1) s (by omega) hresults
      · rw [if_pos halive]
        rw [List.filter_cons, if_neg halive] at hresults ⊢
        exact ih results s (by omega) hresults

/-- A search within the limits answers the pairs within the radius of all its cells. -/
theorem mem_searchCells {keyN : Key} {db : Db} (hdb : Increasing Pair.key db) {cells : List Key}
    (hlimits : WithinLimits extractPoint distance alive keyN me radius db cells)
    (x : Key × Key) :
    x ∈ (searchCells extractPoint distance alive keyN me radius db cells).2 ↔
      ∃ hash ∈ cells, ∃ pair ∈ found extractPoint distance alive me radius db
        (makeKeyRange keyN hash), answer extractPoint distance me pair = x := by
  -- from a state of the counter and the container on
  have hfold : ∀ (l : List Key) (s : ℕ × List (Key × Key)), (∀ hash ∈ l, hash ∈ cells) →
      s.1 + (l.map fun hash => (found extractPoint distance alive me radius db
        (makeKeyRange keyN hash)).length).sum ≤ ITERATIONS_RESULTS_MAX →
      (x ∈ (l.foldl (fun s hash => (sharedAccumulatePairs none
        (StopPrefixPredicate (makeKeyRange keyN hash)) alive
          (pPair extractPoint distance me radius) 0 0
            (fromKey Pair.key (makeKeyRange keyN hash) db) s).2) s).2 ↔
        x ∈ s.2 ∨ ∃ hash ∈ l, ∃ pair ∈ found extractPoint distance alive me radius db
          (makeKeyRange keyN hash), answer extractPoint distance me pair = x) := by
    intro l
    induction l with
    | nil => intro s _ _; simp
    | cons hash l ih =>
      intro s hsub hsum
      rw [List.map_cons, List.sum_cons, ← Nat.add_assoc] at hsum
      have hloops := hlimits.loops hash (hsub hash List.mem_cons_self)
      have hseen := takeWhile_fromKey hdb (makeKeyRange keyN hash)
      have hwalk := @walk_eq me radius extractPoint distance alive
        (StopPrefixPredicate (makeKeyRange keyN hash)) 0 0
        (fromKey Pair.key (makeKeyRange keyN hash) db) s
        (by rw [hseen, Nat.zero_add]; exact hloops)
        (by rw [hseen]; exact (Nat.le_add_right _ _).trans hsum)
      rw [hseen] at hwalk
      rw [List.foldl_cons, hwalk,
        ih _ (fun h hh => hsub h (List.mem_cons_of_mem hash hh)) hsum, List.mem_append,
        List.mem_map, or_assoc]
      simp only [List.mem_cons, exists_eq_or_imp]
      rfl
  rw [searchCells, hfold cells (0, []) (fun _ h => h) (by rw [Nat.zero_add]; exact hlimits.results)]
  simp only [List.not_mem_nil, false_or]

theorem separator_not_mem_BASE32 : separator ∉ BASE32 := by decide +kernel

/-- A live pair below the prefix of a cell has its point in the cell. -/
theorem prefix_key_iff {keyN : Key} (hkeyN : valid keyN) {db : Db}
    (hindexed : Indexed extractPoint alive keyN db) {pair : Pair} (hpair : pair ∈ db)
    (halive : alive pair = true) {hash : Key} (hne : hash ≠ []) (hlen : hash.length ≤ MAX_SIZE)
    (hplace : (place hash).isSome = true) :
    makeKeyRange keyN hash <+: pair.key ↔
      (∃ c ≠ separator, keyN ++ [separator, c] <+: pair.key) ∧
        InHash hash (extractPoint pair.val) := by
  have hrange : makeKeyRange keyN hash = keyN ++ separator :: hash := by
    unfold makeKeyRange
    rw [concatenateBuffer_key]
    · simp
    · have hkey := hkeyN.2
      simp only [List.map_cons, List.map_nil, List.sum_cons, List.sum_nil, List.length_singleton]
      unfold INDEX_TOKEN_SIZE at hkey
      unfold MAX_SIZE at hlen
      unfold maxKeySize
      omega
  rw [hrange]
  have hfirst : keyN ++ separator :: hash <+: pair.key →
      ∃ c ≠ separator, keyN ++ [separator, c] <+: pair.key := by
    intro hpre
    cases hash with
    | nil => exact absurd rfl hne
    | cons c hash =>
      refine ⟨c, ?_, List.IsPrefix.trans ?_ hpre⟩
      · rintro rfl
        obtain ⟨p, hp⟩ := Option.isSome_iff_exists.mp hplace
        rw [place, placeLetters] at hp
        obtain ⟨idx, hidx, -⟩ := Option.bind_eq_some_iff.mp hp
        obtain ⟨hlt, hc⟩ := find_eq_some hidx
        rw [List.getD_eq_getElem _ _ hlt] at hc
        exact separator_not_mem_BASE32 (hc ▸ List.getElem_mem hlt)
      · exact (List.prefix_append_right_inj keyN).mpr
          ((List.prefix_cons_inj _).mpr ((List.prefix_cons_inj _).mpr List.nil_prefix))
  -- the geohash in the key of the pair
  have hkey (hdata : ∃ c ≠ separator, keyN ++ [separator, c] <+: pair.key) :
      keyN ++ separator :: hash <+: pair.key ↔ InHash hash (extractPoint pair.val) := by
    obtain ⟨c, hc, hpre⟩ := hdata
    obtain ⟨hworld, name, hname⟩ := hindexed pair hpair halive c hc hpre
    obtain ⟨-, -, -, hlen'⟩ := encode_spec hworld MAX_SIZE
    rw [hname, List.prefix_append_right_inj, List.prefix_cons_inj, ← prefix_encode_iff hworld hlen]
    constructor
    · intro h
      exact List.prefix_of_prefix_length_le h (List.prefix_append _ _) (by omega)
    · intro h
      exact h.trans (List.prefix_append _ _)
  constructor
  · intro hpre
    exact ⟨hfirst hpre, (hkey (hfirst hpre)).mp hpre⟩
  · rintro ⟨hdata, hin⟩
    exact (hkey hdata).mpr hin

/-- The names that a search answers are the ones of the live pairs within the radius whose points
are in one of the cells. -/
theorem mem_search_iff {keyN : Key} (hkeyN : valid keyN) {db : Db}
    (hdb : Increasing Pair.key db) (hindexed : Indexed extractPoint alive keyN db)
    {cells : List Key} {ps : List (ℕ × ℕ)} (hplaces : List.Forall₂ (IsPlace n) cells ps)
    (hn : n ≠ 0) (hle : n ≤ MAX_SIZE)
    (hlimits : WithinLimits extractPoint distance alive keyN me radius db cells)
    (x : Key × Key) :
    x ∈ (searchCells extractPoint distance alive keyN me radius db cells).2 ↔
      ∃ pair ∈ db, (alive pair = true ∧ distance me (extractPoint pair.val) < radius) ∧
        ((∃ c ≠ separator, keyN ++ [separator, c] <+: pair.key) ∧
          ∃ p ∈ ps, (cell (5 * n) p).Contains (extractPoint pair.val)) ∧
            answer extractPoint distance me pair = x := by
  rw [mem_searchCells hdb hlimits]
  have hcells := length_cells hplaces
  have hne {hash : Key} (h : hash ∈ cells) : hash ≠ [] ∧ hash.length ≤ MAX_SIZE := by
    obtain ⟨hlen, -⟩ := hcells hash h
    refine ⟨fun hnil => hn ?_, hlen.le.trans hle⟩
    rw [← hlen, hnil, List.length_nil]
  constructor
  · rintro ⟨hash, hhash, pair, hpair, rfl⟩
    obtain ⟨hpair, hnear⟩ := List.mem_filter.mp hpair
    obtain ⟨hpair, halive⟩ := List.mem_filter.mp hpair
    obtain ⟨hpair, hpre⟩ := List.mem_filter.mp hpair
    obtain ⟨hdata, hin⟩ := (prefix_key_iff hkeyN hindexed hpair halive (hne hhash).1 (hne hhash).2
      (hcells hash hhash).2).mp (of_decide_eq_true hpre)
    exact ⟨pair, hpair, ⟨halive, of_decide_eq_true hnear⟩,
      ⟨hdata, (inHash_cells hplaces).mp ⟨hash, hhash, hin⟩⟩, rfl⟩
  · rintro ⟨pair, hpair, ⟨halive, hnear⟩, ⟨hdata, hin⟩, rfl⟩
    obtain ⟨hash, hhash, hin⟩ := (inHash_cells hplaces).mpr hin
    have hpre := (prefix_key_iff hkeyN hindexed hpair halive (hne hhash).1 (hne hhash).2
      (hcells hash hhash).2).mpr ⟨hdata, hin⟩
    exact ⟨hash, hhash, pair, List.mem_filter.mpr ⟨List.mem_filter.mpr
      ⟨List.mem_filter.mpr ⟨hpair, decide_eq_true hpre⟩, halive⟩, decide_eq_true hnear⟩, rfl⟩

end Search

/-! ## Nothing is lost -/

/-- The cell of a point touches neither a pole nor the date line. -/
def Away (me : Point) (radius : ℚ) (sphere : GeoSphere) : Prop :=
  ∀ bbox, selectCellsSize radius sphere ≠ 0 →
    decode (encode me (selectCellsSize radius sphere)) = some bbox →
      (-90 < bbox.sw.lat ∧ bbox.ne.lat < 90) ∧ -180 < bbox.sw.lon ∧ bbox.ne.lon < 180

/-- A point that is near enough to be found: in latitude if a row is left out, and in longitude if
a column is. -/
def Near (me : Point) (radius : ℚ) (sphere : GeoSphere) (q : Point) : Prop :=
  ∀ bbox, decode (encode me (selectCellsSize radius sphere)) = some bbox →
    (2 * radius < sphere.height bbox → NearLat bbox me q) ∧
      (2 * radius < sphere.width bbox → NearLon bbox me q)

/-- The optimized cells have all near points of the cells around. -/
def Covers (me : Point) (radius : ℚ) (sphere : GeoSphere) : Prop :=
  ∃ cells all, nearbyCells true me radius sphere = some cells ∧
    nearbyCells false me radius sphere = some all ∧
      ∀ q, Near me radius sphere q → (∃ hash ∈ all, InHash hash q) → ∃ hash ∈ cells, InHash hash q

/-- The optimized search answers the same as the search of all cells around, where all points
within the radius are near and both searches are within their limits. -/
def SameAnswers (me : Point) (radius : ℚ) (sphere : GeoSphere) : Prop :=
  ∀ (extractPoint : Key → Point) (distance : Point → Point → ℚ) (alive : Pair → Bool)
    (keyN : Key) (db : Db), valid keyN → Increasing Pair.key db →
      Indexed extractPoint alive keyN db →
      (∀ q, distance me q < radius → Near me radius sphere q) →
      (∀ cells, (nearbyCells true me radius sphere = some cells ∨
          nearbyCells false me radius sphere = some cells) →
        WithinLimits extractPoint distance alive keyN me radius db cells) →
      ∃ answers answers',
        georadius extractPoint distance alive true sphere keyN me radius db = some answers ∧
        georadius extractPoint distance alive false sphere keyN me radius db = some answers' ∧
          ∀ x, x ∈ answers ↔ x ∈ answers'

/-- The cell of a point that is away from the borders. -/
theorem exists_cell (hme : Rectangle.world.Contains me) (haway : Away me radius sphere)
    (hsize : selectCellsSize radius sphere ≠ 0) :
    ∃ p, IsPlace (selectCellsSize radius sphere) (encode me (selectCellsSize radius sphere)) p ∧
      decode (encode me (selectCellsSize radius sphere)) =
        some (cell (5 * selectCellsSize radius sphere) p) ∧
      (cell (5 * selectCellsSize radius sphere) p).Contains me ∧
        ∀ d, Stays d (gridSize (5 * selectCellsSize radius sphere)) p := by
  obtain ⟨p, hp, hcontains, hlen⟩ := encode_spec hme (selectCellsSize radius sphere)
  have hdecode : decode (encode me (selectCellsSize radius sphere)) =
      some (cell (5 * selectCellsSize radius sphere) p) := by
    rw [decode_eq, hp, hlen, Option.map_some]
  obtain ⟨⟨hsouth, hnorth⟩, hwest, heast⟩ := haway _ hsize hdecode
  refine ⟨p, ⟨hlen, hp⟩, hdecode, hcontains, fun d => ?_⟩
  have hlast : (cell (5 * selectCellsSize radius sphere) p).ne.lat < -90 + 180 := by
    rwa [show (-90 + 180 : ℚ) = 90 by norm_num]
  have hlast' : (cell (5 * selectCellsSize radius sphere) p).ne.lon < -180 + 360 := by
    rwa [show (-180 + 360 : ℚ) = 180 by norm_num]
  cases d with
  | n => exact lt_of_left_lt (by norm_num) hlast
  | s => exact pos_of_lt_left hsouth
  | e => exact lt_of_left_lt (by norm_num) hlast'
  | w => exact pos_of_lt_left hwest

/-- A search without cells, or one that does not swap its rows. -/
def Keeps (me : Point) (radius : ℚ) (sphere : GeoSphere) : Prop :=
  selectCellsSize radius sphere ≠ 0 → ∀ bbox,
    decode (encode me (selectCellsSize radius sphere)) = some bbox →
      ¬Swapped me radius sphere bbox

/-- The cells of both searches, if there are any. -/
theorem nearbyCells_eq {p : ℕ × ℕ} (hsize : selectCellsSize radius sphere ≠ 0)
    (hplace : IsPlace (selectCellsSize radius sphere)
      (encode me (selectCellsSize radius sphere)) p)
    (hdecode : decode (encode me (selectCellsSize radius sphere)) = some bbox)
    (hinner : ∀ d, Stays d (gridSize (5 * selectCellsSize radius sphere)) p) :
    ∃ cells ps all qs, nearbyCells true me radius sphere = some cells ∧
      nearbyCells false me radius sphere = some all ∧
      List.Forall₂ (IsPlace (selectCellsSize radius sphere)) cells ps ∧
      List.Forall₂ (IsPlace (selectCellsSize radius sphere)) all qs ∧
      (∀ p', p' ∈ ps ↔
        Kept (keptRow me radius sphere bbox) (keptColumn me radius sphere bbox) p p') ∧
      ∀ p', p' ∈ qs ↔ Kept none none p p' := by
  obtain ⟨cells, ps, hcells, hplaces, hps⟩ := optimized_kept hplace hinner
  obtain ⟨all, qs, hall, hplaces', hqs⟩ := around_kept hplace hinner
  refine ⟨cells, ps, all, qs, ?_, ?_, hplaces, hplaces', hps, hqs⟩
  · unfold nearbyCells
    dsimp only
    rw [if_neg hsize, if_pos rfl, hdecode, Option.bind_some]
    exact hcells
  · unfold nearbyCells
    dsimp only
    rw [if_neg hsize, if_neg Bool.false_ne_true]
    exact hall

theorem kept_none (p p' : ℕ × ℕ) : Kept none none p p' ↔ Around p p' :=
  ⟨fun h => h.1, fun h =>
    ⟨h, fun d hd => absurd hd.symm (Option.some_ne_none d),
      fun d hd => absurd hd.symm (Option.some_ne_none d)⟩⟩

theorem covers_iff (hme : Rectangle.world.Contains me) (haway : Away me radius sphere) :
    Covers me radius sphere ↔ Keeps me radius sphere := by
  by_cases hsize : selectCellsSize radius sphere = 0
  · refine ⟨fun _ h => absurd hsize h, fun _ => ⟨[], [], ?_, ?_, fun _ _ h => h⟩⟩
    · unfold nearbyCells
      dsimp only
      rw [if_pos hsize]
    · unfold nearbyCells
      dsimp only
      rw [if_pos hsize]
  obtain ⟨p, hplace, hdecode, hcontains, hinner⟩ := exists_cell hme haway hsize
  obtain ⟨cells, ps, all, qs, hcells, hall, hplaces, hplaces', hps, hqs⟩ :=
    nearbyCells_eq hsize hplace hdecode hinner
  constructor
  · rintro ⟨cells', all', hcells', hall', hcovers⟩ - bbox hbbox hswap
    obtain rfl := Option.some.inj (hcells.symm.trans hcells')
    obtain rfl := Option.some.inj (hall.symm.trans hall')
    obtain rfl := Option.some.inj (hdecode.symm.trans hbbox)
    obtain ⟨q, p', hq, haround, hlat, hlon, hnot⟩ := exists_lost hcontains (hinner .s) hswap
    have hnear : Near me radius sphere q := by
      intro bbox hbbox
      obtain rfl := Option.some.inj (hdecode.symm.trans hbbox)
      exact ⟨fun _ => hlat, fun _ => hlon⟩
    have hin : ∃ hash ∈ all, InHash hash q :=
      (inHash_cells hplaces').mpr ⟨p', (hqs p').mpr ((kept_none p p').mpr haround), hq⟩
    obtain ⟨p'', hp'', hq'⟩ := (inHash_cells hplaces).mp (hcovers q hnear hin)
    exact hnot (cell_unique hq' hq ▸ (hps p'').mp hp'')
  · intro hkeeps
    refine ⟨cells, all, hcells, hall, fun q hnear hin => ?_⟩
    obtain ⟨p', hp', hq⟩ := (inHash_cells hplaces').mp hin
    obtain ⟨hlat, hlon⟩ := hnear _ hdecode
    have hkept := kept_of_near (hkeeps hsize _ hdecode) hlat hlon hq
      ((kept_none p p').mp ((hqs p').mp hp'))
    exact (inHash_cells hplaces).mpr ⟨p', (hps p').mpr hkept, hq⟩

/-- Cells that cover the near points give the same answers. -/
theorem sameAnswers_of_covers (hme : Rectangle.world.Contains me)
    (haway : Away me radius sphere) (hcovers : Covers me radius sphere) :
    SameAnswers me radius sphere := by
  intro extractPoint distance alive keyN db hkeyN hdb hindexed hdistance hlimits
  by_cases hsize : selectCellsSize radius sphere = 0
  · have hnone (b : Bool) : nearbyCells b me radius sphere = some [] := by
      unfold nearbyCells
      dsimp only
      rw [if_pos hsize]
    refine ⟨[], [], ?_, ?_, fun _ => Iff.rfl⟩
    · rw [georadius, hnone]
      rfl
    · rw [georadius, hnone]
      rfl
  obtain ⟨p, hplace, hdecode, hcontains, hinner⟩ := exists_cell hme haway hsize
  obtain ⟨cells, ps, all, qs, hcells, hall, hplaces, hplaces', hps, hqs⟩ :=
    nearbyCells_eq hsize hplace hdecode hinner
  obtain ⟨cells', all', hcells', hall', hcovers⟩ := hcovers
  obtain rfl := Option.some.inj (hcells.symm.trans hcells')
  obtain rfl := Option.some.inj (hall.symm.trans hall')
  have hle := selectCellsSize_le radius sphere
  refine ⟨_, _, by rw [georadius, hcells, Option.map_some],
    by rw [georadius, hall, Option.map_some], fun x => ?_⟩
  rw [mem_search_iff hkeyN hdb hindexed hplaces hsize hle (hlimits _ (.inl hcells)),
    mem_search_iff hkeyN hdb hindexed hplaces' hsize hle (hlimits _ (.inr hall))]
  constructor
  · rintro ⟨pair, hpair, hnear, ⟨hdata, p', hp', hq⟩, hx⟩
    have hp'' := (hqs p').mpr ((kept_none p p').mpr ((hps p').mp hp').1)
    exact ⟨pair, hpair, hnear, ⟨hdata, p', hp'', hq⟩, hx⟩
  · rintro ⟨pair, hpair, hnear, ⟨hdata, hin⟩, hx⟩
    have hin' := hcovers _ (hdistance _ hnear.2) ((inHash_cells hplaces').mpr hin)
    exact ⟨pair, hpair, hnear, ⟨hdata, (inHash_cells hplaces).mp hin'⟩, hx⟩

/-- The optimization loses nothing. -/
def LosesNothing (me : Point) (radius : ℚ) (sphere : GeoSphere) : Prop :=
  Covers me radius sphere ∧ SameAnswers me radius sphere

/-- The optimization loses nothing, for a point away from the borders, exactly if it does not leave
out both a row and a column around a point that is not half way up its cell. -/
theorem losesNothing_iff (hme : Rectangle.world.Contains me) (haway : Away me radius sphere) :
    LosesNothing me radius sphere ↔ Keeps me radius sphere := by
  rw [← covers_iff hme haway]
  exact ⟨fun h => h.1, fun h => ⟨h, sameAnswers_of_covers hme haway h⟩⟩

/-- The earth in metres, as it is seen from a cell of one letter. -/
def earthMeters : GeoSphere where
  cells := [3328067, 416025, 104056, 12998, 3266, 406, 101, 12, 3, 1 / 3, 1 / 10, 1 / 100]
  width := fun _ => 3491000
  height := fun _ => 5003000
  length_cells := rfl

theorem cell_of_ten : decode (encode ⟨10, 10⟩ 1) = some ⟨⟨0, 0⟩, ⟨45, 45⟩⟩ := by decide +kernel

theorem size_of_radius : selectCellsSize 1500000 earthMeters = 1 ∧
    selectCellsSize 3000000 earthMeters = 1 := by
  decide +kernel

theorem world_ten : Rectangle.world.Contains ⟨10, 10⟩ := by
  unfold Rectangle.Contains Rectangle.world
  norm_num

theorem away_ten {radius : ℚ} (hsize : selectCellsSize radius earthMeters = 1) :
    Away ⟨10, 10⟩ radius earthMeters := by
  intro bbox _ hbbox
  rw [hsize, cell_of_ten] at hbbox
  obtain rfl := Option.some.inj hbbox
  norm_num

/-- A search with so large a radius that it takes all cells around. -/
theorem losesNothing_large : LosesNothing ⟨10, 10⟩ 3000000 earthMeters := by
  refine (losesNothing_iff world_ten (away_ten size_of_radius.2)).mpr fun _ bbox _ hswap => ?_
  have hheight : (2 * 3000000 : ℚ) < 5003000 := hswap.1.1
  norm_num at hheight

/-- Half of that radius is searched in the cell of the point and those north and west of it. -/
theorem southern_row_lost : ¬LosesNothing ⟨10, 10⟩ 1500000 earthMeters := by
  rintro ⟨hcovers, -⟩
  have hkeeps := (covers_iff world_ten (away_ten size_of_radius.1)).mp hcovers
  rw [Keeps, size_of_radius.1] at hkeeps
  refine hkeeps Nat.one_ne_zero _ cell_of_ten ⟨⟨?_, ?_⟩, ?_⟩
  · change (2 * 1500000 : ℚ) < 5003000
    norm_num
  · change (2 * 1500000 : ℚ) < 3491000
    norm_num
  · change (10 : ℚ) ≠ (0 + 45) / 2
    norm_num

end HM4.GeoRadius
