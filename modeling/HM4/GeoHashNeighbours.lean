import HM4.GeoHash

/-!
# Neighbours of a geohash

A cell that is not at the end of the map in some direction has a neighbour there. The neighbour
begins where the cell ends, and the way back leads to the cell again.
-/

namespace HM4.GeoHash

open Bytes Bisection

/-- The opposite direction. -/
def Direction.opposite : Direction → Direction
  | .n => .s
  | .s => .n
  | .e => .w
  | .w => .e

/-- A step from a rectangle in this direction leaves the map. -/
def AtEdge : Direction → Rectangle → Prop
  | .n, r => r.ne.lat = 90
  | .s, r => r.sw.lat = -90
  | .e, r => r.ne.lon = 180
  | .w, r => r.sw.lon = -180

/-- The second rectangle is as large as the first, and one whole edge of the first in this direction
is the opposite edge of the second. -/
def SharesEdge : Direction → Rectangle → Rectangle → Prop
  | .n, r, r' => (r'.sw.lon = r.sw.lon ∧ r'.ne.lon = r.ne.lon) ∧ r'.sw.lat = r.ne.lat ∧
      r'.ne.lat - r'.sw.lat = r.ne.lat - r.sw.lat
  | .s, r, r' => (r'.sw.lon = r.sw.lon ∧ r'.ne.lon = r.ne.lon) ∧ r'.ne.lat = r.sw.lat ∧
      r'.ne.lat - r'.sw.lat = r.ne.lat - r.sw.lat
  | .e, r, r' => (r'.sw.lat = r.sw.lat ∧ r'.ne.lat = r.ne.lat) ∧ r'.sw.lon = r.ne.lon ∧
      r'.ne.lon - r'.sw.lon = r.ne.lon - r.sw.lon
  | .w, r, r' => (r'.sw.lat = r.sw.lat ∧ r'.ne.lat = r.ne.lat) ∧ r'.ne.lon = r.sw.lon ∧
      r'.ne.lon - r'.sw.lon = r.ne.lon - r.sw.lon

/-- A digit below its bound behind a number below its bound. -/
theorem digits_lt {size grid p d : ℕ} (hp : p < grid) (hd : d < size) :
    size * p + d < size * grid := by
  have hle : size * (p + 1) ≤ size * grid := Nat.mul_le_mul_left size hp
  rw [Nat.mul_succ] at hle
  omega

/-- The numbers of a place are those of a cell. -/
theorem place_lt {hash : Key} {p : ℕ × ℕ} (h : place hash = some p) :
    p.1 < (gridSize (5 * hash.length)).1 ∧ p.2 < (gridSize (5 * hash.length)).2 := by
  induction hash using List.reverseRecOn generalizing p with
  | nil =>
    obtain rfl := Option.some.inj h
    simp [gridSize]
  | append_singleton hash chr ih =>
    rw [place_append] at h
    obtain ⟨q, hq, h⟩ := Option.bind_eq_some_iff.mp h
    obtain ⟨idx, hidx, rfl⟩ := Option.map_eq_some_iff.mp h
    obtain ⟨hlt, -⟩ := find_eq_some hidx
    obtain ⟨⟨hlon, hlat⟩, -⟩ := placeBits_letter (lastTurn hash.length) idx hlt idx hlt
    obtain ⟨h1, h2⟩ := ih hq
    rw [List.length_append, List.length_singleton, gridSize_succ, placeBits_eq]
    exact ⟨digits_lt h1 hlon, digits_lt h2 hlat⟩

section Cells

variable {direction : Direction} {bits : ℕ} {p : ℕ × ℕ}

/-- A cell that is not at the edge of the map has a place beside it. -/
theorem stays_of_not_atEdge (h1 : p.1 < (gridSize bits).1) (h2 : p.2 < (gridSize bits).2)
    (hedge : ¬AtEdge direction (cell bits p)) : Stays direction (gridSize bits) p := by
  unfold gridSize at *
  cases direction with
  | n =>
    refine lt_of_le_of_ne h2 fun hlast => hedge ?_
    simp only [AtEdge, cell]
    rw [show p.2 + 1 = 2 ^ (bits / 2) from hlast, left_last]
    norm_num
  | s =>
    refine Nat.pos_of_ne_zero fun hfirst => hedge ?_
    simp only [AtEdge, cell]
    rw [hfirst, left_first]
  | e =>
    refine lt_of_le_of_ne h1 fun hlast => hedge ?_
    simp only [AtEdge, cell]
    rw [show p.1 + 1 = 2 ^ ((bits + 1) / 2) from hlast, left_last]
    norm_num
  | w =>
    refine Nat.pos_of_ne_zero fun hfirst => hedge ?_
    simp only [AtEdge, cell]
    rw [hfirst, left_first]

/-- The place beside a place is a cell beside its cell. -/
theorem sharesEdge_shift (h : Stays direction (gridSize bits) p) :
    SharesEdge direction (cell bits p) (cell bits (shift direction p)) := by
  cases direction with
  | n => exact ⟨⟨rfl, rfl⟩, rfl, (left_succ_sub _ _).trans (left_succ_sub _ _).symm⟩
  | s =>
    obtain ⟨k, hk⟩ := Nat.exists_eq_succ_of_ne_zero (show 0 < p.2 from h).ne'
    simp [SharesEdge, cell, shift, hk, left_succ_sub]
  | e => exact ⟨⟨rfl, rfl⟩, rfl, (left_succ_sub _ _).trans (left_succ_sub _ _).symm⟩
  | w =>
    obtain ⟨k, hk⟩ := Nat.exists_eq_succ_of_ne_zero (show 0 < p.1 from h).ne'
    simp [SharesEdge, cell, shift, hk, left_succ_sub]

/-- From the place beside a place the opposite direction stays, and leads back. -/
theorem shift_opposite (h1 : p.1 < (gridSize bits).1) (h2 : p.2 < (gridSize bits).2)
    (h : Stays direction (gridSize bits) p) :
    Stays direction.opposite (gridSize bits) (shift direction p) ∧
      shift direction.opposite (shift direction p) = p := by
  cases direction with
  | n => exact ⟨Nat.succ_pos _, rfl⟩
  | s =>
    have hback : p.2 - 1 + 1 = p.2 := Nat.sub_add_cancel h
    simp [Stays, Direction.opposite, shift, hback, h2]
  | e => exact ⟨Nat.succ_pos _, rfl⟩
  | w =>
    have hback : p.1 - 1 + 1 = p.1 := Nat.sub_add_cancel h
    simp [Stays, Direction.opposite, shift, hback, h1]

end Cells

/-- A geohash whose cell does not touch the end of the map in a direction has an adjacent one of the
same length, whose cell is the one beyond that edge, and whose adjacent one in the opposite
direction is the first geohash. -/
theorem adjacent_inverse {hash : Key} {r : Rectangle} (h : decode hash = some r)
    {direction : Direction} (hedge : ¬AtEdge direction r) :
    ∃ hash' r', adjacent hash direction = some hash' ∧ hash'.length = hash.length ∧
      decode hash' = some r' ∧ SharesEdge direction r r' ∧
      adjacent hash' direction.opposite = some hash := by
  rw [decode_eq] at h
  obtain ⟨p, hp, rfl⟩ := Option.map_eq_some_iff.mp h
  obtain ⟨h1, h2⟩ := place_lt hp
  have hstay := stays_of_not_atEdge h1 h2 hedge
  obtain ⟨hash', hadjacent, hlen, hp'⟩ := adjacent_place hp hstay
  obtain ⟨hstay', hback⟩ := shift_opposite h1 h2 hstay
  rw [← hlen] at hstay'
  obtain ⟨hash'', hadjacent', hlen', hp''⟩ := adjacent_place hp' hstay'
  rw [hback] at hp''
  obtain rfl := place_inj hp'' hp (hlen'.trans hlen)
  refine ⟨hash', cell (5 * hash''.length) (shift direction p), hadjacent, hlen, ?_,
    sharesEdge_shift hstay, hadjacent'⟩
  rw [decode_eq, hp', hlen, Option.map_some]

/-- North of `u4` is `u5`, and south of it `u4`. -/
theorem adjacent_inverse_u4 : ∃ hash' r', adjacent [117, 52] .n = some hash' ∧
    hash'.length = [117, 52].length ∧ decode hash' = some r' ∧
    SharesEdge .n (cell 10 (16, 26)) r' ∧
    adjacent hash' Direction.n.opposite = some [117, 52] := by
  have hplace : place [117, 52] = some (16, 26) := by decide +kernel
  have hdecode : decode [117, 52] = some (cell 10 (16, 26)) := by
    rw [decode_eq, hplace]
    rfl
  refine adjacent_inverse hdecode ?_
  simp only [AtEdge, cell, left]
  norm_num

end HM4.GeoHash
