import HM4.IndexKeys
import HM4.General.Bisection
import Mathlib.Data.Rat.Defs
import Mathlib.Algebra.Order.Ring.Rat
import Mathlib.Algebra.Field.Rat

/-!
# Geohashes

A geohash halves the longitudes and the latitudes in turn, and has a letter for every five bits.
The cell of a geohash beside another one is found letter by letter in tables. It is the cell beside
it on the map as long as the cell touches neither a pole nor the date line.
-/

namespace HM4.GeoHash

open Bytes Bisection
open IndexKeys (toKey)

/-! ## Encoding and decoding -/

/-- `MAX_SIZE`. -/
def MAX_SIZE : ℕ := 12

/-- `BASE32`. -/
def BASE32 : Key := toKey "0123456789bcdefghjkmnpqrstuvwxyz"

/-- `find`. -/
def find (s : Key) (c : Byte) : Option ℕ := s.findIdx? (· == c)

/-- `Point`. -/
structure Point where
  lat : ℚ
  lon : ℚ
  deriving DecidableEq

/-- `Rectangle`. -/
structure Rectangle where
  sw : Point
  ne : Point
  deriving DecidableEq

namespace Rectangle

/-- `center`. -/
def center (r : Rectangle) : Point := ⟨(r.sw.lat + r.ne.lat) / 2, (r.sw.lon + r.ne.lon) / 2⟩

/-- The whole map. -/
def world : Rectangle := ⟨⟨-90, -180⟩, ⟨90, 180⟩⟩

/-- One half of a rectangle: of its longitudes if `evenBit`, and the upper one for a set bit. -/
def bisect (r : Rectangle) (evenBit bit : Bool) : Rectangle :=
  match evenBit, bit with
  | true, true => { r with sw := { r.sw with lon := r.center.lon } }
  | true, false => { r with ne := { r.ne with lon := r.center.lon } }
  | false, true => { r with sw := { r.sw with lat := r.center.lat } }
  | false, false => { r with ne := { r.ne with lat := r.center.lat } }

/-- A point in a rectangle, without its upper ends. -/
def Contains (r : Rectangle) (q : Point) : Prop :=
  (r.sw.lat ≤ q.lat ∧ q.lat < r.ne.lat) ∧ r.sw.lon ≤ q.lon ∧ q.lon < r.ne.lon

end Rectangle

/-- The half of a point. -/
def bitOf (r : Rectangle) (evenBit : Bool) (q : Point) : Bool :=
  if evenBit = true then decide (r.center.lon ≤ q.lon) else decide (r.center.lat ≤ q.lat)

/-- The bits of a letter, from `idx` on. -/
def encodeBits (q : Point) : ℕ → Bool → ℕ → Rectangle → ℕ × Rectangle
  | 0, _, idx, r => (idx, r)
  | n + 1, evenBit, idx, r =>
    encodeBits q n (!evenBit) (idx * 2 + (bitOf r evenBit q).toNat)
      (r.bisect evenBit (bitOf r evenBit q))

/-- The loop of `encode`, for so many letters. -/
def encodeLetters (q : Point) : ℕ → Bool → Rectangle → Key
  | 0, _, _ => []
  | precision + 1, evenBit, r =>
    let (idx, r) := encodeBits q 5 evenBit 0 r
    -- five bits change the turn
    BASE32.getD idx 0 :: encodeLetters q precision (!evenBit) r

/-- `encode`. -/
def encode (q : Point) (precision : ℕ) : Key := encodeLetters q precision true .world

/-- The inner loop of `decode`, for the low bits of `idx`. -/
def decodeBits (idx : ℕ) : ℕ → Bool → Rectangle → Rectangle
  | 0, _, r => r
  | n + 1, evenBit, r => decodeBits idx n (!evenBit) (r.bisect evenBit (idx.testBit n))

/-- The loop of `decode`; nothing if it throws. -/
def decodeLetters : Key → Bool → Rectangle → Option Rectangle
  | [], _, r => some r
  | chr :: hash, evenBit, r => do
    let idx ← find BASE32 chr
    decodeLetters hash (!evenBit) (decodeBits idx 5 evenBit r)

/-- `decode`. -/
def decode (hash : Key) : Option Rectangle := decodeLetters hash true .world

/-! ## Neighbours -/

/-- `Direction`. -/
inductive Direction
  | n
  | s
  | e
  | w
  deriving DecidableEq

/-- `neighbour`. -/
def neighbour : Direction → ℕ → Key
  | .n, 0 => toKey "p0r21436x8zb9dcf5h7kjnmqesgutwvy"
  | .n, _ => toKey "bc01fg45238967deuvhjyznpkmstqrwx"
  | .s, 0 => toKey "14365h7k9dcfesgujnmqp0r2twvyx8zb"
  | .s, _ => toKey "238967debc01fg45kmstqrwxuvhjyznp"
  | .e, 0 => toKey "bc01fg45238967deuvhjyznpkmstqrwx"
  | .e, _ => toKey "p0r21436x8zb9dcf5h7kjnmqesgutwvy"
  | .w, 0 => toKey "238967debc01fg45kmstqrwxuvhjyznp"
  | .w, _ => toKey "14365h7k9dcfesgujnmqp0r2twvyx8zb"

/-- `border`. -/
def border : Direction → ℕ → Key
  | .n, 0 => toKey "prxz"
  | .n, _ => toKey "bcfguvyz"
  | .s, 0 => toKey "028b"
  | .s, _ => toKey "0145hjnp"
  | .e, 0 => toKey "bcfguvyz"
  | .e, _ => toKey "prxz"
  | .w, 0 => toKey "0145hjnp"
  | .w, _ => toKey "028b"

/-- `adjacent_calc_`. -/
def adjacentCalc (direction : Direction) : ℕ → Key → Option Key
  | 0, _ => none
  | size + 1, buffer => do
    let lastCh ← buffer[size]?
    let type := (size + 1) % 2
    let parent :=
      if lastCh ∈ border direction type ∧ 0 < size then adjacentCalc direction size buffer
      else some buffer
    let buffer ← parent
    let i ← find (neighbour direction type) lastCh
    return buffer.set size (BASE32.getD i 0)

/-- `adjacent`. -/
def adjacent (geohash : Key) (direction : Direction) : Option Key :=
  adjacentCalc direction geohash.length geohash

/-! ## Cells -/

/-- The numbers of a longitude and a latitude, after a bit of one of them. -/
def turn (evenBit bit : Bool) (p : ℕ × ℕ) : ℕ × ℕ :=
  if evenBit = true then (2 * p.1 + bit.toNat, p.2) else (p.1, 2 * p.2 + bit.toNat)

/-- The numbers after the low bits of a letter. -/
def placeBits (idx : ℕ) : ℕ → Bool → ℕ × ℕ → ℕ × ℕ
  | 0, _, p => p
  | n + 1, evenBit, p => placeBits idx n (!evenBit) (turn evenBit (idx.testBit n) p)

/-- The numbers after some letters. -/
def placeLetters : Key → Bool → ℕ × ℕ → Option (ℕ × ℕ)
  | [], _, p => some p
  | chr :: hash, evenBit, p => do
    let idx ← find BASE32 chr
    placeLetters hash (!evenBit) (placeBits idx 5 evenBit p)

/-- The longitude and the latitude of a cell, in numbers of cells. -/
def place (hash : Key) : Option (ℕ × ℕ) := placeLetters hash true (0, 0)

/-- The cell after so many bits. -/
def cell (bits : ℕ) (p : ℕ × ℕ) : Rectangle where
  sw := ⟨left (-90) 180 (bits / 2) p.2, left (-180) 360 ((bits + 1) / 2) p.1⟩
  ne := ⟨left (-90) 180 (bits / 2) (p.2 + 1), left (-180) 360 ((bits + 1) / 2) (p.1 + 1)⟩

theorem cell_zero : cell 0 (0, 0) = .world := by
  unfold cell Rectangle.world
  simp only [Nat.zero_add, left_zero, left_one, show (0 + 1) / 2 = 0 from rfl]
  norm_num

theorem contains_cell {bits : ℕ} {p : ℕ × ℕ} {q : Point} : (cell bits p).Contains q ↔
    InCell (-90) 180 (bits / 2) p.2 q.lat ∧ InCell (-180) 360 ((bits + 1) / 2) p.1 q.lon :=
  Iff.rfl

/-- Half of a cell is a cell. -/
theorem bisect_cell {bits : ℕ} {evenBit : Bool} (heven : evenBit = decide (bits % 2 = 0))
    (bit : Bool) (p : ℕ × ℕ) :
    (cell bits p).bisect evenBit bit = cell (bits + 1) (turn evenBit bit p) := by
  cases evenBit with
  | true =>
    have hmod := of_decide_eq_true heven.symm
    have hlat : (bits + 1) / 2 = bits / 2 := by omega
    have hlon : (bits + 1 + 1) / 2 = (bits + 1) / 2 + 1 := by omega
    cases bit with
    | true =>
      simp only [Rectangle.bisect, turn, cell, hlat, hlon, if_true, Bool.toNat_true,
        left_double_succ, show 2 * p.1 + 1 + 1 = 2 * (p.1 + 1) by omega, left_double]
      rfl
    | false =>
      simp only [Rectangle.bisect, turn, cell, hlat, hlon, if_true, Bool.toNat_false,
        Nat.add_zero, left_double_succ, left_double]
      rfl
  | false =>
    have hmod := of_decide_eq_false heven.symm
    have hlat : (bits + 1) / 2 = bits / 2 + 1 := by omega
    have hlon : (bits + 1 + 1) / 2 = (bits + 1) / 2 := by omega
    cases bit with
    | true =>
      simp only [Rectangle.bisect, turn, cell, hlat, hlon, Bool.false_eq_true,
        if_false, Bool.toNat_true, left_double_succ,
        show 2 * p.2 + 1 + 1 = 2 * (p.2 + 1) by omega, left_double]
      rfl
    | false =>
      simp only [Rectangle.bisect, turn, cell, hlat, hlon, Bool.false_eq_true,
        if_false, Bool.toNat_false, Nat.add_zero, left_double_succ, left_double]
      rfl

theorem parity_succ {bits : ℕ} {evenBit : Bool} (heven : evenBit = decide (bits % 2 = 0)) :
    (!evenBit) = decide ((bits + 1) % 2 = 0) := by
  subst heven
  rw [← decide_not]
  exact decide_eq_decide.mpr (by omega)

theorem decodeBits_cell (idx n : ℕ) {bits : ℕ} {evenBit : Bool}
    (heven : evenBit = decide (bits % 2 = 0)) (p : ℕ × ℕ) :
    decodeBits idx n evenBit (cell bits p) = cell (bits + n) (placeBits idx n evenBit p) := by
  induction n generalizing bits evenBit p with
  | zero => rfl
  | succ n ih =>
    rw [decodeBits, placeBits, bisect_cell heven, ih (parity_succ heven), Nat.add_right_comm]
    rfl

theorem parity_letter {bits : ℕ} {evenBit : Bool} (heven : evenBit = decide (bits % 2 = 0)) :
    (!evenBit) = decide ((bits + 5) % 2 = 0) := by
  rw [parity_succ heven]
  exact decide_eq_decide.mpr (by omega)

theorem decodeLetters_cell (hash : Key) {bits : ℕ} {evenBit : Bool}
    (heven : evenBit = decide (bits % 2 = 0)) (p : ℕ × ℕ) :
    decodeLetters hash evenBit (cell bits p) =
      (placeLetters hash evenBit p).map (cell (bits + 5 * hash.length)) := by
  induction hash generalizing bits evenBit p with
  | nil => rfl
  | cons chr hash ih =>
    rw [decodeLetters, placeLetters]
    cases find BASE32 chr with
    | none => rfl
    | some idx =>
      simp only [Option.bind_eq_bind, Option.bind_some]
      rw [decodeBits_cell idx 5 heven, ih (parity_letter heven), List.length_cons,
        Nat.mul_succ, Nat.add_assoc, Nat.add_comm 5]

/-- A geohash decodes to the cell of its place. -/
theorem decode_eq (hash : Key) : decode hash = (place hash).map (cell (5 * hash.length)) := by
  have h := decodeLetters_cell hash (show true = decide (0 % 2 = 0) from rfl) (0, 0)
  rw [cell_zero, Nat.zero_add] at h
  exact h

/-! ## A point and its geohash -/

/-- The letters are found again. -/
theorem find_BASE32 : ∀ idx < 32, find BASE32 (BASE32.getD idx 0) = some idx := by
  decide +kernel

/-- Only the low bits of a letter are looked at. -/
theorem placeBits_low (bit : Bool) {low m : ℕ} (hlow : low < 2 ^ m) {n : ℕ} (hn : n ≤ m)
    (evenBit : Bool) (p : ℕ × ℕ) :
    placeBits (2 ^ m * bit.toNat + low) n evenBit p = placeBits low n evenBit p := by
  induction n generalizing evenBit p with
  | zero => rfl
  | succ n ih =>
    rw [placeBits, placeBits, Nat.testBit_two_pow_mul_add _ hlow, if_pos (Nat.lt_of_succ_le hn),
      ih (Nat.le_of_succ_le hn)]

/-- The half that a point is in. -/
theorem contains_bitOf {bits : ℕ} {evenBit : Bool} (heven : evenBit = decide (bits % 2 = 0))
    {p : ℕ × ℕ} {q : Point} (h : (cell bits p).Contains q) :
    (cell (bits + 1) (turn evenBit (bitOf (cell bits p) evenBit q) p)).Contains q := by
  rw [← bisect_cell heven]
  obtain ⟨⟨h1, h2⟩, h3, h4⟩ := h
  unfold bitOf
  cases evenBit with
  | true =>
    rw [if_pos rfl]
    by_cases hmid : (cell bits p).center.lon ≤ q.lon
    · rw [decide_eq_true hmid]
      exact ⟨⟨h1, h2⟩, hmid, h4⟩
    · rw [decide_eq_false hmid]
      exact ⟨⟨h1, h2⟩, h3, not_le.mp hmid⟩
  | false =>
    rw [if_neg Bool.false_ne_true]
    by_cases hmid : (cell bits p).center.lat ≤ q.lat
    · rw [decide_eq_true hmid]
      exact ⟨⟨hmid, h2⟩, h3, h4⟩
    · rw [decide_eq_false hmid]
      exact ⟨⟨h1, not_le.mp hmid⟩, h3, h4⟩

/-- The bits of a letter lead to a smaller cell that the point is in. -/
theorem encodeBits_spec {q : Point} (n : ℕ) {bits : ℕ} {evenBit : Bool}
    (heven : evenBit = decide (bits % 2 = 0)) (idx : ℕ) {p : ℕ × ℕ}
    (h : (cell bits p).Contains q) :
    ∃ low < 2 ^ n, encodeBits q n evenBit idx (cell bits p) =
        (idx * 2 ^ n + low, cell (bits + n) (placeBits low n evenBit p)) ∧
      (cell (bits + n) (placeBits low n evenBit p)).Contains q := by
  induction n generalizing bits evenBit idx p with
  | zero => exact ⟨0, Nat.one_pos, by rw [pow_zero, Nat.mul_one]; rfl, h⟩
  | succ n ih =>
    obtain ⟨low, hlow, hbits, hcontains⟩ :=
      ih (parity_succ heven) (idx * 2 + (bitOf (cell bits p) evenBit q).toNat)
        (contains_bitOf heven h)
    have hfull : 2 ^ n * (bitOf (cell bits p) evenBit q).toNat + low < 2 ^ (n + 1) := by
      have hle := Bool.toNat_le (bitOf (cell bits p) evenBit q)
      have hmul := Nat.mul_le_mul_left (2 ^ n) hle
      rw [pow_succ]
      omega
    have htop : (2 ^ n * (bitOf (cell bits p) evenBit q).toNat + low).testBit n =
        bitOf (cell bits p) evenBit q := by
      rw [Nat.testBit_two_pow_mul_add _ hlow, if_neg (lt_irrefl n), Nat.sub_self]
      cases bitOf (cell bits p) evenBit q <;> rfl
    have hplace :
        placeBits (2 ^ n * (bitOf (cell bits p) evenBit q).toNat + low) (n + 1) evenBit p =
          placeBits low n (!evenBit) (turn evenBit (bitOf (cell bits p) evenBit q) p) := by
      rw [placeBits, htop, placeBits_low _ hlow le_rfl]
    refine ⟨_, hfull, ?_, ?_⟩
    · rw [encodeBits, bisect_cell heven, hbits, hplace, pow_succ, Nat.add_right_comm bits]
      refine Prod.ext ?_ rfl
      dsimp only
      ring
    · rw [hplace, ← Nat.add_assoc, Nat.add_right_comm]
      exact hcontains

/-- The letters of a point lead to the cell that it is in. -/
theorem encodeLetters_spec {q : Point} (n : ℕ) {bits : ℕ} {evenBit : Bool}
    (heven : evenBit = decide (bits % 2 = 0)) {p : ℕ × ℕ} (h : (cell bits p).Contains q) :
    ∃ p', placeLetters (encodeLetters q n evenBit (cell bits p)) evenBit p = some p' ∧
      (cell (bits + 5 * n) p').Contains q ∧
        (encodeLetters q n evenBit (cell bits p)).length = n := by
  induction n generalizing bits evenBit p with
  | zero => exact ⟨p, rfl, h, rfl⟩
  | succ n ih =>
    obtain ⟨low, hlow, hbits, hcontains⟩ := encodeBits_spec 5 heven 0 h
    obtain ⟨p', hplace, hcontains', hlen⟩ := ih (parity_letter heven) hcontains
    rw [Nat.zero_mul, Nat.zero_add] at hbits
    rw [encodeLetters, hbits]
    refine ⟨p', ?_, ?_, ?_⟩
    · rw [placeLetters, find_BASE32 low hlow, Option.bind_eq_bind, Option.bind_some]
      exact hplace
    · rw [Nat.mul_succ, Nat.add_comm (5 * n), ← Nat.add_assoc]
      exact hcontains'
    · rw [List.length_cons]
      exact congrArg (· + 1) hlen

/-- A point on the map is in the cell of its geohash. -/
theorem encode_spec {q : Point} (hq : Rectangle.world.Contains q) (precision : ℕ) :
    ∃ p, place (encode q precision) = some p ∧ (cell (5 * precision) p).Contains q ∧
      (encode q precision).length = precision := by
  have h := @encodeLetters_spec q precision 0 true rfl (0, 0) (cell_zero.symm ▸ hq)
  rw [cell_zero, Nat.zero_add] at h
  exact h

/-! ## The cell beside a cell -/

/-- A number of a place, and the one beside it. -/
def shift : Direction → ℕ × ℕ → ℕ × ℕ
  | .n, p => (p.1, p.2 + 1)
  | .s, p => (p.1, p.2 - 1)
  | .e, p => (p.1 + 1, p.2)
  | .w, p => (p.1 - 1, p.2)

/-- Among so many longitudes and latitudes there is a place beside this one. -/
def Stays : Direction → ℕ × ℕ → ℕ × ℕ → Prop
  | .n, size, p => p.2 + 1 < size.2
  | .s, _, p => 0 < p.2
  | .e, size, p => p.1 + 1 < size.1
  | .w, _, p => 0 < p.1

/-- The next place among so many, which is the first one again behind the last if it `wraps`. -/
def Turns (direction : Direction) (wraps : Prop) [Decidable wraps] (size p p' : ℕ × ℕ) : Prop :=
  match direction with
  | .n => p'.1 = p.1 ∧ if wraps then p.2 + 1 = size.2 ∧ p'.2 = 0 else p'.2 = p.2 + 1
  | .s => p'.1 = p.1 ∧ if wraps then p.2 = 0 ∧ p'.2 + 1 = size.2 else 0 < p.2 ∧ p'.2 = p.2 - 1
  | .e => p'.2 = p.2 ∧ if wraps then p.1 + 1 = size.1 ∧ p'.1 = 0 else p'.1 = p.1 + 1
  | .w => p'.2 = p.2 ∧ if wraps then p.1 = 0 ∧ p'.1 + 1 = size.1 else 0 < p.1 ∧ p'.1 = p.1 - 1

instance (direction : Direction) (wraps : Prop) [Decidable wraps] (size p p' : ℕ × ℕ) :
    Decidable (Turns direction wraps size p p') := by
  cases direction <;> unfold Turns <;> infer_instance

/-- The longitudes and the latitudes that a letter tells apart. -/
def letterSize (evenBit : Bool) : ℕ × ℕ := if evenBit = true then (8, 4) else (4, 8)

/-- The numbers of all cells after so many bits. -/
def gridSize (bits : ℕ) : ℕ × ℕ := (2 ^ ((bits + 1) / 2), 2 ^ (bits / 2))

/-- The tables lead to the place beside a letter, and name the letters where it wraps. -/
theorem neighbour_letter (evenBit : Bool) (direction : Direction) : ∀ idx < 32, ∃ idx' < 32,
    find (neighbour direction evenBit.toNat) (BASE32.getD idx 0) = some idx' ∧
      Turns direction (BASE32.getD idx 0 ∈ border direction evenBit.toNat) (letterSize evenBit)
        (placeBits idx 5 evenBit (0, 0)) (placeBits idx' 5 evenBit (0, 0)) := by
  cases evenBit <;> cases direction <;> decide +kernel

/-- A letter adds its own place to the places of the letters before. -/
theorem placeBits_eq (idx : ℕ) (evenBit : Bool) (p : ℕ × ℕ) : placeBits idx 5 evenBit p =
    ((letterSize evenBit).1 * p.1 + (placeBits idx 5 evenBit (0, 0)).1,
      (letterSize evenBit).2 * p.2 + (placeBits idx 5 evenBit (0, 0)).2) := by
  cases evenBit <;>
    simp only [placeBits, turn, letterSize, Bool.not_true, Bool.not_false, if_true,
      Bool.false_eq_true, if_false] <;>
    exact Prod.ext (by ring) (by ring)

theorem find_eq_some {s : Key} {c : Byte} {idx : ℕ} (h : find s c = some idx) :
    idx < s.length ∧ s.getD idx 0 = c := by
  obtain ⟨hlt, hc, -⟩ := List.findIdx?_eq_some_iff_getElem.mp h
  exact ⟨hlt, by rw [List.getD_eq_getElem _ _ hlt]; exact eq_of_beq hc⟩

theorem placeLetters_append (hash : Key) (chr : Byte) (evenBit : Bool) (p : ℕ × ℕ) :
    placeLetters (hash ++ [chr]) evenBit p = (placeLetters hash evenBit p).bind fun p =>
      (find BASE32 chr).map fun idx =>
        placeBits idx 5 (evenBit ^^ decide (hash.length % 2 = 1)) p := by
  induction hash generalizing evenBit p with
  | nil =>
    rw [List.nil_append, placeLetters, placeLetters]
    cases find BASE32 chr with
    | none => rfl
    | some idx => simp [placeLetters]
  | cons c hash ih =>
    rw [List.cons_append, placeLetters, placeLetters]
    cases find BASE32 c with
    | none => rfl
    | some idx =>
      simp only [Option.bind_eq_bind, Option.bind_some]
      rw [ih, List.length_cons]
      have hturn : (!evenBit ^^ decide (hash.length % 2 = 1)) =
          (evenBit ^^ decide ((hash.length + 1) % 2 = 1)) := by
        rcases Nat.mod_two_eq_zero_or_one hash.length with h | h
        · have h' : (hash.length + 1) % 2 = 1 := by omega
          simp [h, h']
        · have h' : (hash.length + 1) % 2 = 0 := by omega
          simp [h, h']
      rw [hturn]

/-- The turn of the last letter. -/
def lastTurn (length : ℕ) : Bool := decide (length % 2 = 0)

/-- The last letter of a geohash has the low part of its place. -/
theorem place_append (hash : Key) (chr : Byte) : place (hash ++ [chr]) = (place hash).bind fun p =>
    (find BASE32 chr).map fun idx => placeBits idx 5 (lastTurn hash.length) p := by
  have hturn : (true ^^ decide (hash.length % 2 = 1)) = lastTurn hash.length := by
    unfold lastTurn
    rcases Nat.mod_two_eq_zero_or_one hash.length with h | h <;> simp [h]
  rw [place, placeLetters_append, hturn]
  rfl

theorem length_adjacentCalc {direction : Direction} {size : ℕ} {buffer buffer' : Key}
    (h : adjacentCalc direction size buffer = some buffer') : buffer'.length = buffer.length := by
  induction size generalizing buffer' with
  | zero => exact absurd h.symm (Option.some_ne_none buffer')
  | succ size ih =>
    obtain ⟨chr, -, h⟩ := Option.bind_eq_some_iff.mp h
    obtain ⟨middle, hmiddle, h⟩ := Option.bind_eq_some_iff.mp h
    obtain ⟨idx, -, h⟩ := Option.bind_eq_some_iff.mp h
    rw [← Option.some.inj h, List.length_set]
    split at hmiddle
    · exact ih hmiddle
    · rw [Option.some.injEq] at hmiddle
      rw [hmiddle]

/-- A last letter, if the letters before are changed alike whatever is behind them. -/
theorem adjacentCalc_last {direction : Direction} {hash : Key}
    (happend : ∀ rest, adjacentCalc direction hash.length (hash ++ rest) =
      (adjacentCalc direction hash.length hash).map (· ++ rest)) (chr : Byte) (rest : Key) :
    adjacentCalc direction (hash.length + 1) (hash ++ chr :: rest) =
      (if chr ∈ border direction ((hash.length + 1) % 2) ∧ 0 < hash.length then
        adjacentCalc direction hash.length hash else some hash).bind fun hash' =>
          (find (neighbour direction ((hash.length + 1) % 2)) chr).map fun idx =>
            hash' ++ BASE32.getD idx 0 :: rest := by
  have hset (hash' : Key) (hlen : hash'.length = hash.length) (c : Byte) :
      (hash' ++ chr :: rest).set hash.length c = hash' ++ c :: rest := by
    rw [← hlen, List.set_append_right _ _ le_rfl, Nat.sub_self, List.set_cons_zero]
  rw [adjacentCalc, List.getElem?_append_right le_rfl, Nat.sub_self, List.getElem?_cons_zero,
    Option.bind_eq_bind, Option.bind_some, happend]
  dsimp only
  split
  · cases hhash : adjacentCalc direction hash.length hash with
    | none => rfl
    | some hash' =>
      rw [Option.map_some, Option.bind_eq_bind, Option.bind_some, Option.bind_some]
      cases find (neighbour direction ((hash.length + 1) % 2)) chr with
      | none => rfl
      | some idx => exact congrArg some (hset hash' (length_adjacentCalc hhash) _)
  · rw [Option.bind_eq_bind, Option.bind_some, Option.bind_some]
    cases find (neighbour direction ((hash.length + 1) % 2)) chr with
    | none => rfl
    | some idx => exact congrArg some (hset hash rfl _)

/-- `adjacent_calc_` leaves the letters behind its own alone. -/
theorem adjacentCalc_append (direction : Direction) (hash rest : Key) :
    adjacentCalc direction hash.length (hash ++ rest) =
      (adjacentCalc direction hash.length hash).map (· ++ rest) := by
  induction hash using List.reverseRecOn generalizing rest with
  | nil => rfl
  | append_singleton hash chr ih =>
    have hlast := adjacentCalc_last ih chr
    rw [List.length_append, List.length_singleton, List.append_assoc, List.singleton_append,
      hlast rest, hlast []]
    rw [Option.map_bind]
    refine congrArg _ (funext fun hash' => ?_)
    cases find (neighbour direction ((hash.length + 1) % 2)) chr with
    | none => rfl
    | some idx => simp

theorem lastTurn_toNat (length : ℕ) : (lastTurn length).toNat = (length + 1) % 2 := by
  unfold lastTurn
  rcases Nat.mod_two_eq_zero_or_one length with h | h
  · rw [decide_eq_true h, Bool.toNat_true]
    omega
  · rw [decide_eq_false (by omega), Bool.toNat_false]
    omega

/-- A letter more. -/
theorem gridSize_succ (length : ℕ) : gridSize (5 * (length + 1)) =
    ((letterSize (lastTurn length)).1 * (gridSize (5 * length)).1,
      (letterSize (lastTurn length)).2 * (gridSize (5 * length)).2) := by
  unfold gridSize letterSize lastTurn
  rcases Nat.mod_two_eq_zero_or_one length with h | h
  · have hlon : (5 * (length + 1) + 1) / 2 = 3 + (5 * length + 1) / 2 := by omega
    have hlat : 5 * (length + 1) / 2 = 2 + 5 * length / 2 := by omega
    rw [decide_eq_true h, if_pos rfl, hlon, hlat, pow_add, pow_add]
    rfl
  · have hlon : (5 * (length + 1) + 1) / 2 = 2 + (5 * length + 1) / 2 := by omega
    have hlat : 5 * (length + 1) / 2 = 3 + 5 * length / 2 := by omega
    rw [decide_eq_false (by omega), if_neg Bool.false_ne_true, hlon, hlat, pow_add, pow_add]
    rfl

/-- A number of two digits and the one above it. -/
theorem digit_up {size grid p d d' : ℕ} {wraps : Prop} [Decidable wraps]
    (hdigit : if wraps then d + 1 = size ∧ d' = 0 else d' = d + 1)
    (hstay : size * p + d + 1 < size * grid) :
    (wraps → p + 1 < grid) ∧ size * p + d + 1 = size * (if wraps then p + 1 else p) + d' := by
  by_cases hwraps : wraps
  · rw [if_pos hwraps] at hdigit
    obtain ⟨hd, rfl⟩ := hdigit
    have hnext : size * p + d + 1 = size * (p + 1) := by rw [Nat.mul_succ, ← hd, Nat.add_assoc]
    rw [if_pos hwraps]
    exact ⟨fun _ => Nat.lt_of_mul_lt_mul_left (hnext ▸ hstay), hnext⟩
  · rw [if_neg hwraps] at hdigit
    rw [if_neg hwraps, hdigit]
    exact ⟨fun h => absurd h hwraps, rfl⟩

/-- And the one below. -/
theorem digit_down {size p d d' : ℕ} {wraps : Prop} [Decidable wraps]
    (hdigit : if wraps then d = 0 ∧ d' + 1 = size else 0 < d ∧ d' = d - 1)
    (hstay : 0 < size * p + d) :
    (wraps → 0 < p) ∧ size * p + d - 1 = size * (if wraps then p - 1 else p) + d' := by
  by_cases hwraps : wraps
  · rw [if_pos hwraps] at hdigit
    obtain ⟨rfl, hd⟩ := hdigit
    obtain ⟨k, rfl⟩ := Nat.exists_eq_succ_of_ne_zero (Nat.pos_of_mul_pos_left hstay).ne'
    rw [if_pos hwraps, Nat.succ_sub_one, Nat.mul_succ]
    exact ⟨fun _ => k.succ_pos, by omega⟩
  · rw [if_neg hwraps] at hdigit
    rw [if_neg hwraps]
    exact ⟨fun h => absurd h hwraps, by omega⟩

/-- The place beside a place is found in its low part, and in its high part where that wraps. -/
theorem shift_digits {direction : Direction} {size grid p d d' : ℕ × ℕ} {wraps : Prop}
    [Decidable wraps] (hdigit : Turns direction wraps size d d')
    (hstay : Stays direction (size.1 * grid.1, size.2 * grid.2)
      (size.1 * p.1 + d.1, size.2 * p.2 + d.2)) :
    (wraps → Stays direction grid p) ∧
      shift direction (size.1 * p.1 + d.1, size.2 * p.2 + d.2) =
        (size.1 * (if wraps then shift direction p else p).1 + d'.1,
          size.2 * (if wraps then shift direction p else p).2 + d'.2) := by
  cases direction with
  | n =>
    obtain ⟨hsame, hmove⟩ := hdigit
    obtain ⟨hwraps, hnext⟩ := digit_up hmove hstay
    refine ⟨hwraps, Prod.ext ?_ (hnext.trans ?_)⟩
    · rw [hsame]
      split <;> rfl
    · split <;> rfl
  | s =>
    obtain ⟨hsame, hmove⟩ := hdigit
    obtain ⟨hwraps, hnext⟩ := digit_down hmove hstay
    refine ⟨hwraps, Prod.ext ?_ (hnext.trans ?_)⟩
    · rw [hsame]
      split <;> rfl
    · split <;> rfl
  | e =>
    obtain ⟨hsame, hmove⟩ := hdigit
    obtain ⟨hwraps, hnext⟩ := digit_up hmove hstay
    refine ⟨hwraps, Prod.ext (hnext.trans ?_) ?_⟩
    · split <;> rfl
    · rw [hsame]
      split <;> rfl
  | w =>
    obtain ⟨hsame, hmove⟩ := hdigit
    obtain ⟨hwraps, hnext⟩ := digit_down hmove hstay
    refine ⟨hwraps, Prod.ext (hnext.trans ?_) ?_⟩
    · split <;> rfl
    · rw [hsame]
      split <;> rfl

/-- `adjacent` finds the cell beside a cell, if there is one. -/
theorem adjacent_place {direction : Direction} {hash : Key} {p : ℕ × ℕ}
    (hplace : place hash = some p) (hstay : Stays direction (gridSize (5 * hash.length)) p) :
    ∃ hash', adjacent hash direction = some hash' ∧ hash'.length = hash.length ∧
      place hash' = some (shift direction p) := by
  induction hash using List.reverseRecOn generalizing p with
  | nil =>
    obtain rfl := Option.some.inj hplace
    cases direction <;> simp [Stays, gridSize] at hstay
  | append_singleton hash chr ih =>
    rw [place_append] at hplace
    obtain ⟨q, hq, hplace⟩ := Option.bind_eq_some_iff.mp hplace
    obtain ⟨idx, hidx, rfl⟩ := Option.map_eq_some_iff.mp hplace
    obtain ⟨hlt, rfl⟩ := find_eq_some hidx
    obtain ⟨idx', hlt', hfind, hdigit⟩ := neighbour_letter (lastTurn hash.length) direction idx hlt
    rw [List.length_append, List.length_singleton, gridSize_succ, placeBits_eq] at hstay
    obtain ⟨hwraps, hshift⟩ := shift_digits hdigit hstay
    have hlast := adjacentCalc_last (adjacentCalc_append direction hash) (BASE32.getD idx 0) []
    rw [← lastTurn_toNat, hfind] at hlast
    -- the letters before move where the last one wraps
    obtain ⟨hash', hhash', hlen, hq'⟩ : ∃ hash',
        (if BASE32.getD idx 0 ∈ border direction (lastTurn hash.length).toNat ∧ 0 < hash.length then
          adjacentCalc direction hash.length hash else some hash) = some hash' ∧
        hash'.length = hash.length ∧ place hash' =
          some (if BASE32.getD idx 0 ∈ border direction (lastTurn hash.length).toNat then
            shift direction q else q) := by
      by_cases hborder : BASE32.getD idx 0 ∈ border direction (lastTurn hash.length).toNat
      · obtain ⟨hash', hadjacent, hlen, hq'⟩ := ih hq (hwraps hborder)
        have hpos : 0 < hash.length := by
          rw [Nat.pos_iff_ne_zero]
          intro hzero
          rw [adjacent, hzero] at hadjacent
          exact Option.some_ne_none _ hadjacent.symm
        rw [if_pos ⟨hborder, hpos⟩, if_pos hborder]
        exact ⟨hash', hadjacent, hlen, hq'⟩
      · rw [if_neg fun h => hborder h.1, if_neg hborder]
        exact ⟨hash, rfl, rfl, hq⟩
    refine ⟨hash' ++ [BASE32.getD idx' 0], ?_, ?_, ?_⟩
    · rw [adjacent, List.length_append, List.length_singleton, hlast, hhash']
      rfl
    · rw [List.length_append, List.length_append, hlen]
      rfl
    · rw [place_append, hq', find_BASE32 idx' hlt', hlen, placeBits_eq idx, hshift]
      exact congrArg some (placeBits_eq idx' _ _)

/-! ## One geohash for a cell -/

/-- The letters have different places, which are smaller than the next letter's. -/
theorem placeBits_letter (evenBit : Bool) : ∀ idx < 32, ∀ idx' < 32,
    ((placeBits idx 5 evenBit (0, 0)).1 < (letterSize evenBit).1 ∧
      (placeBits idx 5 evenBit (0, 0)).2 < (letterSize evenBit).2) ∧
      (placeBits idx 5 evenBit (0, 0) = placeBits idx' 5 evenBit (0, 0) → idx = idx') := by
  cases evenBit <;> decide +kernel

/-- A number of two digits has one high and one low part. -/
theorem digits_inj {size p p' d d' : ℕ} (hd : d < size) (hd' : d' < size)
    (h : size * p + d = size * p' + d') : p = p' ∧ d = d' := by
  have hpos := (Nat.zero_le d).trans_lt hd
  have hhigh := congrArg (· / size) h
  have hlow := congrArg (· % size) h
  simp only [Nat.mul_add_div hpos, Nat.div_eq_of_lt hd, Nat.div_eq_of_lt hd', Nat.add_zero,
    Nat.mul_add_mod, Nat.mod_eq_of_lt hd, Nat.mod_eq_of_lt hd'] at hhigh hlow
  exact ⟨hhigh, hlow⟩

/-- A cell of so many letters has one geohash. -/
theorem place_inj {hash hash' : Key} {p : ℕ × ℕ} (h : place hash = some p)
    (h' : place hash' = some p) (hlen : hash.length = hash'.length) : hash = hash' := by
  induction hash using List.reverseRecOn generalizing hash' p with
  | nil => exact (List.length_eq_zero_iff.mp hlen.symm).symm
  | append_singleton hash chr ih =>
    obtain rfl | ⟨hash', chr', rfl⟩ := List.eq_nil_or_concat hash'
    · rw [List.length_append] at hlen
      exact absurd hlen (Nat.succ_ne_zero _)
    rw [List.length_append, List.length_concat, List.length_singleton,
      Nat.add_right_cancel_iff] at hlen
    rw [List.concat_eq_append] at h' ⊢
    rw [place_append] at h h'
    obtain ⟨q, hq, h⟩ := Option.bind_eq_some_iff.mp h
    obtain ⟨idx, hidx, rfl⟩ := Option.map_eq_some_iff.mp h
    obtain ⟨q', hq', h'⟩ := Option.bind_eq_some_iff.mp h'
    obtain ⟨idx', hidx', heq⟩ := Option.map_eq_some_iff.mp h'
    obtain ⟨hlt, rfl⟩ := find_eq_some hidx
    obtain ⟨hlt', rfl⟩ := find_eq_some hidx'
    rw [← hlen, placeBits_eq idx', placeBits_eq idx, Prod.mk.injEq] at heq
    obtain ⟨⟨hlon, hlat⟩, hinj⟩ := placeBits_letter (lastTurn hash.length) idx hlt idx' hlt'
    obtain ⟨⟨hlon', hlat'⟩, -⟩ := placeBits_letter (lastTurn hash.length) idx' hlt' idx hlt
    obtain ⟨hfst, hdfst⟩ := digits_inj hlon' hlon heq.1
    obtain ⟨hsnd, hdsnd⟩ := digits_inj hlat' hlat heq.2
    rw [hinj (Prod.ext hdfst.symm hdsnd.symm),
      ih hq ((Prod.ext hfst hsnd : q' = q) ▸ hq') hlen]

/-- A point is in the cell of a geohash. -/
def InHash (hash : Key) (q : Point) : Prop := ∃ r, decode hash = some r ∧ r.Contains q

theorem inHash_iff {hash : Key} {q : Point} : InHash hash q ↔
    ∃ p, place hash = some p ∧ (cell (5 * hash.length) p).Contains q := by
  unfold InHash
  rw [decode_eq]
  constructor
  · rintro ⟨r, hr, hq⟩
    obtain ⟨p, hp, rfl⟩ := Option.map_eq_some_iff.mp hr
    exact ⟨p, hp, hq⟩
  · rintro ⟨p, hp, hq⟩
    exact ⟨_, by rw [hp, Option.map_some], hq⟩

/-- A point is in one cell. -/
theorem cell_unique {bits : ℕ} {p p' : ℕ × ℕ} {q : Point} (h : (cell bits p).Contains q)
    (h' : (cell bits p').Contains q) : p = p' := by
  rw [contains_cell] at h h'
  exact Prod.ext (h.2.unique (by norm_num) h'.2) (h.1.unique (by norm_num) h'.1)

theorem encodeLetters_prefix (q : Point) {n m : ℕ} (hnm : n ≤ m) (evenBit : Bool) (r : Rectangle) :
    encodeLetters q n evenBit r <+: encodeLetters q m evenBit r := by
  induction n generalizing m evenBit r with
  | zero => exact List.nil_prefix
  | succ n ih =>
    cases m with
    | zero => exact absurd hnm (Nat.not_succ_le_zero n)
    | succ m => exact (List.prefix_cons_inj _).mpr (ih (Nat.le_of_succ_le_succ hnm) _ _)

/-- The points of a cell are the ones with its geohash. -/
theorem encode_eq_iff {q : Point} (hq : Rectangle.world.Contains q) (hash : Key) :
    encode q hash.length = hash ↔ InHash hash q := by
  obtain ⟨p, hp, hcontains, hlen⟩ := encode_spec hq hash.length
  rw [inHash_iff]
  constructor
  · intro h
    rw [h] at hp
    exact ⟨p, hp, hcontains⟩
  · rintro ⟨p', hp', hcontains'⟩
    exact place_inj hp (cell_unique hcontains hcontains' ▸ hp') hlen

/-- The stored geohash of a point starts with the geohashes of its cells. -/
theorem prefix_encode_iff {q : Point} (hq : Rectangle.world.Contains q) {hash : Key} {m : ℕ}
    (hlen : hash.length ≤ m) : hash <+: encode q m ↔ InHash hash q := by
  have hpre : encode q hash.length <+: encode q m := encodeLetters_prefix q hlen true .world
  rw [← encode_eq_iff hq]
  constructor
  · intro h
    obtain ⟨-, -, -, hlen'⟩ := encode_spec hq hash.length
    exact (List.prefix_of_prefix_length_le hpre h hlen'.le).eq_of_length hlen'
  · intro h
    rwa [h] at hpre

end HM4.GeoHash
