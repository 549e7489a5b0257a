import HM4.GeoHash
import HM4.PointPages

/-!
# Strings and cells

A string of geohash letters has a cell, which is inside the cell of every prefix. Encoding the
center of the cell gives the string again. `GEODECODE` decodes what it gets without a look at it:
a string that is empty or too long violates an assertion, and a foreign character throws.
-/

namespace HM4.GeoHash

open Bytes Database RedisProtocol PointPages

/-! ## Rectangles in rectangles -/

namespace Rectangle

/-- A rectangle with an interior. -/
structure Proper (r : Rectangle) : Prop where
  lat : r.sw.lat < r.ne.lat
  lon : r.sw.lon < r.ne.lon

/-- A rectangle lies inside another one. -/
structure Within (r r' : Rectangle) : Prop where
  south : r'.sw.lat ≤ r.sw.lat
  north : r.ne.lat ≤ r'.ne.lat
  west : r'.sw.lon ≤ r.sw.lon
  east : r.ne.lon ≤ r'.ne.lon

/-- A point in a rectangle, without its border. -/
def Inside (r : Rectangle) (q : Point) : Prop :=
  (r.sw.lat < q.lat ∧ q.lat < r.ne.lat) ∧ r.sw.lon < q.lon ∧ q.lon < r.ne.lon

theorem proper_world : world.Proper := ⟨by norm_num [world], by norm_num [world]⟩

theorem Within.refl (r : Rectangle) : r.Within r := ⟨le_rfl, le_rfl, le_rfl, le_rfl⟩

variable {r r' r'' : Rectangle} {q : Point}

theorem Within.trans (h : r.Within r') (h' : r'.Within r'') : r.Within r'' where
  south := h'.south.trans h.south
  north := h.north.trans h'.north
  west := h'.west.trans h.west
  east := h.east.trans h'.east

theorem Within.contains (h : r.Within r') (hq : r.Contains q) : r'.Contains q :=
  ⟨⟨h.south.trans hq.1.1, hq.1.2.trans_le h.north⟩, h.west.trans hq.2.1, hq.2.2.trans_le h.east⟩

theorem Inside.contains (h : r.Inside q) : r.Contains q :=
  ⟨⟨h.1.1.le, h.1.2⟩, h.2.1.le, h.2.2⟩

/-- The center of a rectangle is inside it. -/
theorem Proper.center (h : r.Proper) : r.Inside r.center := by
  have hlat := h.lat
  have hlon := h.lon
  refine ⟨⟨?_, ?_⟩, ?_, ?_⟩ <;> simp only [Rectangle.center] <;> linarith

/-- A half of a rectangle lies inside it. -/
theorem Proper.bisect (h : r.Proper) (evenBit bit : Bool) :
    (r.bisect evenBit bit).Proper ∧ (r.bisect evenBit bit).Within r := by
  obtain ⟨⟨h1, h2⟩, h3, h4⟩ := h.center
  have hlat := h.lat
  have hlon := h.lon
  cases evenBit <;> cases bit
  · exact ⟨⟨h1, hlon⟩, le_rfl, h2.le, le_rfl, le_rfl⟩
  · exact ⟨⟨h2, hlon⟩, h1.le, le_rfl, le_rfl, le_rfl⟩
  · exact ⟨⟨hlat, h3⟩, le_rfl, le_rfl, le_rfl, h4.le⟩
  · exact ⟨⟨hlat, h4⟩, le_rfl, le_rfl, h3.le, le_rfl⟩

end Rectangle

open Rectangle

theorem decodeBits_within (idx n : ℕ) (evenBit : Bool) {r : Rectangle} (h : r.Proper) :
    (decodeBits idx n evenBit r).Proper ∧ (decodeBits idx n evenBit r).Within r := by
  induction n generalizing evenBit r with
  | zero => exact ⟨h, .refl r⟩
  | succ n ih =>
    obtain ⟨hhalf, hwithin⟩ := h.bisect evenBit (idx.testBit n)
    obtain ⟨hproper, hdeeper⟩ := ih (!evenBit) hhalf
    exact ⟨hproper, hdeeper.trans hwithin⟩

/-- More letters lead further inside. -/
theorem decodeLetters_within {hash : Key} {evenBit : Bool} {r s : Rectangle} (h : r.Proper)
    (hs : decodeLetters hash evenBit r = some s) : s.Proper ∧ s.Within r := by
  induction hash generalizing evenBit r with
  | nil =>
    obtain rfl := Option.some.inj hs
    exact ⟨h, .refl r⟩
  | cons chr hash ih =>
    rw [decodeLetters] at hs
    obtain ⟨idx, -, hrest⟩ := Option.bind_eq_some_iff.mp hs
    obtain ⟨hproper, hwithin⟩ := decodeBits_within idx 5 evenBit h
    obtain ⟨hproper', hdeeper⟩ := ih hproper hrest
    exact ⟨hproper', hdeeper.trans hwithin⟩

theorem decodeLetters_prefix {hash rest : Key} {evenBit : Bool} {r s s' : Rectangle}
    (h : r.Proper) (hs : decodeLetters hash evenBit r = some s)
    (hs' : decodeLetters (hash ++ rest) evenBit r = some s') : s'.Within s := by
  induction hash generalizing evenBit r with
  | nil =>
    obtain rfl := Option.some.inj hs
    exact (decodeLetters_within h hs').2
  | cons chr hash ih =>
    rw [decodeLetters] at hs
    rw [List.cons_append, decodeLetters] at hs'
    obtain ⟨idx, hidx, hrest⟩ := Option.bind_eq_some_iff.mp hs
    obtain ⟨idx', hidx', hrest'⟩ := Option.bind_eq_some_iff.mp hs'
    obtain rfl := Option.some.inj (hidx.symm.trans hidx')
    exact ih (decodeBits_within idx 5 evenBit h).1 hrest hrest'

/-- What is decoded has an interior, and the cell of a longer string lies inside. -/
theorem decode_proper {hash : Key} {r : Rectangle} (h : decode hash = some r) :
    r.Proper ∧ r.Within world :=
  decodeLetters_within proper_world h

theorem decode_within {hash hash' : Key} (hpre : hash <+: hash') {r r' : Rectangle}
    (h : decode hash = some r) (h' : decode hash' = some r') : r'.Within r := by
  obtain ⟨rest, rfl⟩ := hpre
  exact decodeLetters_prefix proper_world h h'

theorem find_isSome {s : Key} {c : Byte} : (find s c).isSome = true ↔ c ∈ s := by
  rw [find, List.findIdx?_isSome, List.any_eq_true]
  constructor
  · rintro ⟨x, hx, heq⟩
    rwa [← eq_of_beq heq]
  · intro hc
    exact ⟨c, hc, beq_self_eq_true c⟩

/-- The decoder does not throw for geohash letters, and for no other characters. -/
theorem decodeLetters_isSome {hash : Key} {evenBit : Bool} {r : Rectangle} :
    (decodeLetters hash evenBit r).isSome = true ↔ ∀ c ∈ hash, c ∈ BASE32 := by
  induction hash generalizing evenBit r with
  | nil => exact iff_of_true rfl fun c hc => absurd hc List.not_mem_nil
  | cons chr hash ih =>
    rw [List.forall_mem_cons, ← @find_isSome BASE32 chr, decodeLetters]
    cases find BASE32 chr with
    | none => exact iff_of_false Bool.false_ne_true fun h => Bool.false_ne_true h.1
    | some idx =>
      rw [Option.bind_eq_bind, Option.bind_some, ih]
      exact (and_iff_right rfl).symm

theorem decode_isSome {hash : Key} : (decode hash).isSome = true ↔ ∀ c ∈ hash, c ∈ BASE32 :=
  decodeLetters_isSome

theorem inHash_of_contains {hash : Key} {r : Rectangle} (h : decode hash = some r) {q : Point}
    (hq : r.Contains q) : encode q hash.length = hash :=
  (encode_eq_iff ((decode_proper h).2.contains hq) hash).mpr ⟨r, h, hq⟩

/-- One to twelve geohash letters. -/
def IsGeoHash (hash : Key) : Prop :=
  (0 < hash.length ∧ hash.length ≤ MAX_SIZE) ∧ ∀ c ∈ hash, c ∈ BASE32

instance (hash : Key) : Decidable (IsGeoHash hash) := inferInstanceAs (Decidable (_ ∧ _))

/-- The cell of the string of a point contains the point; the string of the center of a cell is the
string of the cell; a cell lies inside the cells of all prefixes; and cells of the same length have
no point of their interiors in common. -/
theorem codec_exact :
    (∀ q, world.Contains q → ∀ precision, 0 < precision → precision ≤ MAX_SIZE →
      ∃ r, decode (encode q precision) = some r ∧ r.Contains q) ∧
    (∀ hash, IsGeoHash hash → ∃ r, decode hash = some r ∧ encode r.center hash.length = hash) ∧
    (∀ hash hash', IsGeoHash hash' → hash <+: hash' → ∃ r r', decode hash = some r ∧
      decode hash' = some r' ∧ r'.Within r) ∧
    ∀ hash hash' r r', IsGeoHash hash → IsGeoHash hash' → hash.length = hash'.length →
      hash ≠ hash' → decode hash = some r → decode hash' = some r' →
      ∀ q, ¬(r.Inside q ∧ r'.Inside q) := by
  have hdecode {hash : Key} (h : ∀ c ∈ hash, c ∈ BASE32) : ∃ r, decode hash = some r :=
    Option.isSome_iff_exists.mp (decode_isSome.mpr h)
  refine ⟨fun q hq precision _ _ => ?_, fun hash h => ?_, fun hash hash' h' hpre => ?_,
    fun hash hash' r r' _ _ hlen hne hr hr' q hq => ?_⟩
  · obtain ⟨p, hp, hcontains, hlen⟩ := encode_spec hq precision
    refine ⟨cell (5 * precision) p, ?_, hcontains⟩
    rw [decode_eq, hp, hlen, Option.map_some]
  · obtain ⟨r, hr⟩ := hdecode h.2
    exact ⟨r, hr, inHash_of_contains hr (decode_proper hr).1.center.contains⟩
  · obtain ⟨r', hr'⟩ := hdecode h'.2
    obtain ⟨r, hr⟩ := hdecode fun c hc => h'.2 c (hpre.subset hc)
    exact ⟨r, r', hr, hr', decode_within hpre hr hr'⟩
  · have henc := inHash_of_contains hr hq.1.contains
    have henc' := inHash_of_contains hr' hq.2.contains
    rw [hlen] at henc
    exact hne (henc.symm.trans henc')

/-! ## `GEODECODE` -/

/-- `buffer_t_size`. -/
def bufferSize : ℕ := (15 + 1) * 2 + 12

/-- A quotient, rounded to the nearest number and half to the even one. -/
def roundEven (a b : ℕ) : ℕ :=
  if 2 * (a % b) < b then a / b else if b < 2 * (a % b) then a / b + 1 else a / b + a / b % 2

/-- `{:+.10f}`. -/
def formatFixed (x : ℚ) : Key :=
  let n := roundEven (x.num.natAbs * 10 ^ 10) x.den
  (if x < 0 then 45 else 43) ::
    (numeral (n / 10 ^ 10) ++ 46 :: fill 10 (numeral (n % 10 ^ 10)))

/-- The text of `formatLine`. -/
def lineOf (q : Point) (hash : Key) : Key :=
  formatFixed q.lat ++ 44 :: (formatFixed q.lon ++ 44 :: hash)

/-- What `format_to_n` writes into the line buffer. -/
def written (line : Key) : Key := line.take bufferSize

/-- `formatLine`: nothing if the text reaches the end of the buffer. -/
def formatLine (q : Point) (hash : Key) : Key :=
  if (written (lineOf q hash)).length = bufferSize then [] else written (lineOf q hash)

/-- What comes of a request. -/
inductive Outcome
  | reply (reply : Reply)
  | assertion
  | exception
  deriving DecidableEq

/-- `GEODECODE`. -/
def GEODECODE (p : List Key) : Outcome :=
  if p.length ≠ 2 then .reply (.error .NEED_EXACT_PARAMS_1)
  else
    let hash := p.getD 1 []
    if ¬(0 < hash.length ∧ hash.length ≤ MAX_SIZE) then .assertion
    else
      match decode hash with
      | none => .exception
      | some r => .reply (.string (formatLine r.center hash))

theorem roundEven_le {a b n : ℕ} (hb : 0 < b) (h : a ≤ n * b) : roundEven a b ≤ n := by
  have hdiv : a / b ≤ n := Nat.div_le_of_le_mul (Nat.mul_comm n b ▸ h)
  have hsum := Nat.div_add_mod a b
  unfold roundEven
  split
  · exact hdiv
  · next hlow =>
    have hlt : a / b < n := by
      refine Nat.lt_of_le_of_ne hdiv fun heq => ?_
      rw [heq, Nat.mul_comm] at hsum
      omega
    split <;> omega

/-- A number in front of the point takes so many letters. -/
theorem length_formatFixed {x : ℚ} {n k : ℕ} (hn : n < 10 ^ (k + 1)) (hlo : -(n : ℚ) ≤ x)
    (hhi : x ≤ n) : (formatFixed x).length ≤ k + 13 := by
  have habs : x.num.natAbs ≤ n * x.den := by
    have hnum : |x| ≤ n := abs_le.mpr ⟨hlo, hhi⟩
    have hden : (0 : ℚ) < x.den := Nat.cast_pos.mpr x.den_pos
    rw [← Rat.num_div_den x, abs_div, abs_of_pos hden, div_le_iff₀ hden] at hnum
    have hcast : (x.num.natAbs : ℚ) = |(x.num : ℚ)| := by
      rw [Nat.cast_natAbs, Int.cast_abs]
    rw [← hcast] at hnum
    exact_mod_cast hnum
  have hround : roundEven (x.num.natAbs * 10 ^ 10) x.den ≤ n * 10 ^ 10 := by
    refine roundEven_le x.den_pos ?_
    calc x.num.natAbs * 10 ^ 10 ≤ n * x.den * 10 ^ 10 := Nat.mul_le_mul_right _ habs
      _ = n * 10 ^ 10 * x.den := by ring
  have hfirst : (numeral (roundEven (x.num.natAbs * 10 ^ 10) x.den / 10 ^ 10)).length ≤ k + 1 := by
    rw [numeral, List.length_map]
    exact Decimal.digits_length_le
      ((Nat.div_le_of_le_mul (Nat.mul_comm n _ ▸ hround)).trans_lt hn)
  have hlast : (fill 10
      (numeral (roundEven (x.num.natAbs * 10 ^ 10) x.den % 10 ^ 10))).length = 10 := by
    refine length_fill ?_
    rw [numeral, List.length_map]
    exact Decimal.digits_length_le (k := 9) (Nat.mod_lt _ (by norm_num))
  unfold formatFixed
  rw [List.length_cons, List.length_append, List.length_cons, hlast]
  omega

/-- The line of a cell fits into the buffer. -/
theorem formatLine_center {hash : Key} {r : Rectangle} (h : decode hash = some r)
    (hlen : hash.length ≤ MAX_SIZE) :
    formatLine r.center hash = lineOf r.center hash := by
  obtain ⟨hproper, hwithin⟩ := decode_proper h
  obtain ⟨⟨h1, h2⟩, h3, h4⟩ := hwithin.contains hproper.center.contains
  have hlat : (formatFixed r.center.lat).length ≤ 1 + 13 :=
    length_formatFixed (n := 90) (by norm_num) (by exact_mod_cast h1) (by exact_mod_cast h2.le)
  have hlon : (formatFixed r.center.lon).length ≤ 2 + 13 :=
    length_formatFixed (n := 180) (by norm_num) (by exact_mod_cast h3) (by exact_mod_cast h4.le)
  have hline : (lineOf r.center hash).length < bufferSize := by
    have hsize : bufferSize = 44 := rfl
    have hmax : MAX_SIZE = 12 := rfl
    rw [lineOf, List.length_append, List.length_cons, List.length_append, List.length_cons]
    omega
  have hwritten : written (lineOf r.center hash) = lineOf r.center hash :=
    List.take_of_length_le hline.le
  rw [formatLine, hwritten, if_neg hline.ne]

/-- A geohash is answered with the center of its cell, anything else with an error, and nothing is
written behind the buffer. -/
structure Answers (name hash : Key) : Prop where
  cell : IsGeoHash hash → ∃ r, decode hash = some r ∧
    GEODECODE [name, hash] = .reply (.string (lineOf r.center hash))
  error : ¬IsGeoHash hash → ∃ message, GEODECODE [name, hash] = .reply (.error message)
  bounded : ∀ q, (written (lineOf q hash)).length ≤ bufferSize

/-- `GEODECODE` answers right if and only if it gets one to twelve geohash letters: otherwise it
violates the assertion or throws. -/
theorem geodecode_iff (name hash : Key) : Answers name hash ↔ IsGeoHash hash := by
  constructor
  · intro h
    by_contra hnot
    obtain ⟨message, hmessage⟩ := h.error hnot
    have hcases : GEODECODE [name, hash] = .assertion ∨ GEODECODE [name, hash] = .exception := by
      by_cases hlen : 0 < hash.length ∧ hash.length ≤ MAX_SIZE
      · have hnone : decode hash = none := by
          rw [← Option.not_isSome_iff_eq_none, decode_isSome]
          exact fun hall => hnot ⟨hlen, hall⟩
        refine .inr ?_
        simp [GEODECODE, hlen, hnone]
      · refine .inl ?_
        simp only [GEODECODE, List.length_cons, List.length_nil, List.getD_cons_succ,
          List.getD_cons_zero, if_pos hlen]
        rfl
    rcases hcases with hcase | hcase <;> exact absurd (hmessage.symm.trans hcase) (by simp)
  · intro h
    refine ⟨fun _ => ?_, fun hnot => absurd h hnot, fun q => List.length_take_le _ _⟩
    obtain ⟨r, hr⟩ := Option.isSome_iff_exists.mp (decode_isSome.mpr h.2)
    refine ⟨r, hr, ?_⟩
    rw [← formatLine_center hr h.1.2]
    simp [GEODECODE, h.1, hr]

/-- `GEODECODE a` throws. -/
theorem not_answers_foreign : ¬Answers [] [97] := by
  intro h
  have hforeign : ¬∀ c ∈ ([97] : Key), c ∈ BASE32 := by decide +kernel
  obtain ⟨message, hmessage⟩ := h.error fun hhash => hforeign hhash.2
  have hnone : decode [97] = none :=
    Option.not_isSome_iff_eq_none.mp fun h => hforeign (decode_isSome.mp h)
  have hthrown : GEODECODE [[], [97]] = .exception := by simp [GEODECODE, MAX_SIZE, hnone]
  rw [hthrown] at hmessage
  exact nomatch hmessage

end HM4.GeoHash
