import HM4.HotLine

/-!
# When the hot line is right

Inside a run the search compares behind the first eight octets. A key that
ends there has no tail: the comparator reports it as equal to every longer
key, and from a shorter one it would read past the end. Such keys are the
first of their run. The search avoids them if the run has none, or if it meets
a longer key that is not above the searched one before it comes to them.
-/

namespace HM4.HotLineSearch

open LexPrefix Bytes HPair CmpLCP Pairs BoundedSearch DiskTable HotLine

/-- A key without a tail behind the prefix. -/
def Short (key : Key) : Prop := key.length ≤ N

instance (key : Key) : Decidable (Short key) := inferInstanceAs (Decidable (_ ≤ _))

/-- Among keys of one prefix the short ones are the smaller ones. -/
theorem lt_of_short {a b : Key} (h : create a = create b) (ha : Short a) (hb : ¬ Short b) :
    a < b := by
  have hp := (create_eq_iff a b).mp h
  have hbt : prefixBytes b = b.take N := pad_eq_take (not_le.mp hb).le
  have hpre : a <+: prefixBytes a := isPrefix_pad ha
  have hab : a <+: b := (hpre.trans (hp ▸ hbt ▸ List.prefix_rfl)).trans (List.take_prefix N b)
  exact lt_of_le_of_ne (le_of_isPrefix hab) (fun he => hb (he ▸ ha))

/-- Keys of one prefix that both have a tail share their first octets. -/
theorem take_eq_of_long {a b : Key} (h : create a = create b) (ha : N ≤ a.length)
    (hb : N ≤ b.length) : a.take N = b.take N := by
  rw [← pad_eq_take ha, ← pad_eq_take hb]
  exact (create_eq_iff a b).mp h

/-- The keys at `p` to `q` all have the prefix of the searched key. -/
structure Run (t : Table) (key : Key) (p q : ℕ) : Prop where
  nonempty : p < q
  le_size : q ≤ t.size
  prefixEq : ∀ i, p ≤ i → i < q → create (t.keyAt i) = create key

theorem Run.lt_size {t : Table} {key : Key} {p q i : ℕ} (h : Run t key p q) (hi : i < q) :
    i < t.size := hi.trans_le h.le_size

/-- The first part of a run is a run. -/
theorem Run.left {t : Table} {key : Key} {p q m : ℕ} (h : Run t key p q) (h1 : p < m)
    (h2 : m ≤ q) : Run t key p m :=
  ⟨h1, h2.trans h.le_size, fun i hi1 hi2 => h.prefixEq i hi1 (hi2.trans_le h2)⟩

/-- Everything behind a key with a tail has a tail. -/
theorem Run.long_of_le {t : Table} {key : Key} {p q i j : ℕ} (h : Run t key p q) (hi : p ≤ i)
    (hij : i ≤ j) (hj : j < q) (hlong : ¬ Short (t.keyAt i)) : ¬ Short (t.keyAt j) := by
  intro hs
  rcases Nat.eq_or_lt_of_le hij with rfl | hlt
  · exact hlong hs
  · have hc : create (t.keyAt j) = create (t.keyAt i) :=
      (h.prefixEq j (hi.trans hij) hj).trans (h.prefixEq i hi (hlt.trans hj)).symm
    exact absurd (Table.keyAt_lt hlt (h.lt_size hj)) (not_lt.mpr (lt_of_short hc hs hlong).le)

/-- A key with a tail shares the octets before it with a longer searched key. -/
theorem Run.take_eq {t : Table} {key : Key} {p q i : ℕ} (h : Run t key p q) (hk : N < key.length)
    (h1 : p ≤ i) (h2 : i < q) (hlong : ¬ Short (t.keyAt i)) :
    (t.keyAt i).take N = key.take N :=
  take_eq_of_long (h.prefixEq i h1 h2) (not_le.mp hlong).le hk.le

/-- The search of a run escapes its short keys: there are none, or a key in the
middle of a first part has a tail and is not above the searched key. -/
def EscapesShort (t : Table) (key : Key) (p q : ℕ) : Prop :=
  ¬ Short (t.keyAt p) ∨ ∃ k, minimumDistance < (q - p) / 2 ^ k ∧
    ¬ Short (t.keyAt (p + (q - p) / 2 ^ (k + 1))) ∧ t.keyAt (p + (q - p) / 2 ^ (k + 1)) ≤ key

/-- A result inside a run that no search of whole keys gives. -/
def Mistaken (t : Table) (key : Key) (p q : ℕ) (res : Option SearchResult) : Prop :=
  res = none ∨ ∃ x, p ≤ x ∧ x < q ∧ t.keyAt x ≠ key ∧ res = some ⟨true, x⟩

/-- From a short key the comparator does not return, or it reports a match. -/
theorem pairLCPCompare_short {t : Table} {key : Key} {s : PrefixState} {i : ℕ}
    (hk : N < key.length) (hs : min s.prefixL s.prefixR = N) (hi : i < t.size)
    (hshort : Short (t.keyAt i)) :
    pairLCPCompare t key s i = none ∨ ∃ s', pairLCPCompare t key s i = some (.eq, s') := by
  obtain ⟨p, hget, hkey⟩ := Table.exists_pair hi
  have hne : key ≠ [] := List.ne_nil_of_length_pos (Nat.zero_lt_of_lt hk)
  rw [pairLCPCompare, hget]
  dsimp only
  rw [hs, Pair.cmpLCP, if_neg hne, cmpLCPFrom, ← hkey]
  rcases Nat.eq_or_lt_of_le hshort with he | hlt
  · right
    have hnil : (t.keyAt i).drop N = [] := List.drop_of_length_le he.le
    rw [if_pos ⟨he.ge, hk.le⟩, cmpLCP_of_nil (.inl hnil)]
    exact ⟨_, rfl⟩
  · left
    rw [if_neg (fun h => absurd h.1 (not_le.mpr hlt))]

/-- With the prefix remembered the comparator tells the order of a key with a tail. -/
theorem pairLCPCompare_long {t : Table} {key : Key} {p q i : ℕ} {s : PrefixState}
    (h : Run t key p q) (hk : N < key.length) (hs : min s.prefixL s.prefixR = N) (h1 : p ≤ i)
    (h2 : i < q) (hlong : ¬ Short (t.keyAt i)) :
    pairLCPCompare t key s i = some (t.order key i,
      { prefixL := if t.order key i ≠ .lt then lcp (t.keyAt i) key else s.prefixL
        prefixR := if t.order key i ≠ .gt then lcp (t.keyAt i) key else s.prefixR }) := by
  apply pairLCPCompare_eq (h.lt_size h2)
  · rw [hs]
    exact h.take_eq hk h1 h2 hlong
  · rw [hs]
    exact not_le.mp hlong
  · rw [hs]
    exact hk

/-- A search of a run without short keys locates the key. -/
theorem binarySearch_long {t : Table} {key : Key} {p q : ℕ} {prefixL : ℕ} (h : Run t key p q)
    (hk : N < key.length)
    (hup : ∀ i, p ≤ i → i < q → (t.keyAt i).take prefixL ≤ key.take prefixL)
    (hlong : ¬ Short (t.keyAt p)) :
    ∃ r, binarySearch (pairLCPCompare t key) minimumDistance ⟨prefixL, N⟩ p q = some r ∧
      Locates (t.order key) p q r := by
  refine binarySearch_locates (tells_pairLCPCompare t key) minimumDistance h.nonempty.le
    (t.strictOrder key h.le_size) ⟨h.le_size, hk, hup, ?_⟩
  intro i h1 h2
  have hi := h.long_of_le le_rfl h1 h2 hlong
  dsimp only
  rw [← h.take_eq hk h1 h2 hi]
  refine lt_of_le_of_ne (le_of_isPrefix (List.take_prefix N _)) (fun he => hi ?_)
  have hlen := congrArg List.length he
  rw [List.length_take] at hlen
  exact (min_eq_right_iff.mp (by omega))

/-- The first key met decides in a short range that starts with a short key. -/
theorem linearSearch_short {t : Table} {key : Key} {p q n : ℕ} {s : PrefixState}
    (h : Run t key p q) (hk : N < key.length) (hs : min s.prefixL s.prefixR = N)
    (hshort : Short (t.keyAt p)) :
    Mistaken t key p q (linearSearch (pairLCPCompare t key) (n + 1) s p) := by
  rw [linearSearch]
  rcases pairLCPCompare_short hk hs (h.lt_size h.nonempty) hshort with hc | ⟨s', hc⟩
  · rw [hc]
    exact .inl rfl
  · rw [hc]
    refine .inr ⟨p, le_rfl, h.nonempty, ?_, rfl⟩
    intro he
    rw [he] at hshort
    exact absurd hk (not_lt.mpr hshort)

/-- Behind a middle key with a tail it is this key or the left half that
lets the search escape. -/
theorem escapesShort_half {t : Table} {p q : ℕ} (key : Key) (h1 : p < p + (q - p) / 2)
    (hdist : p + minimumDistance < q) (hp : Short (t.keyAt p))
    (hm : ¬ Short (t.keyAt (p + (q - p) / 2))) :
    EscapesShort t key p q ↔ t.keyAt (p + (q - p) / 2) ≤ key ∨
      EscapesShort t key p (p + (q - p) / 2) := by
  have hhalf : p + (q - p) / 2 - p = (q - p) / 2 := Nat.add_sub_cancel_left _ _
  have hpow : ∀ k, (q - p) / 2 / 2 ^ k = (q - p) / 2 ^ (k + 1) := by
    intro k
    rw [pow_succ', Nat.div_div_eq_div_mul]
  constructor
  · rintro (hc | ⟨k, hk1, hk2, hk3⟩)
    · exact absurd hp hc
    · cases k with
      | zero =>
        rw [Nat.zero_add, pow_one] at hk3
        exact .inl hk3
      | succ k => exact .inr (.inr ⟨k, by rwa [hhalf, hpow], by rwa [hhalf, hpow],
          by rwa [hhalf, hpow]⟩)
  · rintro (hle | hc | ⟨k, hk1, hk2, hk3⟩)
    · refine .inr ⟨0, ?_, ?_, ?_⟩
      · rw [pow_zero, Nat.div_one]
        omega
      · rwa [Nat.zero_add, pow_one]
      · rwa [Nat.zero_add, pow_one]
    · exact absurd hp hc
    · rw [hhalf, hpow] at hk1 hk2 hk3
      exact .inr ⟨k + 1, hk1, hk2, hk3⟩

/-- The search of a run is right if it escapes the short keys, and mistaken
otherwise. The induction follows the left halves of the run. -/
theorem binarySearch_run {t : Table} {key : Key} {p q : ℕ} {prefixL : ℕ} (h : Run t key p q)
    (hk : N < key.length) (hL : N ≤ prefixL)
    (hup : ∀ i, p ≤ i → i < q → ¬ Short (t.keyAt i) →
      (t.keyAt i).take prefixL ≤ key.take prefixL) :
    (EscapesShort t key p q → ∃ r, binarySearch (pairLCPCompare t key) minimumDistance
        ⟨prefixL, N⟩ p q = some r ∧ Locates (t.order key) p q r) ∧
      (¬ EscapesShort t key p q → Mistaken t key p q
        (binarySearch (pairLCPCompare t key) minimumDistance ⟨prefixL, N⟩ p q)) := by
  have hs : min (PrefixState.mk prefixL N).prefixL (PrefixState.mk prefixL N).prefixR = N :=
    min_eq_right hL
  by_cases hp : Short (t.keyAt p)
  swap
  · have hlong : ∀ i, p ≤ i → i < q → (t.keyAt i).take prefixL ≤ key.take prefixL :=
      fun i h1 h2 => hup i h1 h2 (h.long_of_le le_rfl h1 h2 hp)
    exact ⟨fun _ => binarySearch_long h hk hlong hp, fun hc => absurd (.inl hp) hc⟩
  induction hd : q - p using Nat.strong_induction_on generalizing q prefixL with
  | _ d ih =>
    rw [binarySearch]
    by_cases hdist : p + minimumDistance < q
    · rw [if_pos hdist]
      dsimp only
      have h1 : p < p + (q - p) / 2 := by unfold minimumDistance at hdist; omega
      have h2 : p + (q - p) / 2 < q := by omega
      by_cases hm : Short (t.keyAt (p + (q - p) / 2))
      · -- a short middle has only short keys before it
        have hno : ¬ EscapesShort t key p q := by
          rintro (hc | ⟨k, -, hc, -⟩)
          · exact hc hp
          · refine h.long_of_le (Nat.le_add_right p _) ?_ h2 hc hm
            rw [pow_succ', ← Nat.div_div_eq_div_mul]
            exact Nat.add_le_add_left (Nat.div_le_self _ _) p
        refine ⟨fun hc => absurd hc hno, fun _ => ?_⟩
        rcases pairLCPCompare_short hk hs (h.lt_size h2) hm with hc | ⟨s', hc⟩
        · rw [hc]
          exact .inl rfl
        · rw [hc]
          refine .inr ⟨_, h1.le, h2, ?_, rfl⟩
          intro he
          rw [he] at hm
          exact absurd hk (not_lt.mpr hm)
      · rw [pairLCPCompare_long h hk hs h1.le h2 hm]
        have hstep := escapesShort_half key h1 hdist hp hm
        have horder : StrictOrder (t.order key) p q := t.strictOrder key h.le_size
        cases ho : t.order key (p + (q - p) / 2) with
        | eq =>
          have hle : t.keyAt (p + (q - p) / 2) ≤ key := (lex_eq_eq.mp ho).le
          exact ⟨fun _ => ⟨_, rfl, horder.locates_eq h1.le h2 ho⟩,
            fun hc => absurd (hstep.mpr (.inl hle)) hc⟩
        | lt =>
          have hlt : t.keyAt (p + (q - p) / 2) < key := lex_eq_lt.mp ho
          refine ⟨fun _ => ?_, fun hc => absurd (hstep.mpr (.inl hlt.le)) hc⟩
          have hright : PrefixesHold t key ⟨prefixL, lcp (t.keyAt (p + (q - p) / 2)) key⟩
              (p + (q - p) / 2 + 1) q :=
            prefixesHold_right h.le_size hlt (fun i hi1 hi2 =>
              hup i (h1.le.trans hi1.le) hi2 (h.long_of_le h1.le hi1.le hi2 hm))
          obtain ⟨r, hr, hloc⟩ := binarySearch_locates (tells_pairLCPCompare t key)
            minimumDistance h2 (horder.mono (by omega) le_rfl) ⟨h.le_size, hright⟩
          refine ⟨r, hr, hloc.extend_left (by omega) ?_⟩
          intro i hi1 hi2
          have hile := Table.keyAt_le (Nat.le_of_lt_succ hi2) (h.lt_size h2)
          exact lex_eq_lt.mpr (hile.trans_lt hlt)
        | gt =>
          have hgt : key < t.keyAt (p + (q - p) / 2) := lex_eq_gt.mp ho
          have habove : ∀ i, p + (q - p) / 2 ≤ i → i < q → t.order key i = .gt := by
            intro i hi1 hi2
            exact lex_eq_gt.mpr (hgt.trans_le (Table.keyAt_le hi1 (h.lt_size hi2)))
          have hlcp : N ≤ lcp (t.keyAt (p + (q - p) / 2)) key :=
            le_lcp_of_take_eq (h.take_eq hk h1.le h2 hm) (not_le.mp hm).le hk.le
          have hrest := ih (p + (q - p) / 2 - p) (by omega) (h.left h1 h2.le) hlcp
            (fun i _ hi2 _ => take_lcp_le hi2 (h.lt_size h2)) (min_eq_right hlcp) rfl
          rw [hstep]
          constructor
          · rintro (hle | hesc)
            · exact absurd hgt (not_lt.mpr hle)
            · obtain ⟨r, hr, hloc⟩ := hrest.1 hesc
              exact ⟨r, hr, hloc.extend_right h2.le habove⟩
          · intro hno
            rcases hrest.2 (fun hesc => hno (.inr hesc)) with hnone | ⟨x, hx1, hx2, hne, hx⟩
            · exact .inl hnone
            · exact .inr ⟨x, hx1, hx2.trans h2, hne, hx⟩
    · rw [if_neg hdist]
      have hno : ¬ EscapesShort t key p q := by
        rintro (hc | ⟨k, hc, -⟩)
        · exact hc hp
        · have hle : (q - p) / 2 ^ k ≤ q - p := Nat.div_le_self _ _
          omega
      obtain ⟨n, hn⟩ : ∃ n, q - p = n + 1 := ⟨q - p - 1, by have := h.nonempty; omega⟩
      refine ⟨fun hc => absurd hc hno, fun _ => ?_⟩
      rw [hn]
      exact linearSearch_short h hk hs hp

/-! ## The condition -/

/-- The tables and keys for which the search of the line finds what plain
search finds. Without entries it is plain search. For a key of prefix zero
every pair of prefix zero must be below it. For another key there are no pairs
of its prefix, or it depends on its length: a shorter key than the prefix must
be the first of the run, a key of that length must not come behind a shorter
one, and a longer one must let the search escape the short keys. -/
def HotLineRight (t : Table) (key : Key) : Prop :=
  (∀ p ∈ t.pairs, create p.key = 0) ∨
  if create key = 0 then ∀ i < t.size, create (t.keyAt i) = 0 → t.keyAt i < key
  else
    let p := runStart t (create key)
    let q := runStop t (create key)
    p = q ∨
      (key.length < N ∧ t.keyAt p = key) ∨
      (key.length = N ∧ N ≤ (t.keyAt p).length) ∨
      (N < key.length ∧ EscapesShort t key p q)

/-- Where a key is not below a filled prefix that it has, it is at least as long. -/
theorem run_of_lt {t : Table} {key : Key}
    (h : runStart t (create key) < runStop t (create key)) :
    Run t key (runStart t (create key)) (runStop t (create key)) :=
  ⟨h, runStop_le_size t _, fun _ h1 h2 => create_of_run h1 h2⟩

/-- Before the run keys are below the searched one. -/
theorem order_before_run {t : Table} {key : Key} {i : ℕ} (h : i < runStart t (create key)) :
    t.order key i = .lt := by
  have hi := h.trans_le (runStart_le_size t _)
  have hlt := (lt_runStart_iff t _ hi).mpr h
  apply lex_eq_lt.mpr
  by_contra hc
  exact absurd (create_le_create (not_lt.mp hc)) (not_le.mpr hlt)

/-- Behind the run keys are above the searched one. -/
theorem order_behind_run {t : Table} {key : Key} {i : ℕ} (h : runStop t (create key) ≤ i)
    (hi : i < t.size) : t.order key i = .gt := by
  have hgt : create key < create (t.keyAt i) := by
    by_contra hc
    exact absurd ((lt_runStop_iff t _ hi).mp (not_lt.mp hc)) (not_lt.mpr h)
  apply lex_eq_gt.mpr
  by_contra hc
  exact absurd (create_le_create (not_lt.mp hc)) (not_le.mpr hgt)

/-- A key is located in the table exactly as it is in its run. -/
theorem finds_iff_run (t : Table) (key : Key) (r : SearchResult) :
    t.Finds key r ↔ Locates (t.order key) (runStart t (create key)) (runStop t (create key)) r := by
  constructor
  · intro h
    exact (h.restrict_right (Nat.zero_le _) (runStop_le_size t _)
      (fun i h1 h2 => order_behind_run h1 h2)).restrict_left (Nat.zero_le _)
      (runStart_le_runStop t _) (fun i _ h2 => order_before_run h2)
  · intro h
    exact (h.extend_right (runStop_le_size t _) (fun i h1 h2 => order_behind_run h1 h2)).extend_left
      (Nat.zero_le _) (fun i _ h2 => order_before_run h2)

/-- A search of the run of a longer key. -/
theorem searchBinaryIn_run {t : Table} {key : Key} {p q : ℕ} (h : Run t key p q)
    (hk : N < key.length) :
    (EscapesShort t key p q → ∃ r, searchBinaryIn N t key p q = some r ∧
        Locates (t.order key) p q r) ∧
      (¬ EscapesShort t key p q → Mistaken t key p q (searchBinaryIn N t key p q)) :=
  binarySearch_run h hk le_rfl (fun _ h1 h2 hlong => (h.take_eq hk h1 h2 hlong).le)

/-- The first pair of the run of an eight-octet key is that key, is above it or
is below it as its length says. -/
theorem order_of_eight {t : Table} {key : Key} {p q : ℕ} (h : Run t key p q)
    (hk : key.length = N) :
    ((t.keyAt p).length = N → t.order key p = .eq) ∧
      (N < (t.keyAt p).length → t.order key p = .gt) ∧
      ((t.keyAt p).length < N → t.order key p = .lt) := by
  have hc := h.prefixEq p le_rfl h.nonempty
  refine ⟨fun he => lex_eq_eq.mpr ?_, fun hgt => lex_eq_gt.mpr ?_, fun hlt => lex_eq_lt.mpr ?_⟩
  · have ht := take_eq_of_long hc he.ge hk.ge
    rwa [List.take_of_length_le he.le, List.take_of_length_le hk.le] at ht
  · exact lt_of_short hc.symm hk.le (not_le.mpr hgt)
  · have hpre : t.keyAt p <+: prefixBytes (t.keyAt p) := isPrefix_pad hlt.le
    have hkey : prefixBytes key = key :=
      (pad_eq_take hk.ge).trans (List.take_of_length_le hk.le)
    rw [(create_eq_iff _ _).mp hc, hkey] at hpre
    exact lt_of_le_of_ne (le_of_isPrefix hpre) (fun he => absurd hk (he ▸ hlt.ne))

/-- The answer is right exactly under the condition. -/
theorem hotLineAnswer_finds_iff (t : Table) {key : Key} (hk : key ≠ []) :
    (∃ r, hotLineAnswer t key = some r ∧ t.Finds key r) ↔ HotLineRight t key := by
  unfold hotLineAnswer HotLineRight
  by_cases hall : ∀ p ∈ t.pairs, create p.key = 0
  · rw [if_pos hall]
    exact iff_of_true (searchBinary_finds t hk) (.inl hall)
  rw [if_neg hall]
  simp only [hall, false_or]
  by_cases h0 : create key = 0
  · rw [if_pos (.inl h0), if_pos h0]
    simp only [Option.some.injEq, exists_eq_left', finds_iff_run,
      locates_end_iff (runStart_le_runStop t _)]
    have hstart : runStart t (create key) = 0 := by
      rw [h0]
      exact List.countP_eq_zero.mpr (fun p _ => by simp)
    constructor
    · intro h i hi hz
      exact lex_eq_lt.mp (h i (by omega) ((lt_runStop_iff t _ hi).mp (by omega)))
    · intro h i _ h2
      have hi := h2.trans_le (runStop_le_size t _)
      exact lex_eq_lt.mpr (h i hi (Nat.le_zero.mp (h0 ▸ (lt_runStop_iff t _ hi).mpr h2)))
  rw [if_neg h0]
  by_cases he : runStart t (create key) = runStop t (create key)
  · rw [if_pos (.inr he)]
    refine iff_of_true ⟨_, rfl, ?_⟩ (.inl he)
    rw [finds_iff_run, locates_end_iff (runStart_le_runStop t _)]
    intro i h1 h2
    omega
  rw [if_neg (not_or.mpr ⟨h0, he⟩)]
  have hrun := run_of_lt (lt_of_le_of_ne (runStart_le_runStop t (create key)) he)
  have horder : StrictOrder (t.order key) (runStart t (create key)) (runStop t (create key)) :=
    t.strictOrder key hrun.le_size
  rcases lt_trichotomy key.length N with hlen | hlen | hlen
  · rw [if_pos hlen]
    simp only [Option.some.injEq, exists_eq_left', finds_iff_run,
      horder.locates_found_iff le_rfl hrun.nonempty, Table.order, lex_eq_eq]
    constructor
    · exact fun h => .inr (.inl ⟨hlen, h⟩)
    · rintro (h | h | h | h)
      · exact absurd h he
      · exact h.2
      · exact absurd h.1 hlen.ne
      · exact absurd h.1 (not_lt.mpr hlen.le)
  · rw [if_neg hlen.not_lt, if_pos hlen]
    simp only [Option.some.injEq, exists_eq_left', finds_iff_run]
    obtain ⟨heq, hgt, hlt⟩ := order_of_eight hrun hlen
    have hiff : Locates (t.order key) (runStart t (create key)) (runStop t (create key))
        ⟨decide ((t.keyAt (runStart t (create key))).length = N), runStart t (create key)⟩ ↔
        N ≤ (t.keyAt (runStart t (create key))).length := by
      rcases lt_trichotomy (t.keyAt (runStart t (create key))).length N with hl | hl | hl
      · refine iff_of_false (fun h => h.above _ le_rfl hrun.nonempty (hlt hl)) (not_le.mpr hl)
      · rw [decide_eq_true hl]
        exact iff_of_true (horder.locates_eq le_rfl hrun.nonempty (heq hl)) hl.ge
      · rw [decide_eq_false hl.ne']
        exact iff_of_true ((horder.locates_start_iff hrun.nonempty).mpr (hgt hl)) hl.le
    rw [hiff]
    constructor
    · exact fun h => .inr (.inr (.inl ⟨hlen, h⟩))
    · rintro (h | h | h | h)
      · exact absurd h he
      · exact absurd h.1 hlen.not_lt
      · exact h.2
      · exact absurd h.1 hlen.not_gt
  · rw [if_neg hlen.not_gt, if_neg hlen.ne']
    obtain ⟨hright, hwrong⟩ := searchBinaryIn_run hrun hlen
    constructor
    · rintro ⟨r, hr, hf⟩
      refine .inr (.inr (.inr ⟨hlen, ?_⟩))
      by_contra hno
      rcases hwrong hno with hnone | ⟨x, _, _, hne, hx⟩
      · exact absurd (hr.symm.trans hnone) (Option.some_ne_none r)
      · rw [hr] at hx
        obtain rfl := Option.some.inj hx
        exact hne (lex_eq_eq.mp (hf.found_iff.mp rfl).2)
    · rintro (h | h | h | h)
      · exact absurd h he
      · exact absurd h.1 hlen.not_gt
      · exact absurd h.1 hlen.ne'
      · obtain ⟨r, hr, hloc⟩ := hright h.2
        exact ⟨r, hr, (finds_iff_run t key r).mpr hloc⟩

/-- The tables and keys for which the search of the line tells whether the key
is stored, wherever it ends for a key that is not. -/
def HotLineExact (t : Table) (key : Key) : Prop :=
  (∀ p ∈ t.pairs, create p.key = 0) ∨
  if create key = 0 then ∀ i < t.size, t.keyAt i ≠ key
  else
    let p := runStart t (create key)
    let q := runStop t (create key)
    p = q ∨
      (key.length < N ∧ t.keyAt p = key) ∨
      (key.length = N ∧ ((t.keyAt p).length = N ∨ ∀ i < t.size, t.keyAt i ≠ key)) ∨
      (N < key.length ∧ EscapesShort t key p q)

/-- Without a match the answer is exact if the key is not stored. -/
theorem findsExact_absent_iff (t : Table) (key : Key) (pos : ℕ) :
    t.FindsExact key ⟨false, pos⟩ ↔ ∀ i < t.size, t.keyAt i ≠ key :=
  ⟨fun h => h.absent rfl, fun h => ⟨fun hf => Bool.noConfusion hf, fun _ => h⟩⟩

/-- A match in the table is exact if the key is there. -/
theorem findsExact_found_iff {t : Table} {pos : ℕ} (hpos : pos < t.size) (key : Key) :
    t.FindsExact key ⟨true, pos⟩ ↔ t.keyAt pos = key :=
  ⟨fun h => (h.found rfl).2, fun h => ⟨fun _ => ⟨hpos, h⟩, fun hf => Bool.noConfusion hf⟩⟩

/-- The answer is exact under the condition and only then. -/
theorem hotLineAnswer_findsExact_iff (t : Table) {key : Key} (hk : key ≠ []) :
    (∃ r, hotLineAnswer t key = some r ∧ t.FindsExact key r) ↔ HotLineExact t key := by
  have hfinds := hotLineAnswer_finds_iff t hk
  have hexact : HotLineRight t key → ∃ r, hotLineAnswer t key = some r ∧ t.FindsExact key r := by
    intro h
    obtain ⟨r, hr, hf⟩ := hfinds.mpr h
    exact ⟨r, hr, hf.exact⟩
  unfold HotLineRight at hexact
  unfold HotLineExact
  by_cases hall : ∀ p ∈ t.pairs, create p.key = 0
  · exact iff_of_true (hexact (.inl hall)) (.inl hall)
  simp only [hall, false_or] at hexact ⊢
  by_cases h0 : create key = 0
  · rw [hotLineAnswer, if_neg hall, if_pos (.inl h0), if_pos h0]
    simp only [Option.some.injEq, exists_eq_left', findsExact_absent_iff]
  rw [if_neg h0] at hexact ⊢
  by_cases he : runStart t (create key) = runStop t (create key)
  · exact iff_of_true (hexact (.inl he)) (.inl he)
  have hrun := run_of_lt (lt_of_le_of_ne (runStart_le_runStop t (create key)) he)
  have hsize := hrun.lt_size hrun.nonempty
  rcases lt_trichotomy key.length N with hlen | hlen | hlen
  · rw [hotLineAnswer, if_neg hall, if_neg (not_or.mpr ⟨h0, he⟩), if_pos hlen]
    simp only [Option.some.injEq, exists_eq_left', findsExact_found_iff hsize]
    constructor
    · exact fun h => .inr (.inl ⟨hlen, h⟩)
    · rintro (h | h | h | h)
      · exact absurd h he
      · exact h.2
      · exact absurd h.1 hlen.ne
      · exact absurd h.1 hlen.not_gt
  · by_cases hp : (t.keyAt (runStart t (create key))).length = N
    · exact iff_of_true (hexact (.inr (.inr (.inl ⟨hlen, hp.ge⟩))))
        (.inr (.inr (.inl ⟨hlen, .inl hp⟩)))
    · rw [hotLineAnswer, if_neg hall, if_neg (not_or.mpr ⟨h0, he⟩), if_neg hlen.not_lt,
        if_pos hlen, decide_eq_false hp]
      simp only [Option.some.injEq, exists_eq_left', findsExact_absent_iff]
      constructor
      · exact fun h => .inr (.inr (.inl ⟨hlen, .inr h⟩))
      · rintro (h | h | h | h)
        · exact absurd h he
        · exact absurd h.1 hlen.not_lt
        · exact h.2.resolve_left hp
        · exact absurd h.1 hlen.not_gt
  · constructor
    · rintro ⟨r, hr, hf⟩
      refine .inr (.inr (.inr ⟨hlen, ?_⟩))
      by_contra hno
      rw [hotLineAnswer, if_neg hall, if_neg (not_or.mpr ⟨h0, he⟩), if_neg hlen.not_gt,
        if_neg hlen.ne'] at hr
      rcases (searchBinaryIn_run hrun hlen).2 hno with hnone | ⟨x, _, _, hne, hx⟩
      · exact absurd (hr.symm.trans hnone) (Option.some_ne_none r)
      · rw [hr] at hx
        obtain rfl := Option.some.inj hx
        exact hne (hf.found rfl).2
    · rintro (h | h | h | h)
      · exact absurd h he
      · exact absurd h.1 hlen.not_gt
      · exact absurd h.1 hlen.ne'
      · exact hexact (.inr (.inr (.inr h)))

/-- The search of the line gives the result of plain search exactly under the
condition. -/
theorem searchHotLine_eq_searchBinary_iff (t : Table) (key : Key) (hk : key ≠ []) :
    searchHotLine key t (lineFile t) = searchBinary t key ↔ HotLineRight t key := by
  obtain ⟨r, hr, hf⟩ := searchBinary_finds t hk
  rw [searchHotLine_eq, ← hotLineAnswer_finds_iff t hk, hr]
  constructor
  · exact fun h => ⟨r, h, hf⟩
  · rintro ⟨r', hr', hf'⟩
    rw [hr', Locates.unique hf' hf]

/-- The condition at an eight-octet key that is stored, and the same key searched. -/
theorem searchHotLine_eq_searchBinary_stored :
    searchHotLine [49, 50, 51, 52, 53, 54, 55, 56]
        (Table.single (createTombstone [49, 50, 51, 52, 53, 54, 55, 56] 1))
        (lineFile (Table.single (createTombstone [49, 50, 51, 52, 53, 54, 55, 56] 1))) =
      searchBinary (Table.single (createTombstone [49, 50, 51, 52, 53, 54, 55, 56] 1))
        [49, 50, 51, 52, 53, 54, 55, 56] ↔
      HotLineRight (Table.single (createTombstone [49, 50, 51, 52, 53, 54, 55, 56] 1))
        [49, 50, 51, 52, 53, 54, 55, 56] :=
  searchHotLine_eq_searchBinary_iff _ _ (by decide)

/-- With `12345678` stored alone the search for `123456789` ends on it and
reports that the key was found. -/
theorem searchHotLine_mistaken :
    searchHotLine [49, 50, 51, 52, 53, 54, 55, 56, 57]
        (Table.single (createTombstone [49, 50, 51, 52, 53, 54, 55, 56] 1))
        (lineFile (Table.single (createTombstone [49, 50, 51, 52, 53, 54, 55, 56] 1))) =
      some ⟨true, 0⟩ := by
  rw [searchHotLine_eq]
  have h1 : runStart (Table.single (createTombstone [49, 50, 51, 52, 53, 54, 55, 56] 1))
      (create [49, 50, 51, 52, 53, 54, 55, 56, 57]) = 0 := by decide
  have h2 : runStop (Table.single (createTombstone [49, 50, 51, 52, 53, 54, 55, 56] 1))
      (create [49, 50, 51, 52, 53, 54, 55, 56, 57]) = 1 := by decide
  rw [hotLineAnswer, h1, h2, if_neg (by decide), if_neg (by decide), if_neg (by decide),
    if_neg (by decide), searchBinaryIn, binarySearch, if_neg (by decide)]
  rfl

/-- The search of the line is not plain search for every table and key. -/
theorem searchHotLine_not_searchBinary : ¬ ∀ (t : Table) (key : Key), isKeyValid key →
    searchHotLine key t (lineFile t) = searchBinary t key := by
  intro h
  have heq := h (Table.single (createTombstone [49, 50, 51, 52, 53, 54, 55, 56] 1))
    [49, 50, 51, 52, 53, 54, 55, 56, 57] (by decide)
  rw [searchHotLine_mistaken] at heq
  have hf := (finds_iff_searchBinary _ (by decide) _).mpr heq.symm
  exact absurd (lex_eq_eq.mp (hf.found_iff.mp rfl).2) (by decide)

end HM4.HotLineSearch
