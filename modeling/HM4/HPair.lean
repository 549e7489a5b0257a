import HM4.MyString
import HM4.CmpLCP

/-!
# Eight-octet key prefixes and the agreement of the comparators

`StringHash` turns the first eight octets of a key, filled up with zeros, into
a big-endian number. `HPair` compares these numbers first and the tails of the
keys after them. The numbers forget how many zeros were filled in, and the last
of the eight octets is all that tells whether both keys reach the tail.
-/

namespace HM4.HPair

open LexPrefix Bytes MyString CmpLCP

/-- The octets in an `HKey`. -/
abbrev N : ℕ := 8

/-- The union of `StringHash::create__` after it was zeroed and overlaid with
at most `N` octets of the key. -/
def prefixBytes (s : Key) : Key := pad N s

/-- `StringHash::create` in host order. -/
def create (s : Key) : ℕ := betoh N (leValue (prefixBytes s))

/-- `MASK`: the octet of the host value that the last of the `N` octets becomes. -/
def mask : ℕ := htobe N (0xFF <<< ((N - 1) * 8))

/-- `sizeCheck__`: whether the result may be used as it is. -/
def sizeCheck (a b : ℕ) : Bool := (a ||| b) &&& mask == 0

/-- `StringHash::compare`: whether the sign is final, and the sign. -/
def hashCompare (a b : ℕ) : Bool × Ordering :=
  if cmp a b ≠ .eq then (true, cmp a b) else (sizeCheck a b, .eq)

/-- `Pair::cmpX<start>`: the keys from an offset that both have. -/
def cmpX (start : ℕ) (srcKey key : Key) : Ordering :=
  MyString.compare (srcKey.drop start) (key.drop start)

/-- `HPair::cmp`: numbers first, tails when the numbers do not settle it. -/
def hpairCmp (srcHkey : ℕ) (srcKey : Key) (hkey : ℕ) (key : Key) : Ordering :=
  let (ok, result) := hashCompare srcHkey hkey
  if ok then result else cmpX N srcKey key

@[simp] theorem prefixBytes_length (s : Key) : (prefixBytes s).length = N := pad_length N s

/-- The number of a key is its filled prefix read with the first octet highest. -/
theorem create_eq (s : Key) : create s = beValue (prefixBytes s) :=
  betoh_leValue (prefixBytes_length s)

/-- Numbers are ordered as the filled prefixes are. -/
theorem cmp_create (a b : Key) : cmp (create a) (create b) = lex (prefixBytes a) (prefixBytes b) := by
  rw [create_eq, create_eq]
  exact cmp_beValue ((prefixBytes_length a).trans (prefixBytes_length b).symm)

/-- Numbers are equal exactly when the filled prefixes are. -/
theorem create_eq_iff (a b : Key) : create a = create b ↔ prefixBytes a = prefixBytes b := by
  rw [← cmp_eq_eq_iff, cmp_create, lex_eq_eq]

/-- Different filled prefixes order the keys. -/
theorem cmp_create_of_ne {a b : Key} (h : prefixBytes a ≠ prefixBytes b) :
    cmp (create a) (create b) = lex a b := by
  rw [cmp_create]
  exact lex_pad h

theorem create_le_create {a b : Key} (h : a ≤ b) : create a ≤ create b := by
  by_contra hlt
  have hne : prefixBytes a ≠ prefixBytes b := by
    intro he
    exact hlt ((create_eq_iff a b).mpr he).le
  have hc := cmp_create_of_ne hne
  rw [(not_le.mp hlt).cmp_eq_gt] at hc
  exact absurd (lex_eq_gt.mp hc.symm) (not_lt.mpr h)

theorem mask_eq : mask = 255 := by decide

/-- The last octet that `sizeCheck__` looks at. -/
theorem sizeCheck_self (s : Key) :
    sizeCheck (create s) (create s) = true ↔ (prefixBytes s).getLast? = some 0 := by
  obtain ⟨b, hb⟩ : ∃ b, (prefixBytes s).getLast? = some b := by
    cases h : (prefixBytes s).getLast? with
    | some b => exact ⟨b, rfl⟩
    | none =>
      have hl := prefixBytes_length s
      rw [List.getLast?_eq_none_iff.mp h] at hl
      exact absurd hl (by decide)
  have hm : create s % 2 ^ 8 = b.val := by
    rw [create_eq]
    exact beValue_mod hb
  have hmask : mask = 2 ^ 8 - 1 := mask_eq
  unfold sizeCheck
  rw [Nat.or_self, beq_iff_eq, hmask, Nat.and_two_pow_sub_one_eq_mod, hm, hb]
  simp only [Option.some.injEq]
  exact Fin.val_eq_zero_iff

/-- A key whose filled prefix does not end in zero has at least `N` octets. -/
theorem length_of_getLast?_ne {s : Key} (h : (prefixBytes s).getLast? ≠ some 0) :
    N ≤ s.length := by
  by_contra hc
  exact h (pad_getLast? (Nat.lt_of_not_le hc))

/-- What `HPair::cmp` needs of two keys to tell their order: if they agree in
the filled prefix although they differ, the last of its octets is not zero and
the tails do not start on different sides of 0x80. -/
def PrefixDecides (a b : Key) : Prop :=
  prefixBytes a = prefixBytes b → a ≠ b →
    (prefixBytes a).getLast? ≠ some 0 ∧ SameHalfHead (a.drop N) (b.drop N)

instance (a b : Key) : Decidable (PrefixDecides a b) :=
  inferInstanceAs (Decidable (prefixBytes a = prefixBytes b → a ≠ b →
    (prefixBytes a).getLast? ≠ some 0 ∧ SameHalfHead (a.drop N) (b.drop N)))

/-- Different numbers give a final sign. -/
theorem hashCompare_of_ne {a b : ℕ} (h : a ≠ b) : hashCompare a b = (true, cmp a b) :=
  if_pos (fun he => h ((cmp_eq_eq_iff _ _).mp he))

/-- Equal numbers are final only under `sizeCheck__`. -/
theorem hashCompare_self (a : ℕ) : hashCompare a a = (sizeCheck a a, .eq) :=
  if_neg (not_not.mpr (cmp_self_eq_eq a))

/-- The comparison of keys under their own numbers, case by case. -/
theorem hpairCmp_create (a b : Key) : hpairCmp (create a) a (create b) b =
    if prefixBytes a ≠ prefixBytes b then lex a b
    else if (prefixBytes a).getLast? = some 0 then .eq
    else MyString.compare (a.drop N) (b.drop N) := by
  unfold hpairCmp
  by_cases h : prefixBytes a = prefixBytes b
  · have he : create a = create b := (create_eq_iff a b).mpr h
    rw [if_neg (not_not.mpr h), ← he, hashCompare_self]
    dsimp only
    by_cases hz : (prefixBytes a).getLast? = some 0
    · have hs : sizeCheck (create a) (create a) = true := (sizeCheck_self a).mpr hz
      rw [hs, if_pos rfl, if_pos hz]
    · have hs : sizeCheck (create a) (create a) = false :=
        Bool.eq_false_iff.mpr (fun hs => hz ((sizeCheck_self a).mp hs))
      rw [hs, if_neg Bool.false_ne_true, if_neg hz, cmpX]
  · have hne : create a ≠ create b := fun he => h ((create_eq_iff a b).mp he)
    rw [if_pos h, hashCompare_of_ne hne]
    dsimp only
    rw [if_pos rfl, cmp_create_of_ne h]

/-- Keys of equal filled prefix without a final zero compare as their tails do. -/
theorem lex_tails {a b : Key} (hp : prefixBytes a = prefixBytes b)
    (hz : (prefixBytes a).getLast? ≠ some 0) : lex a b = lex (a.drop N) (b.drop N) := by
  have ha := length_of_getLast?_ne hz
  have hb := length_of_getLast?_ne (hp ▸ hz)
  apply lex_drop
  rw [← pad_eq_take ha, ← pad_eq_take hb]
  exact hp

/-- `HPair::cmp` is the order of octets exactly where the prefix decides. -/
theorem hpairCmp_eq_lex_iff (a b : Key) :
    hpairCmp (create a) a (create b) b = lex a b ↔ PrefixDecides a b := by
  rw [hpairCmp_create]
  unfold PrefixDecides
  by_cases hab : a = b
  · subst hab
    simp only [ne_eq, not_true_eq_false, if_false, lex_self, false_imp_iff, imp_true_iff, iff_true]
    split
    · rfl
    · exact compare_eq_eq.mpr rfl
  by_cases hp : prefixBytes a = prefixBytes b
  · rw [if_neg (not_not.mpr hp)]
    by_cases hz : (prefixBytes a).getLast? = some 0
    · rw [if_pos hz]
      constructor
      · intro h
        exact absurd (lex_eq_eq.mp h.symm) hab
      · intro h
        exact absurd hz (h hp hab).1
    · rw [if_neg hz, lex_tails hp hz, compare_eq_lex_iff]
      exact ⟨fun h _ _ => ⟨hz, h⟩, fun h => (h hp hab).2⟩
  · rw [if_pos hp]
    exact iff_of_true rfl (fun h => absurd h hp)

/-- All comparators report the order of octets. -/
def ComparatorsAgree (a b : Key) : Prop :=
  MyString.compare a b = lex a b ∧ (cmpLCP a b).cmp = lex a b ∧
    hpairCmp (create a) a (create b) b = lex a b

/-- The comparators agree on two keys exactly when the first octets lie on one
side of 0x80 and the eight-octet prefix decides. -/
theorem comparatorsAgree_iff (a b : Key) (ha : a ≠ []) (hb : b ≠ []) :
    ComparatorsAgree a b ↔ SameHalfHead a b ∧ PrefixDecides a b := by
  unfold ComparatorsAgree
  rw [compare_eq_lex_iff, hpairCmp_eq_lex_iff, cmpLCP_eq ha hb]
  simp only [true_and]

/-- The agreement of `k` and of a key that differs from it only behind the prefix. -/
theorem comparatorsAgree_iff_tails :
    ComparatorsAgree [49, 50, 51, 52, 53, 54, 55, 56, 57] [49, 50, 51, 52, 53, 54, 55, 56, 200] ↔
      SameHalfHead [49, 50, 51, 52, 53, 54, 55, 56, 57]
          [49, 50, 51, 52, 53, 54, 55, 56, 200] ∧
        PrefixDecides [49, 50, 51, 52, 53, 54, 55, 56, 57]
          [49, 50, 51, 52, 53, 54, 55, 56, 200] :=
  comparatorsAgree_iff _ _ (by decide) (by decide)

/-- Keys of 1 to 1023 octets on which the comparators do not agree: an ASCII
letter and the first octet of a two-octet UTF-8 character. -/
theorem comparators_disagree : ¬ ∀ a b : Key, 1 ≤ a.length → a.length ≤ 1023 →
    1 ≤ b.length → b.length ≤ 1023 → ComparatorsAgree a b := by
  intro h
  have hc := (h [97] [195, 169] (by decide) (by decide) (by decide) (by decide)).1
  exact absurd hc (by decide)

end HM4.HPair
