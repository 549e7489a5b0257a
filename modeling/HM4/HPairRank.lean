import HM4.HPair

/-!
# The order of `HPair::cmp`

`HPair::cmp` is the order of words that start with the number of a key and go on
with its tail, unless the number already says that there is none. Under its own
number every key has a word, and different keys may have the same one.
-/

namespace HM4.HPairRank

open LexPrefix Bytes MyString CmpLCP HPair

/-- The word by which a key under a number is ordered. -/
def rank (hkey : ℕ) (key : Key) : List ℤ :=
  (hkey : ℤ) :: if sizeCheck hkey hkey then [] else signedWord (key.drop N)

/-- `HPair::cmp` compares words. -/
theorem hpairCmp_eq_lex (a : ℕ) (s : Key) (b : ℕ) (k : Key) :
    hpairCmp a s b k = lex (rank a s) (rank b k) := by
  unfold hpairCmp rank
  by_cases h : a = b
  · subst h
    rw [hashCompare_self, lex_cons_self]
    dsimp only
    by_cases hs : sizeCheck a a = true
    · rw [if_pos hs, if_pos hs, if_pos hs]
      rfl
    · rw [if_neg hs, if_neg hs, if_neg hs, cmpX, compare_eq_lex_signedWord]
  · have hne : (a : ℤ) ≠ b := fun hc => h (Int.ofNat.inj hc)
    rw [hashCompare_of_ne h, lex_cons_of_ne hne]
    dsimp only
    rw [if_pos rfl]
    rcases lt_or_gt_of_ne h with hl | hg
    · have hl' : (a : ℤ) < b := Int.ofNat_lt.mpr hl
      rw [hl.cmp_eq_lt, hl'.cmp_eq_lt]
    · have hg' : (b : ℤ) < a := Int.ofNat_lt.mpr hg
      rw [hg.cmp_eq_gt, hg'.cmp_eq_gt]

/-- A smaller number is enough. -/
theorem rank_lt_of_lt {a b : ℕ} (h : a < b) (s k : Key) : rank a s < rank b k := by
  rw [← lex_eq_lt, ← hpairCmp_eq_lex]
  unfold hpairCmp
  rw [hashCompare_of_ne h.ne]
  dsimp only
  rw [if_pos rfl, h.cmp_eq_lt]

/-- Words are equal only under equal numbers. -/
theorem eq_of_rank_eq {a b : ℕ} {s k : Key} (h : rank a s = rank b k) : a = b := by
  unfold rank at h
  exact Int.ofNat.inj (List.cons.inj h).1

/-- The word of a key under its own number. -/
def rankOf (key : Key) : List ℤ := rank (create key) key

/-- The number of an entry is the one of its key, unless it says that there is no tail. -/
def HkeyFits (hkey : ℕ) (key : Key) : Prop :=
  hkey = create key ∨ sizeCheck hkey hkey = true

/-- An entry with the word of a key has the key, or its number says that there is no tail
and it has the number of the key. -/
theorem eq_or_of_rank_eq {a : ℕ} {s k : Key} (hfits : HkeyFits a s) (h : rank a s = rankOf k) :
    s = k ∨ sizeCheck a a = true := by
  by_cases hs : sizeCheck a a = true
  · exact .inr hs
  · have ha := eq_of_rank_eq h
    have hc : a = create s := hfits.resolve_right hs
    unfold rankOf rank at h
    rw [← ha, if_neg hs, if_neg hs] at h
    have ht := signedWord_injective (List.cons.inj h).2
    have hp : prefixBytes s = prefixBytes k := (create_eq_iff s k).mp (hc.symm.trans ha)
    have hz : (prefixBytes s).getLast? ≠ some 0 := fun hz => hs (by
      rw [hc]
      exact (sizeCheck_self s).mpr hz)
    have hls := length_of_getLast?_ne hz
    have hlk := length_of_getLast?_ne (hp ▸ hz)
    left
    rw [← List.take_append_drop N s, ← List.take_append_drop N k, ht, ← pad_eq_take hls,
      ← pad_eq_take hlk]
    exact congrArg (· ++ _) hp

/-- Without a tail the key does not matter. -/
theorem rank_of_sizeCheck {a : ℕ} (h : sizeCheck a a = true) (s : Key) : rank a s = [(a : ℤ)] := by
  unfold rank
  rw [if_pos h]

/-- Where the prefix decides, words are ordered as keys are. -/
theorem lex_rankOf {a b : Key} (h : PrefixDecides a b) : lex (rankOf a) (rankOf b) = lex a b := by
  unfold rankOf
  rw [← hpairCmp_eq_lex]
  exact (hpairCmp_eq_lex_iff a b).mpr h

end HM4.HPairRank
