import HM4.Database

/-!
# Life and death of a pair

A pair tells in three ways when it dies: it is alive or not at a reading of the clock, it has so
many seconds left, and there is a second in which it expires. The first two add up in 64 bits and
stop at the largest time, the third adds seconds in 32 bits and goes round. The largest expiration
is no expiration at all, but the mark of a tombstone.
-/

namespace HM4.Expiration

open Bytes Pairs PairFactory Database

/-- `Pair::getTTL` at a time. -/
def getTTL (now : UInt64) (p : Pair) : ℕ :=
  if p.expires = 0 then 0
  else if addTime p.created p.expires < now.toNat then 0
  else to32 (addTime p.created p.expires - now.toNat)

/-- A pair that is written with an expiration, or given one in place. -/
inductive Given (e : UInt32) : Pair → Prop
  | normal (key val : Key) (created : UInt32) (h : (normal key val e created).valid = true)
      (now : UInt64) (hval : val ≠ []) : Given e ((normal key val e created).create h now)
  | normalHint (key val : Key) (created : UInt32) (h : (normal key val e created).valid = true)
      (now : UInt64) (hval : val ≠ []) (old : Pair) (hold : old.key = key) :
      Given e ((normal key val e created).createHint h now old)
  | expires (key val : Key) (created : UInt32) (h : (expires key val e created).valid = true)
      (now : UInt64) (hval : val ≠ []) : Given e ((expires key val e created).create h now)
  | expiresHint (key val : Key) (created : UInt32) (h : (expires key val e created).valid = true)
      (now : UInt64) (old : Pair) (hval : old.val ≠ []) :
      Given e ((PairFactory.expires key val e created).createHint h now old)

/-- The three ways to tell when a pair dies agree. -/
structure Coherent (e : UInt32) (p : Pair) : Prop where
  /-- The pair is alive up to its end. -/
  alive : ∀ now : UInt64, isOK now p = true ↔ e = 0 ∨ now.toNat ≤ p.created + e.toNat * 2 ^ 32
  /-- A dead pair has no time left. -/
  ttl : ∀ now : UInt64, isOK now p = false → getTTL now p = 0
  /-- The pair expires in the second of its end, or in the last there is. -/
  expiresAt : e ≠ 0 → getExpiresAt p = min (to32 p.created + e.toNat) (2 ^ 32 - 1)

section Given

variable {e : UInt32} {p : Pair}

theorem Given.expires_eq (h : Given e p) : p.expires = e.toNat := by
  cases h with
  | normal | normalHint | expires | expiresHint => rfl

theorem Given.val_ne_nil (h : Given e p) : p.val ≠ [] := by
  cases h with
  | normal _ _ _ _ _ hval => exact hval
  | normalHint key val created h now hval old hold =>
    rw [normal_createHint now h hold]
    exact hval
  | expires _ _ _ _ _ hval => exact hval
  | expiresHint _ _ _ _ _ _ hval => exact hval

/-- Only the largest expiration makes a tombstone. -/
theorem Given.isTombstone_iff (h : Given e p) :
    p.isTombstone = true ↔ e.toNat = expiresTombstone := by
  have hval : p.val.length ≠ 0 := fun hlen => h.val_ne_nil (List.length_eq_zero_iff.mp hlen)
  unfold Pair.isTombstone
  rw [Bool.or_eq_true, beq_iff_eq, beq_iff_eq, h.expires_eq]
  exact or_iff_left hval

theorem toNat_eq_zero_iff : e.toNat = 0 ↔ e = 0 := UInt32.toNat_inj (b := 0)

/-- The end of a pair, which the sum in 64 bits never misses. -/
theorem addTime_lt_iff (created e : ℕ) (now : UInt64) :
    addTime created e < now.toNat ↔ created + e * 2 ^ 32 < now.toNat := by
  have hnow := now.toNat_lt
  unfold addTime
  split <;> omega

/-- A pair with a proper expiration is alive up to its end. -/
theorem Given.isOK_iff (h : Given e p) (hmark : e.toNat ≠ expiresTombstone) (now : UInt64) :
    isOK now p = true ↔ e = 0 ∨ now.toNat ≤ p.created + e.toNat * 2 ^ 32 := by
  have htomb : p.isTombstone = false := Bool.eq_false_iff.mpr fun ht =>
    hmark (h.isTombstone_iff.mp ht)
  unfold isOK isExpired
  rw [htomb, Bool.not_false, Bool.true_and, Bool.not_eq_true', decide_eq_false_iff_not,
    h.expires_eq, addTime_lt_iff, not_and, Nat.not_lt, ne_eq,
    toNat_eq_zero_iff, or_iff_not_imp_left]

/-- A pair that expired has no time left. -/
theorem getTTL_of_expired {now : UInt64} (h : addTime p.created p.expires < now.toNat) :
    getTTL now p = 0 := by
  unfold getTTL
  rw [if_pos h, ite_self]

/-- The second of the end is told as long as it has 32 bits. -/
theorem Given.getExpiresAt_eq_iff (h : Given e p) (hne : e ≠ 0) :
    getExpiresAt p = min (to32 p.created + e.toNat) (2 ^ 32 - 1) ↔
      to32 p.created + e.toNat < 2 ^ 32 := by
  have hcreated := p.created_lt
  have he := e.toNat_lt
  have hzero : p.expires ≠ 0 := by
    rw [h.expires_eq]
    exact fun h0 => hne (toNat_eq_zero_iff.mp h0)
  unfold getExpiresAt to32
  rw [if_neg hzero, h.expires_eq]
  omega

/-- The three ways agree for a pair that never expires, and for one with a proper expiration
whose end has a second of 32 bits; for no other. -/
theorem coherent_iff (h : Given e p) :
    Coherent e p ↔
      e = 0 ∨ e.toNat ≠ expiresTombstone ∧ to32 p.created + e.toNat < 2 ^ 32 := by
  constructor
  · intro hc
    rw [or_iff_not_imp_left]
    intro hne
    refine ⟨fun hmark => ?_, (h.getExpiresAt_eq_iff hne).mp (hc.expiresAt hne)⟩
    have hdead := isOK_of_isTombstone (h.isTombstone_iff.mpr hmark) 0
    have halive := (hc.alive 0).mpr (Or.inr (Nat.zero_le _))
    rw [hdead] at halive
    cases halive
  · intro hcond
    have hmark : e.toNat ≠ expiresTombstone := by
      rcases hcond with rfl | hcond
      · decide
      · exact hcond.1
    have halive := h.isOK_iff hmark
    refine ⟨halive, fun now hdead => ?_, fun hne => ?_⟩
    · have hnot : ¬(e = 0 ∨ now.toNat ≤ p.created + e.toNat * 2 ^ 32) := by
        rw [← halive now, hdead]
        exact Bool.false_ne_true
      obtain ⟨_, hlate⟩ := not_or.mp hnot
      refine getTTL_of_expired ?_
      rw [h.expires_eq, addTime_lt_iff]
      exact Nat.not_le.mp hlate
    · exact (h.getExpiresAt_eq_iff hne).mpr (hcond.resolve_left hne).2

end Given

/-- A pair that lives for a minute. -/
theorem coherent_iff_minute :
    Given 60 ((normal [107] [118] 60 1).create (by decide) 0) ∧
      Coherent 60 ((normal [107] [118] 60 1).create (by decide) 0) :=
  have h := Given.normal (e := 60) [107] [118] 1 (by decide) 0 (by decide)
  ⟨h, (coherent_iff h).mpr (Or.inr (by decide))⟩

/-- A pair with the largest expiration is dead at once, and one with the second largest,
written in the fifth second, is said to expire in the third. -/
theorem not_coherent :
    ¬Coherent 0xFFFFFFFF ((normal [107] [118] 0xFFFFFFFF 1).create (by decide) 0) ∧
      ¬Coherent 0xFFFFFFFE ((normal [107] [118] 0xFFFFFFFE 5).create (by decide) 0) := by
  constructor
  · intro h
    have hgiven := Given.normal (e := 0xFFFFFFFF) [107] [118] 1 (by decide) 0 (by decide)
    have halive := (h.alive 0).mpr (Or.inr (Nat.zero_le _))
    rw [isOK_of_isTombstone (hgiven.isTombstone_iff.mpr (by decide)) 0] at halive
    cases halive
  · intro h
    have hgiven := Given.normal (e := 0xFFFFFFFE) [107] [118] 5 (by decide) 0 (by decide)
    have hlt := (hgiven.getExpiresAt_eq_iff (by decide)).mp (h.expiresAt (by decide))
    revert hlt
    decide

end HM4.Expiration
