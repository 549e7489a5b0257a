import Mathlib.Data.List.Perm.Basic
import Mathlib.Data.List.MinMax
import Mathlib.Order.Basic

/-!
# Scanning for the newest value with skipped sources

A scan over sources keeps the newest value met so far and skips a source when
this value is newer than the bound the source declares. Whether the scan ends
with a newest value in every order of the sources depends on one source only:
one that holds a newest value and declares a bound that no older value exceeds.
-/

namespace HM4.PrunedScan

variable {α : Type*} (time : α → ℕ)

/-- A source: the declared bound and the value it would give. -/
structure Source (α : Type*) where
  /-- The declared bound on the time of the value. -/
  bound : ℕ
  /-- The value, if there is one. -/
  value : Option α

/-- The newer of a candidate and the value kept so far, which wins ties. -/
def newer (value : Option α) (best : α) : α :=
  match value with
  | none => best
  | some a => if time best < time a then a else best

/-- One source of the scan. -/
def step (best : Option α) (s : Source α) : Option α :=
  match best with
  | none => s.value
  | some b => if s.bound < time b then some b else some (newer time s.value b)

/-- The scan over all sources. -/
def scan (ss : List (Source α)) : Option α := ss.foldl (step time) none

/-- A value is newest among the values of the sources; nothing is, if they have none. -/
def IsNewest (ss : List (Source α)) : Option α → Prop
  | none => ∀ s ∈ ss, s.value = none
  | some p => (∃ s ∈ ss, s.value = some p) ∧ ∀ s ∈ ss, ∀ q, s.value = some q → time q ≤ time p

/-- There is no value, or a source of a newest value has a bound that no older
value exceeds. -/
def BoundSuffices (ss : List (Source α)) : Prop :=
  (∀ s ∈ ss, s.value = none) ∨
    ∃ m ∈ ss, ∃ p, m.value = some p ∧
      ∀ s ∈ ss, ∀ q, s.value = some q → time q ≤ time p ∧ (time q < time p → time q ≤ m.bound)

variable {time}

variable (time) in
theorem newer_eq (value : Option α) (best : α) :
    newer time value best = best ∨ value = some (newer time value best) := by
  unfold newer
  cases value with
  | none => exact .inl rfl
  | some a =>
    dsimp only
    split
    · exact .inr rfl
    · exact .inl rfl

theorem le_newer_best (value : Option α) (best : α) : time best ≤ time (newer time value best) := by
  unfold newer
  cases value with
  | none => exact le_rfl
  | some a =>
    dsimp only
    split
    · next h => exact h.le
    · exact le_rfl

theorem le_newer_value {a : α} (best : α) : time a ≤ time (newer time (some a) best) := by
  unfold newer
  dsimp only
  split
  · exact le_rfl
  · next h => exact not_lt.mp h

/-- The order of the sources does not matter for what is newest. -/
theorem IsNewest.perm {ss es : List (Source α)} (h : es.Perm ss) {best : Option α} :
    IsNewest time es best ↔ IsNewest time ss best := by
  cases best with
  | none => simp only [IsNewest, h.mem_iff]
  | some p => simp only [IsNewest, h.mem_iff]

theorem BoundSuffices.perm {ss es : List (Source α)} (h : es.Perm ss) :
    BoundSuffices time es ↔ BoundSuffices time ss := by
  simp only [BoundSuffices, h.mem_iff]

/-- What the scan keeps is the value of some source. -/
theorem scan_mem {ss : List (Source α)} {b : Option α} {p : α}
    (h : ss.foldl (step time) b = some p) : b = some p ∨ ∃ s ∈ ss, s.value = some p := by
  induction ss generalizing b with
  | nil => exact .inl h
  | cons s ss ih =>
    rcases ih h with hb | ⟨s', hs', hv⟩
    · cases b with
      | none => exact .inr ⟨s, List.mem_cons_self, hb⟩
      | some a =>
        rw [step] at hb
        split at hb
        · exact .inl hb
        · rcases newer_eq time s.value a with he | he
          · rw [he] at hb
            exact .inl hb
          · exact .inr ⟨s, List.mem_cons_self, he.trans hb⟩
    · exact .inr ⟨s', List.mem_cons_of_mem s hs', hv⟩

variable (time) in
/-- What the scan keeps does not get older. -/
theorem le_scan (ss : List (Source α)) (a : α) :
    ∃ p, ss.foldl (step time) (some a) = some p ∧ time a ≤ time p := by
  induction ss generalizing a with
  | nil => exact ⟨a, rfl, le_rfl⟩
  | cons s ss ih =>
    rw [List.foldl_cons, step]
    split
    · exact ih a
    · obtain ⟨p, hp, hle⟩ := ih (newer time s.value a)
      exact ⟨p, hp, (le_newer_best s.value a).trans hle⟩

/-- A source whose bound no older value exceeds is not passed without its value. -/
theorem scan_reaches {ss : List (Source α)} {m : Source α} {p : α} (hm : m ∈ ss)
    (hp : m.value = some p) {b : Option α}
    (hb : ∀ q, b = some q → time q < time p → time q ≤ m.bound)
    (hss : ∀ s ∈ ss, ∀ q, s.value = some q → time q < time p → time q ≤ m.bound) :
    ∃ r, ss.foldl (step time) b = some r ∧ time p ≤ time r := by
  induction ss generalizing b with
  | nil => exact absurd hm List.not_mem_nil
  | cons s ss ih =>
    rcases List.mem_cons.mp hm with rfl | hm'
    · -- the source itself: the value kept is at least as new, or it is looked at
      rw [List.foldl_cons]
      cases b with
      | none =>
        rw [step, hp]
        exact le_scan time ss p
      | some a =>
        rw [step]
        split
        · next hskip =>
          obtain ⟨r, hr, hle⟩ := le_scan time ss a
          refine ⟨r, hr, le_trans ?_ hle⟩
          by_contra hc
          exact absurd (hb a rfl (not_le.mp hc)) (not_le.mpr hskip)
        · rw [hp]
          obtain ⟨r, hr, hle⟩ := le_scan time ss (newer time (some p) a)
          exact ⟨r, hr, (le_newer_value a).trans hle⟩
    · refine ih hm' ?_ (fun s' hs' => hss s' (List.mem_cons_of_mem s hs'))
      intro q hq hlt
      cases b with
      | none => exact hss s List.mem_cons_self q hq hlt
      | some a =>
        rw [step] at hq
        split at hq
        · exact hb q hq hlt
        · rcases newer_eq time s.value a with he | he
          · rw [he] at hq
            exact hb q hq hlt
          · exact hss s List.mem_cons_self q (he.trans hq) hlt

/-- A value stays if every source with a newer one is skipped because of it. -/
theorem scan_stays {ss : List (Source α)} {a : α}
    (h : ∀ s ∈ ss, ∀ q, s.value = some q → time a < time q → s.bound < time a) :
    ss.foldl (step time) (some a) = some a := by
  induction ss with
  | nil => rfl
  | cons s ss ih =>
    have hrest := ih (fun s' hs' => h s' (List.mem_cons_of_mem s hs'))
    rw [List.foldl_cons, step]
    split
    · exact hrest
    · next hbound =>
      have hn : newer time s.value a = a := by
        cases hv : s.value with
        | none => rfl
        | some q =>
          unfold newer
          dsimp only
          rw [if_neg (fun hlt => hbound (h s List.mem_cons_self q hv hlt))]
      rw [hn]
      exact hrest

variable (time) in
/-- A nonempty collection of values has a newest one. -/
theorem exists_newest {ss : List (Source α)} (P : α → Prop)
    (h : ∃ s ∈ ss, ∃ p, s.value = some p ∧ P p) :
    ∃ s ∈ ss, ∃ p, s.value = some p ∧ P p ∧
      ∀ s' ∈ ss, ∀ q, s'.value = some q → P q → time q ≤ time p := by
  induction ss with
  | nil => exact absurd h.choose_spec.1 List.not_mem_nil
  | cons s ss ih =>
    by_cases hrest : ∃ s ∈ ss, ∃ p, s.value = some p ∧ P p
    · obtain ⟨s1, hs1, p1, hv1, hP1, hmax⟩ := ih hrest
      by_cases hhead : ∃ p, s.value = some p ∧ P p ∧ time p1 ≤ time p
      · obtain ⟨p, hv, hP, hle⟩ := hhead
        refine ⟨s, List.mem_cons_self, p, hv, hP, List.forall_mem_cons.mpr ⟨?_, ?_⟩⟩
        · intro q hq _
          rw [hv] at hq
          rw [Option.some.inj hq]
        · exact fun s' hs' q hq hPq => (hmax s' hs' q hq hPq).trans hle
      · refine ⟨s1, List.mem_cons_of_mem s hs1, p1, hv1, hP1,
          List.forall_mem_cons.mpr ⟨?_, hmax⟩⟩
        intro q hq hPq
        by_contra hc
        exact hhead ⟨q, hq, hPq, (not_le.mp hc).le⟩
    · obtain ⟨s', hs', p, hv, hP⟩ := h
      rcases List.mem_cons.mp hs' with rfl | hs''
      · refine ⟨s', List.mem_cons_self, p, hv, hP, List.forall_mem_cons.mpr ⟨?_, ?_⟩⟩
        · intro q hq _
          rw [hv] at hq
          rw [Option.some.inj hq]
        · exact fun t ht q hq hPq => absurd ⟨t, ht, q, hq, hPq⟩ hrest
      · exact absurd ⟨s', hs'', p, hv, hP⟩ hrest

/-- Where the bounds suffice the scan ends with a newest value. -/
theorem scan_isNewest {ss : List (Source α)} (h : BoundSuffices time ss) :
    IsNewest time ss (scan time ss) := by
  rcases h with hnone | ⟨m, hm, p, hp, hbound⟩
  · have hscan : scan time ss = none := by
      cases hs : scan time ss with
      | none => rfl
      | some q =>
        rcases scan_mem hs with hb | ⟨s, hs', hv⟩
        · exact hb.symm
        · rw [hnone s hs'] at hv
          exact absurd hv (Option.some_ne_none q).symm
    rw [hscan]
    exact hnone
  · obtain ⟨r, hr, hle⟩ := scan_reaches hm hp (fun q hq => absurd hq (Option.some_ne_none q).symm)
      (fun s hs q hq => (hbound s hs q hq).2)
    have hscan : scan time ss = some r := hr
    rw [hscan]
    rcases scan_mem hr with hb | hmem
    · exact absurd hb (Option.some_ne_none r).symm
    · exact ⟨hmem, fun s hs q hq => (hbound s hs q hq).1.trans hle⟩

/-- The scan ends with a newest value in every order exactly if the bounds suffice. -/
theorem scan_isNewest_iff (ss : List (Source α)) :
    (∀ es, es.Perm ss → IsNewest time ss (scan time es)) ↔ BoundSuffices time ss := by
  constructor
  · intro hall
    by_contra hno
    have hsome : ∃ s ∈ ss, ∃ p, s.value = some p ∧ True := by
      by_contra hc
      refine hno (.inl fun s hs => ?_)
      cases hv : s.value with
      | none => rfl
      | some p => exact absurd ⟨s, hs, p, hv, trivial⟩ hc
    obtain ⟨m, hm, p, hp, -, hmax⟩ := exists_newest time (fun _ => True) hsome
    -- the newest of the older values, put first, hides every newest one
    have holder : ∃ s ∈ ss, ∃ q, s.value = some q ∧ time q < time p := by
      by_contra hc
      refine hno (.inr ⟨m, hm, p, hp, fun s hs q hq => ⟨hmax s hs q hq trivial, fun hlt => ?_⟩⟩)
      exact absurd ⟨s, hs, q, hq, hlt⟩ hc
    obtain ⟨s, hs, q, hq, hlt, hqmax⟩ :=
      exists_newest time (fun q => time q < time p) holder
    obtain ⟨l1, l2, rfl⟩ := List.append_of_mem hs
    have hperm : (s :: (l1 ++ l2)).Perm (l1 ++ s :: l2) := List.perm_middle.symm
    have hstay : scan time (s :: (l1 ++ l2)) = some q := by
      rw [scan, List.foldl_cons, step, hq]
      apply scan_stays
      intro s' hs' q' hq' hlt'
      have hs'' : s' ∈ l1 ++ s :: l2 := hperm.subset (List.mem_cons_of_mem s hs')
      have heq : time q' = time p := by
        apply le_antisymm (hmax s' hs'' q' hq' trivial)
        by_contra hc
        exact absurd (hqmax s' hs'' q' hq' (not_le.mp hc)) (not_le.mpr hlt')
      by_contra hb
      refine hno (.inr ⟨s', hs'', q', hq', fun s2 hs2 q2 hq2 => ⟨?_, fun hlt2 => ?_⟩⟩)
      · rw [heq]
        exact hmax s2 hs2 q2 hq2 trivial
      · rw [heq] at hlt2
        exact (hqmax s2 hs2 q2 hq2 hlt2).trans (not_lt.mp hb)
    have hnewest := hall _ hperm
    rw [hstay] at hnewest
    exact absurd (hnewest.2 m hm p hp) (not_le.mpr hlt)
  · intro h es hperm
    exact (IsNewest.perm hperm).mp (scan_isNewest ((BoundSuffices.perm hperm).mpr h))

end HM4.PrunedScan
