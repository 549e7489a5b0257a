import Mathlib.Data.List.Basic
import Mathlib.Data.List.Nodup
import Mathlib.Data.List.Perm.Subperm
import Mathlib.Logic.Function.Basic

/-!
# Open addressing with replacement

Each key has its own order of the cells. An entry goes into the first cell in that order that is
free or holds its key, so that it replaces an older entry of the key. As long as cells are never
freed, a search in the same order finds the last entry that was put for a key.
-/

namespace HM4.ProbeTable

variable {K V : Type*} [DecidableEq K] (key : V → K)

/-- The first of some cells that is free or holds the key. -/
def locate (cells : ℕ → Option V) (k : K) : List ℕ → Option ℕ
  | [] => none
  | c :: cs =>
    match cells c with
    | none => some c
    | some v => if key v = k then some c else locate cells k cs

attribute [local simp] locate

/-- The table with one more entry; a full table stays as it is. -/
def insert (probes : K → List ℕ) (cells : ℕ → Option V) (v : V) : ℕ → Option V :=
  match locate key cells (key v) (probes (key v)) with
  | none => cells
  | some c => Function.update cells c (some v)

/-- The entry of a key. -/
def find (probes : K → List ℕ) (cells : ℕ → Option V) (k : K) : Option V :=
  (locate key cells k (probes k)).bind cells

/-- Each entry is where a search for its key stops. -/
def Reached (probes : K → List ℕ) (cells : ℕ → Option V) : Prop :=
  ∀ c v, cells c = some v → locate key cells (key v) (probes (key v)) = some c

variable {key} {cells : ℕ → Option V} {k : K} {c d : ℕ} {cs : List ℕ} {v w : V}

/-- Where a search stops is free or holds the key. -/
theorem locate_some (h : locate key cells k cs = some c) (hc : cells c = some v) : key v = k := by
  induction cs with
  | nil => exact nomatch h
  | cons d cs ih =>
    rw [locate] at h
    split at h
    · next hd => rw [Option.some.inj h, hc] at hd; exact nomatch hd
    · next w hd =>
      split at h
      · next hw =>
        rw [Option.some.inj h, hc] at hd
        exact Option.some.inj hd ▸ hw
      · exact ih h

/-- A search that stops nowhere has seen taken cells only. -/
theorem locate_none (h : locate key cells k cs = none) : ∀ c ∈ cs, ∃ v, cells c = some v := by
  induction cs with
  | nil => exact fun c hc => absurd hc List.not_mem_nil
  | cons d cs ih =>
    rw [locate] at h
    split at h
    · exact nomatch h
    · next w hd =>
      split at h
      · exact nomatch h
      · exact List.forall_mem_cons.mpr ⟨⟨w, hd⟩, ih h⟩

/-- The entry that was put is where the search stopped. -/
theorem locate_update_self (h : locate key cells (key v) cs = some c) :
    locate key (Function.update cells c (some v)) (key v) cs = some c := by
  induction cs with
  | nil => exact nomatch h
  | cons d cs ih =>
    rw [locate] at h ⊢
    by_cases hdc : d = c
    · rw [hdc, Function.update_self]
      dsimp only
      rw [if_pos rfl]
    · rw [Function.update_of_ne hdc]
      split at h
      · exact absurd (Option.some.inj h) hdc
      · next w hd =>
        split at h
        · exact absurd (Option.some.inj h) hdc
        · next hw =>
          rw [if_neg hw]
          exact ih h

/-- A search for another key stops where it stopped before. -/
theorem locate_update_of_ne (h : locate key cells k cs = some d) (hk : key v ≠ k) (hd : d ≠ c) :
    locate key (Function.update cells c (some v)) k cs = some d := by
  induction cs with
  | nil => exact nomatch h
  | cons e cs ih =>
    rw [locate] at h ⊢
    by_cases hec : e = c
    · rw [hec, Function.update_self]
      dsimp only
      rw [if_neg hk]
      split at h
      · exact absurd ((Option.some.inj h).symm.trans hec) hd
      · split at h
        · exact absurd ((Option.some.inj h).symm.trans hec) hd
        · exact ih h
    · rw [Function.update_of_ne hec]
      cases he : cells e with
      | none => rwa [he] at h
      | some w =>
        rw [he] at h
        dsimp only at h ⊢
        by_cases hw : key w = k
        · rwa [if_pos hw] at h ⊢
        · rw [if_neg hw] at h ⊢
          exact ih h

/-- If the entries have places of their own and there are fewer places than cells to try, each
search stops. -/
theorem exists_locate {place : ℕ → ℕ} {n : ℕ} (hnodup : cs.Nodup) (hlen : n < cs.length)
    (hplace : ∀ c v, cells c = some v → place c < n)
    (hinj : ∀ c d v w, cells c = some v → cells d = some w → place c = place d → c = d) :
    ∃ c, locate key cells k cs = some c := by
  cases hloc : locate key cells k cs with
  | some c => exact ⟨c, rfl⟩
  | none =>
    have htaken := locate_none hloc
    have hplaces : (cs.map place).Nodup := by
      refine List.Nodup.map_on (fun c hc d hd heq => ?_) hnodup
      obtain ⟨v, hv⟩ := htaken c hc
      obtain ⟨w, hw⟩ := htaken d hd
      exact hinj c d v w hv hw heq
    have hsub : cs.map place ⊆ List.range n := fun i hi => by
      obtain ⟨c, hc, rfl⟩ := List.mem_map.mp hi
      obtain ⟨v, hv⟩ := htaken c hc
      exact List.mem_range.mpr (hplace c v hv)
    have hle := (List.subperm_of_subset hplaces hsub).length_le
    rw [List.length_map, List.length_range] at hle
    omega

section Table

variable {probes : K → List ℕ}

/-- A search finds exactly the entries that the table holds. -/
theorem find_eq_some_iff (h : Reached key probes cells) :
    find key probes cells k = some v ↔ key v = k ∧ ∃ c, cells c = some v := by
  constructor
  · intro hf
    obtain ⟨c, hloc, hc⟩ := Option.bind_eq_some_iff.mp hf
    exact ⟨locate_some hloc hc, c, hc⟩
  · rintro ⟨rfl, c, hc⟩
    exact Option.bind_eq_some_iff.mpr ⟨c, h c v hc, hc⟩

theorem insert_eq (hloc : locate key cells (key v) (probes (key v)) = some c) :
    insert key probes cells v = Function.update cells c (some v) := by
  rw [insert, hloc]

/-- The entries after one more was put. -/
theorem Reached.insert (h : Reached key probes cells)
    (hloc : locate key cells (key v) (probes (key v)) = some c) :
    Reached key probes (insert key probes cells v) ∧
      ∀ w, (∃ d, ProbeTable.insert key probes cells v d = some w) ↔
        w = v ∨ key v ≠ key w ∧ ∃ d, cells d = some w := by
  rw [insert_eq hloc]
  refine ⟨fun d w hd => ?_, fun w => ⟨fun ⟨d, hd⟩ => ?_, fun hw => ?_⟩⟩
  · by_cases hdc : d = c
    · rw [hdc, Function.update_self] at hd
      obtain rfl := Option.some.inj hd
      rw [hdc]
      exact locate_update_self hloc
    · rw [Function.update_of_ne hdc] at hd
      have hold := h d w hd
      refine locate_update_of_ne hold (fun heq => hdc ?_) hdc
      rw [← heq, hloc] at hold
      exact (Option.some.inj hold).symm
  · by_cases hdc : d = c
    · rw [hdc, Function.update_self] at hd
      exact .inl (Option.some.inj hd).symm
    · rw [Function.update_of_ne hdc] at hd
      have hold := h d w hd
      refine .inr ⟨fun heq => hdc ?_, d, hd⟩
      rw [← heq, hloc] at hold
      exact (Option.some.inj hold).symm
  · rcases hw with rfl | ⟨hne, d, hd⟩
    · exact ⟨c, Function.update_self ..⟩
    · refine ⟨d, ?_⟩
      have hdc : d ≠ c := by
        rintro rfl
        exact hne (locate_some hloc hd).symm
      rw [Function.update_of_ne hdc, hd]

/-- After a put the key has the entry that was put, and the other keys have what they had. -/
theorem find_insert (h : Reached key probes cells)
    (hloc : locate key cells (key v) (probes (key v)) = some c) (k : K) :
    find key probes (insert key probes cells v) k =
      if key v = k then some v else find key probes cells k := by
  obtain ⟨hreach, hmem⟩ := h.insert hloc
  refine Option.ext fun w => ?_
  rw [find_eq_some_iff hreach, hmem]
  by_cases hk : key v = k
  · rw [if_pos hk]
    constructor
    · rintro ⟨hw, rfl | ⟨hne, -⟩⟩
      · rfl
      · exact absurd (hk.trans hw.symm) hne
    · intro hv
      obtain rfl := Option.some.inj hv
      exact ⟨hk, .inl rfl⟩
  · rw [if_neg hk, find_eq_some_iff h]
    constructor
    · rintro ⟨hw, rfl | ⟨-, hd⟩⟩
      · exact absurd hw hk
      · exact ⟨hw, hd⟩
    · rintro ⟨hw, hd⟩
      exact ⟨hw, .inr ⟨fun heq => hk (heq.trans hw), hd⟩⟩

end Table

end HM4.ProbeTable
