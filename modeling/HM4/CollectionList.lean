import HM4.DiskSearch
import HM4.General.PrunedScan

/-!
# Point lookups over a collection of tables

The lookup goes through the tables in their order and hands the best pair so
far to each of them. A table compares its age with the bound it reads from its
metadata before it searches. That bound is its smallest creation time, so a
table whose newest pairs are newer than the best one may be skipped.
-/

namespace HM4.CollectionList

open Bytes Pairs BoundedSearch DiskTable FileMeta HashIndex DiskSearch PrunedScan

variable (hash : HashFunction)

/-- `CollectionList::getPair___` from a best pair. -/
def getPairBest (ds : List DiskList) (key : Key) (best : Option Pair) : Option (Option Pair) :=
  ds.foldlM (fun best d => d.getPairBest hash key best) best

/-- `CollectionList::getPair___`. -/
def getPair (ds : List DiskList) (key : Key) : Option (Option Pair) :=
  getPairBest hash ds key none

/-- Every table was asked without skipping any, and this is a newest pair among
the answers, or there is none. -/
def IsNewestLookup (ds : List DiskList) (key : Key) (best : Option Pair) : Prop :=
  (∀ d ∈ ds, d.getPair hash key ≠ none) ∧
    match best with
    | none => ∀ d ∈ ds, d.getPair hash key = some none
    | some p => (∃ d ∈ ds, d.getPair hash key = some (some p)) ∧
        ∀ d ∈ ds, ∀ q, d.getPair hash key = some (some q) → q.created ≤ p.created

/-- When skipping does no harm in any order: every search returns, and no table
has the key, or a table with a newest version has no pair at all that is older
than some older version of the key in another table. -/
def SkippingSafe (ds : List DiskList) (key : Key) : Prop :=
  (∀ d ∈ ds, d.getPair hash key ≠ none) ∧
    ((∀ d ∈ ds, d.getPair hash key = some none) ∨
      ∃ m ∈ ds, ∃ p, m.getPair hash key = some (some p) ∧
        ∀ d ∈ ds, ∀ q, d.getPair hash key = some (some q) → q.created ≤ p.created ∧
          (q.created < p.created → q.created ≤ createdMin m.metadata))

/-- A table as a source of the scan: the bound it reads and the pair it has. -/
def source (key : Key) (d : DiskList) : Source Pair where
  bound := createdMax d.metadata
  value := (d.getPair hash key).join

variable {hash}

theorem getNewestPair_eq (p : Option Pair) (b : Pair) :
    getNewestPair p (some b) = some (newer Pair.created p b) := by
  cases p with
  | none => rfl
  | some a =>
    unfold getNewestPair newer
    simp only [Pair.cmpTime_eq_gt]
    split <;> rfl

/-- One table is one step of the scan, if its search returns. -/
theorem getPairBest_eq_step {key : Key} {d : DiskList} (h : d.getPair hash key ≠ none)
    (best : Option Pair) :
    d.getPairBest hash key best = some (step Pair.created best (source hash key d)) := by
  obtain ⟨v, hv⟩ := Option.ne_none_iff_exists'.mp h
  cases best with
  | none =>
    rw [DiskList.getPairBest, hv, step, source, hv]
    rfl
  | some b =>
    unfold DiskList.getPairBest step source
    dsimp only
    split
    · rfl
    · rw [hv, Option.map_some, getNewestPair_eq]
      rfl

/-- The lookup is the scan over its tables, if all searches return. -/
theorem getPairBest_eq_scan {key : Key} {ds : List DiskList}
    (h : ∀ d ∈ ds, d.getPair hash key ≠ none) (best : Option Pair) :
    getPairBest hash ds key best =
      some ((ds.map (source hash key)).foldl (step Pair.created) best) := by
  induction ds generalizing best with
  | nil => rfl
  | cons d ds ih =>
    obtain ⟨hd, hds⟩ := List.forall_mem_cons.mp h
    have hstep := getPairBest_eq_step hd best
    unfold getPairBest at ih ⊢
    rw [List.foldlM_cons, hstep, List.map_cons, List.foldl_cons]
    exact ih hds _

/-- What a table has, as a source of the scan. -/
theorem source_value {key : Key} {d : DiskList} {v : Option Pair}
    (h : d.getPair hash key ≠ none) : (source hash key d).value = v ↔ d.getPair hash key = some v := by
  obtain ⟨u, hu⟩ := Option.ne_none_iff_exists'.mp h
  rw [source, hu]
  exact (Option.some_inj).symm

/-- The lookup in every order gives a newest pair of those the tables have exactly
if skipping is safe. -/
theorem getPair_isNewest_iff (ds : List DiskList) (key : Key) :
    (∀ es, es.Perm ds → ∃ best, getPair hash es key = some best ∧
        IsNewestLookup hash ds key best) ↔ SkippingSafe hash ds key := by
  by_cases hall : ∀ d ∈ ds, d.getPair hash key ≠ none
  · have hnewest : ∀ best, IsNewest Pair.created (ds.map (source hash key)) best ↔
        IsNewestLookup hash ds key best := by
      intro best
      have hval : ∀ d ∈ ds, ∀ v, (source hash key d).value = v ↔ d.getPair hash key = some v :=
        fun d hd v => source_value (hall d hd)
      unfold IsNewestLookup
      cases best with
      | none =>
        simp only [IsNewest, List.forall_mem_map]
        exact ⟨fun h => ⟨hall, fun d hd => (hval d hd _).mp (h d hd)⟩,
          fun h d hd => (hval d hd _).mpr (h.2 d hd)⟩
      | some p =>
        simp only [IsNewest, List.mem_map, exists_exists_and_eq_and, forall_exists_index, and_imp,
          forall_apply_eq_imp_iff₂]
        constructor
        · rintro ⟨⟨d, hd, hv⟩, hmax⟩
          exact ⟨hall, ⟨d, hd, (hval d hd _).mp hv⟩,
            fun e he q hq => hmax e he q ((hval e he _).mpr hq)⟩
        · rintro ⟨_, ⟨d, hd, hv⟩, hmax⟩
          exact ⟨⟨d, hd, (hval d hd _).mpr hv⟩,
            fun e he q hq => hmax e he q ((hval e he _).mp hq)⟩
    have hsafe : BoundSuffices Pair.created (ds.map (source hash key)) ↔
        SkippingSafe hash ds key := by
      have hval : ∀ d ∈ ds, ∀ v, (source hash key d).value = v ↔ d.getPair hash key = some v :=
        fun d hd v => source_value (hall d hd)
      unfold BoundSuffices SkippingSafe
      simp only [List.mem_map, exists_exists_and_eq_and, forall_exists_index, and_imp,
        forall_apply_eq_imp_iff₂]
      constructor
      · rintro (hnone | ⟨m, hm, p, hp, hbound⟩)
        · exact ⟨hall, .inl fun d hd => (hval d hd _).mp (hnone d hd)⟩
        · exact ⟨hall, .inr ⟨m, hm, p, (hval m hm _).mp hp,
            fun d hd q hq => hbound d hd q ((hval d hd _).mpr hq)⟩⟩
      · rintro ⟨_, hnone | ⟨m, hm, p, hp, hbound⟩⟩
        · exact .inl fun d hd => (hval d hd _).mpr (hnone d hd)
        · exact .inr ⟨m, hm, p, (hval m hm _).mpr hp,
            fun d hd q hq => hbound d hd q ((hval d hd _).mp hq)⟩
    rw [← hsafe, ← scan_isNewest_iff]
    constructor
    · intro h es hperm
      -- an order of the sources comes from an order of the tables
      obtain ⟨fs, rfl, hfs⟩ : ∃ fs : List DiskList, es = fs.map (source hash key) ∧
          fs.Perm ds := by
        have hcomp := congrFun₂ (List.eq_map_comp_perm (source hash key)) es ds
        exact hcomp.mpr hperm
      obtain ⟨best, hbest, hn⟩ := h fs hfs
      have hfall : ∀ d ∈ fs, d.getPair hash key ≠ none := fun d hd => hall d (hfs.subset hd)
      have hscan := getPairBest_eq_scan hfall none
      rw [getPair, hscan] at hbest
      rw [hnewest, scan, Option.some.inj hbest]
      exact hn
    · intro h es hperm
      have hes : ∀ d ∈ es, d.getPair hash key ≠ none := fun d hd => hall d (hperm.subset hd)
      refine ⟨_, getPairBest_eq_scan hes none, (hnewest _).mp ?_⟩
      exact h _ (hperm.map _)
  · refine iff_of_false (fun h => ?_) (fun h => hall h.1)
    obtain ⟨best, _, hbest⟩ := h ds (List.Perm.refl ds)
    exact hall hbest.1

/-- An old version of a key in a table of its own. -/
def oldTable : DiskList := ⟨Table.single (letter 107 10), [], [], [], []⟩

/-- A new version of the key, in a table with a pair that is older than both. -/
def newTable : DiskList :=
  ⟨⟨[letter 106 5, letter 107 20], by decide⟩, [], [], [], []⟩

/-- With the old table first the new one is skipped, and the old version is returned. -/
theorem getPair_stale : ¬ ∀ (hash : HashFunction) (ds : List DiskList) (key : Key),
    isKeyValid key → ∀ es, es.Perm ds →
      ∃ best, getPair hash es key = some best ∧ IsNewestLookup hash ds key best := by
  intro h
  obtain ⟨best, hbest, _, hnewest⟩ := h (fun _ => 0) [oldTable, newTable] [107] (by decide) _
    (List.Perm.refl _)
  have hold : oldTable.getPair (fun _ => 0) [107] = some (some (letter 107 10)) :=
    getPair_plain _ _ (by decide)
  have hnew : newTable.getPair (fun _ => 0) [107] = some (some (letter 107 20)) :=
    getPair_plain _ _ (by decide)
  have hstale : getPair (fun _ => 0) [oldTable, newTable] [107] =
      some (some (letter 107 10)) := by
    change (oldTable.getPair (fun _ => 0) [107]).bind _ = _
    rw [hold]
    rfl
  rw [hstale] at hbest
  obtain rfl := Option.some.inj hbest
  have hle := hnewest.2 newTable (by simp) _ hnew
  exact absurd hle (by decide)

end HM4.CollectionList
