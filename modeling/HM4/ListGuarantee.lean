import HM4.AVLContents
import HM4.SkipListRuns
import HM4.VectorList
import HM4.LinkList
import HM4.UnrolledLinkListRuns

/-!
# The guarantee of the lists

The flush lists try an insert, make room if it fails and try it again, and they ask a
list for its size before they do. For that a list that fails has to be as it was, and
its counter has to be right whatever was refused before.
-/

namespace HM4.ListGuarantee

open Bytes Pairs PairFactory MemList KeyedList ListSteps ListRuns

/-- What a list shows. -/
structure View (S : Type) where
  /-- The pairs from the first to the last one. -/
  pairs : S → Option (List Pair)
  /-- `lc_`. -/
  lc : S → ListCounter

variable {S : Type} (v : View S) (step : Op → S → Option (Option InsertResult × S))

/-- The counter tells the pairs that a walk shows. -/
def View.Counted (s : S) : Prop := ∃ m, v.pairs s = some m ∧ Counts (v.lc s) m

/-- In a run every operation ends, leaves a right counter and, where it has no success,
everything else as it was. -/
inductive Guaranteed : S → List Op → Prop
  | nil (s : S) (hs : v.Counted s) : Guaranteed s []
  | cons {s s' : S} {op : Op} {ops : List Op} {r : Option InsertResult} (hs : v.Counted s)
      (hstep : step op s = some (r, s'))
      (hkept : ∀ res, r = some res → res.ok = false → v.pairs s' = v.pairs s ∧ v.lc s' = v.lc s)
      (hrest : Guaranteed s' ops) : Guaranteed s (op :: ops)

variable {v step}

/-- A list keeps the guarantee if it has an invariant that does. -/
theorem guaranteed_of_invariant {P : Op → Prop} (inv : S → List Pair → Prop)
    (hshow : ∀ s m, inv s m → v.pairs s = some m ∧ Counts (v.lc s) m)
    (hstep : ∀ op s m, P op → inv s m → ∃ r s' m', step op s = some (r, s') ∧ inv s' m' ∧
      ∀ res, r = some res → res.ok = false → m' = m)
    {ops : List Op} (hops : ∀ op ∈ ops, P op) {s : S} {m : List Pair} (h : inv s m) :
    Guaranteed v step s ops := by
  induction ops generalizing s m with
  | nil => exact .nil s ⟨m, hshow s m h⟩
  | cons op ops ih =>
    obtain ⟨hop, hrest⟩ := List.forall_mem_cons.mp hops
    obtain ⟨r, s', m', e, h', hsame⟩ := hstep op s m hop h
    refine .cons ⟨m, hshow s m h⟩ e (fun res hr hok => ?_) (ih hrest h')
    obtain ⟨hpairs, hcount⟩ := hshow s m h
    obtain ⟨hpairs', hcount'⟩ := hshow s' m' h'
    have hm := hsame res hr hok
    -- the pairs tell the counter
    rw [hpairs, hpairs', hm, hcount, hcount', hm]
    exact ⟨rfl, rfl⟩

/-- So does a list whose entries change as those of a map do. -/
theorem guaranteed_of_stepped {α K : Type} [LinearOrder K] (rank : α → K) (data : α → Pair)
    (rankOf : Key → K) (inv : S → List α → Prop)
    (hshow : ∀ s l, inv s l → v.pairs s = some (l.map data))
    (hstep : ∀ op s l, Keyed op → inv s l → ∃ r s' l' owns fails, step op s = some (r, s') ∧
      Stepped rank data rankOf owns fails op (v.lc s) l r (v.lc s') l' ∧ inv s' l')
    {ops : List Op} (hops : ∀ op ∈ ops, Keyed op) {s : S} (h : inv s [])
    (hzero : v.lc s = ListCounter.zero) : Guaranteed v step s ops := by
  refine guaranteed_of_invariant (fun s m => ∃ l, inv s l ∧ Counts (v.lc s) (l.map data) ∧
    l.map data = m) ?_ ?_ hops ⟨[], h, hzero ▸ counts_zero, rfl⟩
  · rintro s m ⟨l, hl, hc, rfl⟩
    exact ⟨hshow s l hl, hc⟩
  · rintro op s m hop ⟨l, hl, hc, rfl⟩
    obtain ⟨r, s', l', owns, fails, e, hst, hl'⟩ := hstep op s l hop hl
    refine ⟨r, s', _, e, ⟨l', hl', hst.counts hc, rfl⟩, fun res hr hok => ?_⟩
    rw [(hst.unchanged hr hok).1]

section Lists

variable {σ : Type} (allocator : Allocator σ) (alloc : σ)

/-- `AVLList`. -/
def avlView : View (AVLList.AVL σ) := ⟨AVLList.forward, AVLList.AVL.lc⟩

/-- `LinkList`. -/
def linkView : View (LinkList.State σ) := ⟨fun s => some (LinkList.pairs s), LinkList.State.lc⟩

/-- `VectorList`, and whether its vector will get memory. -/
def vectorView : View (VectorList.State σ × (ℕ → Bool)) :=
  ⟨fun s => some (s.1.vector.map PairPtr.data), fun s => s.1.lc⟩

/-- `SkipList`, and the random numbers to come. -/
def skipView : View (SkipList.State σ × (ℕ → ℕ)) := ⟨fun s => SkipList.pairs s.1, fun s => s.1.lc⟩

/-- `UnrolledLinkList`. -/
def unrolledView : View (UnrolledLinkList.State σ) :=
  ⟨fun s => some ((UnrolledLinkList.entries s.nodes).map PairVector.Data.data),
    UnrolledLinkList.State.lc⟩

/-- An operation on a vector that is given memory or not. -/
def roomStep (op : Op) (s : VectorList.State σ × (ℕ → Bool)) :
    Option (Option InsertResult × VectorList.State σ × (ℕ → Bool)) := do
  let (r, list) ← VectorList.step allocator s.1 (s.2 0) op
  return (r, list, fun n => s.2 (n + 1))

theorem avl_guaranteed (ops : List Op) :
    Guaranteed avlView (fun op s => AVLList.step allocator s op) (AVLList.AVL.empty alloc) ops := by
  refine guaranteed_of_invariant (P := fun _ => True) AVLContents.Represents ?_ ?_
    (fun _ _ => trivial) ⟨_, AVLContents.valid_empty alloc, rfl⟩
  · rintro s m ⟨t, hv, rfl⟩
    exact ⟨AVLContents.forward_valid hv, hv.fits.counts⟩
  · rintro op s m - ⟨t, hv, rfl⟩
    obtain ⟨r, s', t', a, -, e, hplain, hv'⟩ := AVLContents.step_spec allocator op hv
    refine ⟨r, s', _, e, ⟨t', hv', rfl⟩, fun res hr hok => ?_⟩
    exact plainStep_unchanged (hr ▸ hplain) hok

variable {ops : List Op} (hops : ∀ op ∈ ops, Keyed op)

include hops

theorem link_guaranteed : Guaranteed linkView (fun op s => LinkList.step allocator s op)
    (LinkList.State.empty alloc) ops := by
  have hempty : LinkList.Ordered [] := ⟨List.Pairwise.nil, by simp⟩
  refine guaranteed_of_stepped LinkList.Node.rank LinkList.Node.pair HPairRank.rankOf
    (fun s l => s.nodes = l ∧ LinkList.Ordered l) ?_ ?_ hops ⟨rfl, hempty⟩ rfl
  · rintro s l ⟨rfl, -⟩
    rfl
  · rintro op s l hop ⟨rfl, hl⟩
    obtain ⟨r, s', e, hst, hl'⟩ := LinkList.step_spec allocator hl hop
    exact ⟨r, s', _, _, _, e, hst, rfl, hl'⟩

theorem vector_guaranteed (room : ℕ → Bool) : Guaranteed vectorView (roomStep allocator)
    (VectorList.State.empty alloc, room) ops := by
  have hempty : Increasing VectorList.rank [] := List.Pairwise.nil
  refine guaranteed_of_stepped VectorList.rank PairPtr.data MyString.signedWord
    (fun s l => s.1.vector = l ∧ Increasing VectorList.rank l) ?_ ?_ hops ⟨rfl, hempty⟩ rfl
  · rintro s l ⟨rfl, -⟩
    rfl
  · rintro op ⟨s, room⟩ l hop ⟨rfl, hl⟩
    obtain ⟨r, s', e, hst⟩ := VectorList.step_spec allocator (room 0) hl hop
    refine ⟨r, (s', fun n => room (n + 1)), _, _, _, ?_, hst, rfl, hst.increasing hl⟩
    simp only [roomStep, e, Option.bind_eq_bind, Option.bind_some, Option.pure_def]

theorem skip_guaranteed (random : ℕ → ℕ) : Guaranteed skipView (SkipListRuns.drawStep allocator)
    (SkipList.State.empty alloc, random) ops := by
  refine guaranteed_of_stepped SkipListLanes.rank SkipListLanes.pair HPairRank.rankOf
    (fun s => SkipListLanes.Valid s.1) (fun s l hv => SkipListContents.pairs_valid hv) ?_ hops
    (SkipListLanes.valid_empty alloc) rfl
  rintro op ⟨s, random⟩ l hop hv
  obtain ⟨r, s', l', e, hst, hv'⟩ := SkipListContents.step_spec allocator (random 0) hv hop
  refine ⟨r, (s', fun n => random (n + 1)), l', _, _, ?_, hst, hv'⟩
  simp only [SkipListRuns.drawStep, e, Option.bind_eq_bind, Option.bind_some, Option.pure_def]

theorem unrolled_guaranteed {capacity : ℕ} (hcap : 2 ≤ capacity)
    (hreset : ∀ s, (allocator.reset s).1 = false) :
    Guaranteed unrolledView (UnrolledLinkListRuns.liveStep allocator capacity)
      (UnrolledLinkList.State.empty alloc) ops := by
  refine guaranteed_of_stepped PairVector.Data.rank PairVector.Data.data HPairRank.rankOf
    (fun s l => UnrolledLinkList.entries s.nodes = l ∧ UnrolledLinkList.Good capacity s.nodes) ?_ ?_
    hops ⟨rfl, UnrolledLinkList.good_nil⟩ rfl
  · rintro s l ⟨rfl, -⟩
    rfl
  · rintro op s l hop ⟨rfl, hg⟩
    have hlive := (UnrolledLinkListRuns.keeps_of_reset hreset capacity [op] s).1
    obtain ⟨r, s', e, hst, hg'⟩ := UnrolledLinkList.step_spec allocator hcap hg hop
    refine ⟨r, s', _, _, _, ?_, hst, rfl, hg'⟩
    rw [UnrolledLinkListRuns.liveStep, if_neg (by simp [hlive]), e]

/-- In every run of any list, whatever its allocator refuses, the counter tells the number and
the octets of the pairs, no number goes below zero, and an operation without success leaves pairs
and counter as they were. Keys that are erased are not empty but in `AVLList`; `UnrolledLinkList`
needs an allocator that takes back memory piece by piece. -/
theorem lists_guaranteed (room : ℕ → Bool) (random : ℕ → ℕ) (anyOps : List Op) {capacity : ℕ}
    (hcap : 2 ≤ capacity) :
    Guaranteed avlView (fun op s => AVLList.step allocator s op) (AVLList.AVL.empty alloc) anyOps ∧
    Guaranteed linkView (fun op s => LinkList.step allocator s op) (LinkList.State.empty alloc) ops ∧
    Guaranteed vectorView (roomStep allocator) (VectorList.State.empty alloc, room) ops ∧
    Guaranteed skipView (SkipListRuns.drawStep allocator) (SkipList.State.empty alloc, random) ops ∧
    ((∀ s, (allocator.reset s).1 = false) →
      Guaranteed unrolledView (UnrolledLinkListRuns.liveStep allocator capacity)
        (UnrolledLinkList.State.empty alloc) ops) :=
  ⟨avl_guaranteed allocator alloc anyOps, link_guaranteed allocator alloc hops,
    vector_guaranteed allocator alloc hops room, skip_guaranteed allocator alloc hops random,
    unrolled_guaranteed allocator alloc hops hcap⟩

end Lists

/-- Two writes and an erase, with memory for all of them. -/
theorem lists_guaranteed_letters : Guaranteed linkView (fun op s => LinkList.step growing s op)
      (LinkList.State.empty 0) [insertOf [97] 1, insertOf [98] 2, .erase [97]] ∧
    Guaranteed unrolledView (UnrolledLinkListRuns.liveStep growing 2)
      (UnrolledLinkList.State.empty 0) [insertOf [97] 1, insertOf [98] 2, .erase [97]] := by
  have hops : ∀ op ∈ [insertOf [97] 1, insertOf [98] 2, .erase [97]], Keyed op := by
    simp [insertOf, Keyed]
  have h := lists_guaranteed growing 0 hops (fun _ => true) (fun n => n) [] le_rfl
  exact ⟨h.2.1, h.2.2.2.2 fun _ => rfl⟩

end HM4.ListGuarantee
