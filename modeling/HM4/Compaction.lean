import HM4.DiskTable
import HM4.DualIterator

/-!
# Compaction

A compaction writes the merged iteration of some tables into one table and keeps
all tombstones. The iterators compare keys by `compare`, which takes the first
octet as a signed character, while tables are sorted and searched by unsigned
octets. What is written is a table exactly if no table shows a key of the upper
half while another one still has a key of the lower half.
-/

namespace HM4.Compaction

open Bytes MyString Pairs LexPrefix KWayMerge CollectionIterator DiskTable

/-- `TombstoneOptions`. -/
inductive TombstoneOptions
  | remove
  | keep

/-- `TOMBSTONE_OPTION` of the compaction. -/
def tombstoneOption : TombstoneOptions := .keep

/-- `FileBuilderImpl_::copy`: the pairs that are written, with `Pair::isOK` at the
time of the writing. -/
def copy (isOK : Pair → Bool) (option : TombstoneOptions) (it : List Pair) : List Pair :=
  match option with
  | .keep => it
  | .remove => it.filter isOK

/-- The iteration of `MergeListFactory_2` or `MergeListFactory_N`. -/
def mergeIteration : List Table → List Pair
  | [table1, table2] => DualIterator.toList (table2.pairs, table1.pairs)
  | tables => CollectionIterator.toList (ofIteratorPairs (tables.map Table.pairs))

/-- `mergeFromFactory`: the pairs of the file that replaces the tables. -/
def mergeFromFactory (isOK : Pair → Bool) (tables : List Table) : List Pair :=
  copy isOK tombstoneOption (mergeIteration tables)

/-- A newest pair of a key over some tables. -/
def IsNewest (ts : List Table) (key : Key) (p : Pair) : Prop :=
  (∃ t ∈ ts, t.lookup key = some p) ∧
    ∀ t ∈ ts, ∀ q, t.lookup key = some q → q.created ≤ p.created

/-- The file is a table, and with it in place of the merged ones the newest pair of
every key is what it was. -/
def Preserves (merged others : List Table) (file : List Pair) : Prop :=
  ∃ t : Table, t.pairs = file ∧
    ∀ key p, IsNewest (t :: others) key p ↔ IsNewest (merged ++ others) key p

/-- The created times of a key differ between tables. -/
def TimesDistinct (ts : List Table) : Prop :=
  ts.Pairwise fun t t' => ∀ p ∈ t.pairs, ∀ q ∈ t'.pairs, p.key = q.key → p.created ≠ q.created

/-- The first octet is in the upper half, where a `char` is negative. -/
def IsHigh (p : Pair) : Prop := 128 ≤ (byteAt p.key 0).val

/-- For two tables: a table with a key of the upper half has a key of the lower half
that is not below any key of the lower half of the other table. -/
def CoversDual (a b : List Pair) : Prop :=
  (∃ h ∈ a, IsHigh h) → ∀ q ∈ b, ¬ IsHigh q → ∃ p ∈ a, ¬ IsHigh p ∧ q.key ≤ p.key

/-- For more tables: it is above, or it is equal and older. -/
def Covers (a b : List Pair) : Prop :=
  (∃ h ∈ a, IsHigh h) → ∀ q ∈ b, ¬ IsHigh q →
    ∃ p ∈ a, ¬ IsHigh p ∧ Ahead Pair.key Pair.created q p

/-- The exact condition on the tables of a merge. -/
def MergeSafe : List Table → Prop
  | [table1, table2] =>
    CoversDual table1.pairs table2.pairs ∧ CoversDual table2.pairs table1.pairs
  | tables => tables.Pairwise fun t t' => Covers t.pairs t'.pairs ∧ Covers t'.pairs t.pairs

/-- Within a half the iterators and the tables agree. -/
theorem keyWord_lt_iff {p q : Pair} (h : IsHigh p ↔ IsHigh q) :
    keyWord p < keyWord q ↔ p.key < q.key := by
  have hhalf : SameHalfHead p.key q.key := by
    intro _ _
    unfold SameHalf
    unfold IsHigh at h
    omega
  rw [← lex_eq_lt, ← lex_eq_lt, ← cmp_eq_lex, Pair.cmp_key, (compare_eq_lex_iff _ _).mpr hhalf]

/-- The upper half is first for the iterators and last in tables. -/
theorem high_low {p q : Pair} (hp : IsHigh p) (hq : ¬ IsHigh q) :
    keyWord p < keyWord q ∧ q.key < p.key := by
  obtain ⟨x, a, hx⟩ := List.exists_cons_of_ne_nil p.key_ne_nil
  obtain ⟨y, b, hy⟩ := List.exists_cons_of_ne_nil q.key_ne_nil
  unfold IsHigh at hp hq
  rw [hx] at hp
  rw [hy] at hq
  change 128 ≤ x.val at hp
  change ¬ 128 ≤ y.val at hq
  have hlt : y < x := by
    rw [Fin.lt_def]
    omega
  constructor
  · rw [← lex_eq_lt, ← cmp_eq_lex, Pair.cmp_key, hx, hy, compare_cons_of_ne hlt.ne']
    have hchar : charValue x < charValue y := by
      unfold charValue
      split_ifs <;> omega
    exact hchar.cmp_eq_lt
  · rw [← lex_eq_lt, hx, hy, lex_cons_of_ne hlt.ne, hlt.cmp_eq_lt]

/-- A pair above one of the upper half is in the upper half. -/
theorem high_of_le {p q : Pair} (hp : IsHigh p) (h : p.key ≤ q.key) : IsHigh q := by
  by_contra hq
  exact (high_low hp hq).2.not_ge h

/-- Both ways round, for any order of the tables. -/
def CoversBoth (a b : List Pair) : Prop := Covers a b ∧ Covers b a

/-- Runs of different tables with different times for equal keys. -/
def Distinct (a b : List Pair) : Prop := ∀ p ∈ a, ∀ q ∈ b, p.key = q.key → p.created ≠ q.created

theorem CoversBoth.symm {a b : List Pair} (h : CoversBoth a b) : CoversBoth b a := ⟨h.2, h.1⟩

theorem Distinct.symm {a b : List Pair} (h : Distinct a b) : Distinct b a :=
  fun p hp q hq hkey => (h q hq p hp hkey.symm).symm

/-- Sorted as a table is. -/
def LexSorted (r : List Pair) : Prop := r.Pairwise fun p q => p.key < q.key

section Merge

variable {runs : List (List Pair)} {out : List Pair}

/-- The head of a run is not above a pair of the run. -/
theorem head_le {z y : Pair} {q : List Pair} (h : LexSorted (z :: q)) (hy : y ∈ z :: q) :
    z.key ≤ y.key := by
  rcases List.mem_cons.mp hy with rfl | hy
  · exact le_rfl
  · exact ((List.pairwise_cons.mp h).1 y hy).le

/-- No head is ahead of `x` for the iterators; within its half none is for tables, nor
is any pair behind such a head. -/
theorem not_ahead_of_head {x z y : Pair} {q : List Pair} (hfirst : ¬ Ahead keyWord Pair.created z x)
    (hhalf : IsHigh x ↔ IsHigh z) (h : LexSorted (z :: q)) (hy : y ∈ z :: q) :
    ¬ Ahead Pair.key Pair.created y x := by
  have hzx : ¬ Ahead Pair.key Pair.created z x := by
    rw [not_ahead_iff] at hfirst ⊢
    exact hfirst.imp (keyWord_lt_iff hhalf).mp fun ⟨hkey, ht⟩ => ⟨keyWord_inj.mp hkey, ht⟩
  rcases List.mem_cons.mp hy with rfl | hy
  · exact hzx
  · exact not_ahead_trans hzx (not_ahead_iff.mpr (.inl ((List.pairwise_cons.mp h).1 y hy)))

/-- While the runs cover each other, what is taken first is first for tables as well. -/
theorem first_of_covers {x : Pair} {r : List Pair} {others : List (List Pair)}
    (hs : ∀ q ∈ (x :: r) :: others, LexSorted q)
    (hcov : ((x :: r) :: others).Pairwise CoversBoth)
    (hfirst : ∀ q ∈ others, ∀ y ∈ q.head?, ¬ Ahead keyWord Pair.created y x) :
    ∀ q ∈ others, ∀ y ∈ q, ¬ Ahead Pair.key Pair.created y x := by
  intro q hq y hy
  cases q with
  | nil => exact absurd hy List.not_mem_nil
  | cons z q =>
    have hz : ¬ Ahead keyWord Pair.created z x := hfirst _ hq z rfl
    have hsq := hs _ (List.mem_cons_of_mem _ hq)
    refine not_ahead_of_head hz ⟨fun hx => ?_, fun hzh => ?_⟩ hsq hy
    · -- above a key of the upper half its run has none of the lower half to cover others
      by_contra hzl
      obtain ⟨p, hp, hpl, -⟩ := ((List.pairwise_cons.mp hcov).1 _ hq).1 ⟨x, List.mem_cons_self, hx⟩ z
        List.mem_cons_self hzl
      exact hpl (high_of_le hx (head_le (hs _ List.mem_cons_self) hp))
    · by_contra hxl
      exact hz (.inl (high_low hzh hxl).1)

/-- The runs still cover each other without the pair that was taken. -/
theorem covers_rest {x : Pair} {r : List Pair} {others : List (List Pair)}
    (hcov : ((x :: r) :: others).Pairwise CoversBoth)
    (hahead : ∀ q ∈ others, ∀ y ∈ q, ¬ Ahead Pair.key Pair.created y x) :
    (r :: others).Pairwise CoversBoth := by
  obtain ⟨hxr, hothers⟩ := List.pairwise_cons.mp hcov
  refine List.pairwise_cons.mpr ⟨fun q hq => ⟨?_, ?_⟩, hothers⟩
  · rintro ⟨h, hh, hhigh⟩ y hy hyl
    obtain ⟨p, hp, hpl, hyp⟩ := (hxr q hq).1 ⟨h, List.mem_cons_of_mem x hh, hhigh⟩ y hy hyl
    rcases List.mem_cons.mp hp with rfl | hp
    · exact absurd hyp (hahead q hq y hy)
    · exact ⟨p, hp, hpl, hyp⟩
  · exact fun hex y hy => (hxr q hq).2 hex y (List.mem_cons_of_mem x hy)

/-- The merge of runs that cover each other is sorted as a table is. -/
theorem sorted_of_covers (h : Merges (Ahead keyWord Pair.created) runs out)
    (hs : ∀ r ∈ runs, LexSorted r) (hcov : runs.Pairwise CoversBoth) :
    out.Pairwise fun p q => ¬ Ahead Pair.key Pair.created q p := by
  induction h with
  | nil _ => exact .nil
  | @cons runs others x r out hruns hfirst hrest ih =>
    have hcov' := (hruns.pairwise_iff CoversBoth.symm).mp hcov
    have hs' : ∀ q ∈ (x :: r) :: others, LexSorted q := fun q hq => hs q (hruns.symm.subset hq)
    have hahead := first_of_covers hs' hcov' hfirst
    obtain ⟨hxr, hothers⟩ := List.forall_mem_cons.mp hs'
    obtain ⟨hx, hr⟩ := List.pairwise_cons.mp hxr
    refine List.pairwise_cons.mpr ⟨fun y hy => ?_,
      ih (List.forall_mem_cons.mpr ⟨hr, hothers⟩) (covers_rest hcov' hahead)⟩
    obtain ⟨q, hq, hyq⟩ := List.mem_flatten.mp (hrest.perm.subset hy)
    rcases List.mem_cons.mp hq with rfl | hq
    · exact not_ahead_iff.mpr (.inl (hx y hyq))
    · exact hahead q hq y hyq

/-- If no pair of the lower half comes out after one of the upper half, the runs cover
each other. -/
theorem covers_of_sorted (h : Merges (Ahead keyWord Pair.created) runs out)
    (hs : ∀ r ∈ runs, LexSorted r) (hd : runs.Pairwise Distinct)
    (hhalf : out.Pairwise fun p q => IsHigh p → IsHigh q) : runs.Pairwise CoversBoth := by
  induction h with
  | @nil runs hnil =>
    refine List.pairwise_iff_forall_sublist.mpr fun {a b} hab => ?_
    have ha := hnil a (hab.subset (by simp))
    have hb := hnil b (hab.subset (by simp))
    subst ha hb
    exact ⟨by simp [Covers], by simp [Covers]⟩
  | @cons runs others x r out hruns hfirst hrest ih =>
    have hd' := (hruns.pairwise_iff Distinct.symm).mp hd
    have hs' : ∀ q ∈ (x :: r) :: others, LexSorted q := fun q hq => hs q (hruns.symm.subset hq)
    obtain ⟨hxr, hothers⟩ := List.forall_mem_cons.mp hs'
    obtain ⟨hxd, hod⟩ := List.pairwise_cons.mp hd'
    obtain ⟨hxhalf, houthalf⟩ := List.pairwise_cons.mp hhalf
    have hd'' : (r :: others).Pairwise Distinct :=
      List.pairwise_cons.mpr ⟨fun q hq p hp => hxd q hq p (List.mem_cons_of_mem x hp), hod⟩
    have hcov := ih (List.forall_mem_cons.mpr ⟨(List.pairwise_cons.mp hxr).2, hothers⟩) hd'' houthalf
    obtain ⟨hrcov, hocov⟩ := List.pairwise_cons.mp hcov
    refine (hruns.pairwise_iff CoversBoth.symm).mpr
      (List.pairwise_cons.mpr ⟨fun q hq => ⟨?_, ?_⟩, hocov⟩)
    · rintro ⟨h, hh, hhigh⟩ y hy hyl
      rcases List.mem_cons.mp hh with rfl | hh
      · -- `y` comes out after `x`
        have hyout : y ∈ out :=
          hrest.perm.symm.subset (List.mem_flatten.mpr ⟨q, List.mem_cons_of_mem _ hq, hy⟩)
        exact absurd (hxhalf y hyout hhigh) hyl
      · obtain ⟨p, hp, hpl, hyp⟩ := (hrcov q hq).1 ⟨h, hh, hhigh⟩ y hy hyl
        exact ⟨p, List.mem_cons_of_mem x hp, hpl, hyp⟩
    · rintro ⟨h, hh, hhigh⟩ y hy hyl
      rcases List.mem_cons.mp hy with rfl | hy
      · -- the head of the other run is not of the upper half, and it is behind `y`
        cases q with
        | nil => exact absurd hh List.not_mem_nil
        | cons z q =>
          have hz : ¬ Ahead keyWord Pair.created z y := hfirst _ hq z rfl
          have hzl : ¬ IsHigh z := fun hzh => hz (.inl (high_low hzh hyl).1)
          refine ⟨z, List.mem_cons_self, hzl, ?_⟩
          rcases not_ahead_iff.mp hz with hlt | ⟨hkey, ht⟩
          · exact .inl ((keyWord_lt_iff (iff_of_false hyl hzl)).mp hlt)
          · have hkey' := keyWord_inj.mp hkey
            have hne := hxd _ hq y List.mem_cons_self z List.mem_cons_self hkey'
            exact .inr ⟨hkey', lt_of_le_of_ne ht hne.symm⟩
      · exact (hrcov q hq).2 ⟨h, hh, hhigh⟩ y hy hyl

end Merge

/-- The collection iterator over sorted runs: it writes a table exactly if they cover
each other, and then the table has the newest pair of every key. -/
theorem collection_iff {runs : List (List Pair)} (hs : ∀ r ∈ runs, LexSorted r)
    (hd : runs.Pairwise Distinct) :
    (LexSorted (CollectionIterator.toList (ofIteratorPairs runs)) ↔ runs.Pairwise CoversBoth) ∧
      (runs.Pairwise CoversBoth →
        Visits Pair.key Pair.created runs (CollectionIterator.toList (ofIteratorPairs runs))) := by
  have hmerge := merges_ofIteratorPairs runs
  have hfirsts : CollectionIterator.toList (ofIteratorPairs runs) =
      firsts Pair.key (toListAll (ofIteratorPairs runs)) := by
    rw [toList_eq_firsts]
    exact firsts_congr (fun p q => keyWord_inj) _
  have hvisits : runs.Pairwise CoversBoth → Visits Pair.key Pair.created runs
      (CollectionIterator.toList (ofIteratorPairs runs)) := by
    intro hcov
    rw [hfirsts]
    exact visits_firsts hmerge.perm (sorted_of_covers hmerge hs hcov)
  refine ⟨⟨fun hsorted => ?_, fun hcov => (hvisits hcov).increasing⟩, hvisits⟩
  rw [hfirsts] at hsorted
  refine covers_of_sorted hmerge hs hd ?_
  exact (pairwise_le_of_firsts hsorted).imp fun hle hp => high_of_le hp hle

section Dual

open DualIterator

variable {tt : IteratorPair × IteratorPair}

/-- Both ways round. -/
def CoversDualBoth (tt : IteratorPair × IteratorPair) : Prop :=
  CoversDual tt.1 tt.2 ∧ CoversDual tt.2 tt.1

/-- A head that the iterator takes from `p :: ps` is below the other list for tables. -/
theorem dual_first {p : Pair} {ps qs : List Pair} (hps : LexSorted (p :: ps)) (hqs : LexSorted qs)
    (hcov : CoversDual (p :: ps) qs) (hhead : ∀ q ∈ qs.head?, keyWord p < keyWord q) :
    ∀ q ∈ qs, p.key < q.key := by
  cases qs with
  | nil => simp
  | cons z qs =>
    have hpz : keyWord p < keyWord z := hhead z rfl
    intro q hq
    have hhalf : IsHigh p ↔ IsHigh z := by
      refine ⟨fun hp => ?_, fun hz => ?_⟩
      · by_contra hzl
        obtain ⟨p', hp', hpl, -⟩ := hcov ⟨p, List.mem_cons_self, hp⟩ z List.mem_cons_self hzl
        exact hpl (high_of_le hp (head_le hps hp'))
      · by_contra hpl
        exact lt_asymm hpz (high_low hz hpl).1
    exact ((keyWord_lt_iff hhalf).mp hpz).trans_le (head_le hqs hq)

/-- The lists still cover each other without a head that is below the other list. -/
theorem coversDual_tail {p : Pair} {ps qs : List Pair} (hcov : CoversDual (p :: ps) qs)
    (hlt : ∀ q ∈ qs, p.key < q.key) : CoversDual ps qs := by
  rintro ⟨h, hh, hhigh⟩ y hy hyl
  obtain ⟨p', hp', hpl, hle⟩ := hcov ⟨h, List.mem_cons_of_mem p hh, hhigh⟩ y hy hyl
  rcases List.mem_cons.mp hp' with rfl | hp'
  · exact absurd hle (hlt y hy).not_ge
  · exact ⟨p', hp', hpl, hle⟩

theorem coversDual_of_tail {p : Pair} {ps qs : List Pair} (hcov : CoversDual qs (p :: ps)) :
    CoversDual qs ps :=
  fun hex y hy => hcov hex y (List.mem_cons_of_mem p hy)

/-- While the lists cover each other the dual iterator visits them in the order of tables. -/
theorem dual_visits (h1 : LexSorted tt.1) (h2 : LexSorted tt.2) (hcov : CoversDualBoth tt) :
    Visits Pair.key Pair.created [tt.1, tt.2] (DualIterator.toList tt) := by
  induction hk : remaining tt using Nat.strong_induction_on generalizing tt with
  | h k ih =>
    subst hk
    rcases updateDereference_cases tt with ⟨rfl, hp⟩ | ⟨p, ps, htt, hhead, hp, hm⟩ |
      ⟨q, qs, htt, hhead, hp, hm⟩ | ⟨p, ps, q, qs, rfl, hkey, hp, hm⟩
    · rw [toList_of_none hp]
      exact ⟨.nil, by simp, by simp, by simp⟩
    · obtain ⟨l, l'⟩ := tt
      obtain rfl : l = p :: ps := htt
      obtain ⟨hlt, hps⟩ := List.pairwise_cons.mp h1
      have hlt' := dual_first h1 h2 hcov.1 hhead
      have hrest := ih _ (remaining_moved hp) (by rw [hm]; exact hps) (by rw [hm]; exact h2)
        (by rw [hm]; exact ⟨coversDual_tail hcov.1 hlt', coversDual_of_tail hcov.2⟩) rfl
      rw [toList_of_some hp]
      rw [hm] at hrest ⊢
      exact hrest.cons_left hlt hlt'
    · obtain ⟨l, l'⟩ := tt
      obtain rfl : l' = q :: qs := htt
      obtain ⟨hlt, hqs⟩ := List.pairwise_cons.mp h2
      have hlt' := dual_first h2 h1 hcov.2 hhead
      have hrest := ih _ (remaining_moved hp) (by rw [hm]; exact h1) (by rw [hm]; exact hqs)
        (by rw [hm]; exact ⟨coversDual_of_tail hcov.1, coversDual_tail hcov.2 hlt'⟩) rfl
      rw [toList_of_some hp]
      rw [hm] at hrest ⊢
      exact hrest.cons_right hlt' hlt
    · obtain ⟨hltp, hps⟩ := List.pairwise_cons.mp h1
      obtain ⟨hltq, hqs⟩ := List.pairwise_cons.mp h2
      have hltp' : ∀ y ∈ qs, p.key < y.key := fun y hy => hkey ▸ hltq y hy
      have hltq' : ∀ y ∈ ps, q.key < y.key := fun y hy => hkey ▸ hltp y hy
      have hrest := ih _ (remaining_moved hp) (by rw [hm]; exact hps) (by rw [hm]; exact hqs)
        (by
          rw [hm]
          exact ⟨coversDual_tail (coversDual_of_tail hcov.1) hltp',
            coversDual_tail (coversDual_of_tail hcov.2) hltq'⟩) rfl
      rw [toList_of_some hp]
      rw [hm] at hrest ⊢
      exact hrest.cons_both hkey hltp hltq

/-- No key of the lists is lost, in whatever order they are. -/
theorem exists_mem_dual (tt : IteratorPair × IteratorPair) :
    (∀ y ∈ tt.1, ∃ x ∈ DualIterator.toList tt, x.key = y.key) ∧
      ∀ y ∈ tt.2, ∃ x ∈ DualIterator.toList tt, x.key = y.key := by
  induction hk : remaining tt using Nat.strong_induction_on generalizing tt with
  | h k ih =>
    subst hk
    rcases updateDereference_cases tt with ⟨rfl, _⟩ | ⟨p, ps, htt, _, hp, hm⟩ |
      ⟨q, qs, htt, _, hp, hm⟩ | ⟨p, ps, q, qs, rfl, hkey, hp, hm⟩
    · exact ⟨by simp, by simp⟩
    all_goals
      have hrest := ih _ (remaining_moved hp) _ rfl
      rw [toList_of_some hp]
      rw [hm] at hrest ⊢
      obtain ⟨hleft, hright⟩ := hrest
    · rw [htt]
      exact ⟨by simpa using fun y hy => .inr (hleft y hy), by simpa using fun y hy => .inr (hright y hy)⟩
    · rw [htt]
      exact ⟨by simpa using fun y hy => .inr (hleft y hy), by simpa using fun y hy => .inr (hright y hy)⟩
    · have hx : (if p.created < q.created then q else p).key = p.key := by
        split
        · exact hkey.symm
        · rfl
      refine ⟨?_, ?_⟩
      · simpa [hx] using fun y hy => .inr (hleft y hy)
      · simpa [hx, hkey] using fun y hy => .inr (hright y hy)

/-- The other list covers the head that was taken from the first one. -/
theorem coversDual_head {p : Pair} {ps qs : List Pair} (hqs : LexSorted qs)
    (hcov : CoversDual qs ps) (hhead : ∀ q ∈ qs.head?, keyWord p < keyWord q) :
    CoversDual qs (p :: ps) := by
  rintro ⟨h, hh, hhigh⟩ y hy hyl
  rcases List.mem_cons.mp hy with rfl | hy
  · cases qs with
    | nil => exact absurd hh List.not_mem_nil
    | cons z qs =>
      have hyz : keyWord y < keyWord z := hhead z rfl
      have hzl : ¬ IsHigh z := fun hz => lt_asymm hyz (high_low hz hyl).1
      exact ⟨z, List.mem_cons_self, hzl, ((keyWord_lt_iff (iff_of_false hyl hzl)).mp hyz).le⟩
  · exact hcov ⟨h, hh, hhigh⟩ y hy hyl

/-- A head covers the other list with the rest, unless it is of the upper half and the
other list has a key of the lower half. -/
theorem coversDual_cons {p : Pair} {ps qs : List Pair} (hcov : CoversDual ps qs)
    (hhead : IsHigh p → ∀ y ∈ qs, IsHigh y) : CoversDual (p :: ps) qs := by
  rintro ⟨h, hh, hhigh⟩ y hy hyl
  rcases List.mem_cons.mp hh with rfl | hh
  · exact absurd (hhead hhigh y hy) hyl
  · obtain ⟨p', hp', hpl, hle⟩ := hcov ⟨h, hh, hhigh⟩ y hy hyl
    exact ⟨p', List.mem_cons_of_mem p hp', hpl, hle⟩

/-- Heads with the same key cover each other. -/
theorem coversDual_both {p q : Pair} {ps qs : List Pair} (hkey : p.key = q.key)
    (hltq : ∀ y ∈ qs, q.key < y.key) (hcov : CoversDual ps qs) : CoversDual (p :: ps) (q :: qs) := by
  rintro ⟨h, hh, hhigh⟩ y hy hyl
  rcases List.mem_cons.mp hy with rfl | hy
  · exact ⟨p, List.mem_cons_self, fun hp => hyl (high_of_le hp hkey.le), hkey.ge⟩
  · exact coversDual_cons hcov (fun hp z hz => high_of_le hp (hkey.trans_lt (hltq z hz)).le)
      ⟨h, hh, hhigh⟩ y hy hyl

/-- If the dual iterator visits two lists in the order of tables, they cover each other. -/
theorem coversDual_of_sorted (h1 : LexSorted tt.1) (h2 : LexSorted tt.2)
    (hs : LexSorted (DualIterator.toList tt)) : CoversDualBoth tt := by
  induction hk : remaining tt using Nat.strong_induction_on generalizing tt with
  | h k ih =>
    subst hk
    rcases updateDereference_cases tt with ⟨rfl, _⟩ | ⟨p, ps, htt, hhead, hp, hm⟩ |
      ⟨q, qs, htt, hhead, hp, hm⟩ | ⟨p, ps, q, qs, htt, hkey, hp, hm⟩
    · exact ⟨by simp [CoversDual], by simp [CoversDual]⟩
    all_goals
      have hvis := exists_mem_dual (updateDereference tt).moved
      rw [toList_of_some hp] at hs
      obtain ⟨hfirst, hs⟩ := List.pairwise_cons.mp hs
    · obtain ⟨l, l'⟩ := tt
      obtain rfl : l = p :: ps := htt
      obtain ⟨hlt, hps⟩ := List.pairwise_cons.mp h1
      obtain ⟨hcov, hcov'⟩ := ih _ (remaining_moved hp) (by rw [hm]; exact hps)
        (by rw [hm]; exact h2) hs rfl
      rw [hm] at hcov hcov' hvis hfirst
      refine ⟨coversDual_cons hcov fun hph y hy => ?_, coversDual_head h2 hcov' hhead⟩
      obtain ⟨x, hx, hxy⟩ := hvis.2 y hy
      exact high_of_le hph (hxy ▸ (hfirst x hx).le)
    · obtain ⟨l, l'⟩ := tt
      obtain rfl : l' = q :: qs := htt
      obtain ⟨hlt, hqs⟩ := List.pairwise_cons.mp h2
      obtain ⟨hcov, hcov'⟩ := ih _ (remaining_moved hp) (by rw [hm]; exact h1)
        (by rw [hm]; exact hqs) hs rfl
      rw [hm] at hcov hcov' hvis hfirst
      refine ⟨coversDual_head h1 hcov hhead, coversDual_cons hcov' fun hqh y hy => ?_⟩
      obtain ⟨x, hx, hxy⟩ := hvis.1 y hy
      exact high_of_le hqh (hxy ▸ (hfirst x hx).le)
    · subst htt
      obtain ⟨hltp, hps⟩ := List.pairwise_cons.mp h1
      obtain ⟨hltq, hqs⟩ := List.pairwise_cons.mp h2
      obtain ⟨hcov, hcov'⟩ := ih _ (remaining_moved hp) (by rw [hm]; exact hps)
        (by rw [hm]; exact hqs) hs rfl
      rw [hm] at hcov hcov'
      exact ⟨coversDual_both hkey hltq hcov, coversDual_both hkey.symm hltp hcov'⟩

end Dual

theorem collection_iff_tables {ts : List Table} (hd : TimesDistinct ts) :
    (LexSorted (CollectionIterator.toList (ofIteratorPairs (ts.map Table.pairs))) ↔
      ts.Pairwise fun t t' => Covers t.pairs t'.pairs ∧ Covers t'.pairs t.pairs) ∧
    ((ts.Pairwise fun t t' => Covers t.pairs t'.pairs ∧ Covers t'.pairs t.pairs) →
      Visits Pair.key Pair.created (ts.map Table.pairs)
        (CollectionIterator.toList (ofIteratorPairs (ts.map Table.pairs)))) := by
  have hs : ∀ r ∈ ts.map Table.pairs, LexSorted r := by
    intro r hr
    obtain ⟨t, -, rfl⟩ := List.mem_map.mp hr
    exact t.sorted
  have hcov : (ts.map Table.pairs).Pairwise CoversBoth ↔
      ts.Pairwise fun t t' => Covers t.pairs t'.pairs ∧ Covers t'.pairs t.pairs := List.pairwise_map
  rw [← hcov]
  exact collection_iff hs (List.pairwise_map.mpr hd)

/-- The merged iteration is a table exactly for tables that cover each other, and then
it has the newest pair of every key. -/
theorem mergeIteration_iff {ts : List Table} (hd : TimesDistinct ts) :
    (LexSorted (mergeIteration ts) ↔ MergeSafe ts) ∧
      (MergeSafe ts →
        Visits Pair.key Pair.created (ts.map Table.pairs) (mergeIteration ts)) := by
  rcases ts with _ | ⟨t, _ | ⟨t', _ | ⟨t'', ts⟩⟩⟩
  · exact collection_iff_tables hd
  · exact collection_iff_tables hd
  · -- two tables, the second one first
    have h1 : LexSorted (t'.pairs, t.pairs).1 := t'.sorted
    have h2 : LexSorted (t'.pairs, t.pairs).2 := t.sorted
    refine ⟨⟨fun hs => ?_, fun hsafe => ?_⟩, fun hsafe => ?_⟩
    · exact (coversDual_of_sorted h1 h2 hs).symm
    · exact (dual_visits h1 h2 hsafe.symm).increasing
    · exact (dual_visits h1 h2 hsafe.symm).perm (.swap _ _ _)
  · exact collection_iff_tables hd

/-- The pair of a key is the one that has it. -/
theorem lookup_eq_some_iff {t : Table} {key : Key} {p : Pair} :
    t.lookup key = some p ↔ p ∈ t.pairs ∧ p.key = key := by
  unfold Table.lookup
  constructor
  · intro h
    have hkey := List.find?_some h
    exact ⟨List.mem_of_find?_eq_some h, beq_iff_eq.mp hkey⟩
  · rintro ⟨hp, rfl⟩
    have hsome : (t.pairs.find? fun q => q.key == p.key).isSome :=
      List.find?_isSome.mpr ⟨p, hp, beq_self_eq_true _⟩
    obtain ⟨q, hq⟩ := Option.isSome_iff_exists.mp hsome
    have hkey := List.find?_some hq
    have hqp : q = p :=
      eq_of_increasing t.sorted (List.mem_of_find?_eq_some hq) hp (beq_iff_eq.mp hkey)
    rw [hq, hqp]

/-- Pairs of one key and time in tables with distinct times are the same. -/
theorem eq_of_timesDistinct {ts : List Table} (hd : TimesDistinct ts) {t t' : Table} (ht : t ∈ ts)
    (ht' : t' ∈ ts) {p q : Pair} (hp : p ∈ t.pairs) (hq : q ∈ t'.pairs) (hkey : p.key = q.key)
    (htime : p.created = q.created) : p = q := by
  have hsymm : Std.Symm fun a b : Table => ∀ p ∈ a.pairs, ∀ q ∈ b.pairs,
      p.key = q.key → p.created ≠ q.created := ⟨fun _ _ h => Distinct.symm h⟩
  by_cases heq : t = t'
  · subst heq
    exact eq_of_increasing t.sorted hp hq hkey
  · exact absurd htime ((hd.forall ht ht' heq) p hp q hq hkey)

/-- A table that has the newest pairs of some tables may stand in their place. -/
theorem isNewest_iff_of_visits {t : Table} {merged others : List Table} (hd : TimesDistinct merged)
    (hv : Visits Pair.key Pair.created (merged.map Table.pairs) t.pairs) (key : Key) (p : Pair) :
    IsNewest (t :: others) key p ↔ IsNewest (merged ++ others) key p := by
  have hmem : ∀ q ∈ t.pairs, ∃ s ∈ merged, q ∈ s.pairs := by
    intro q hq
    obtain ⟨r, hr, hqr⟩ := hv.mem q hq
    obtain ⟨s, hs, rfl⟩ := List.mem_map.mp hr
    exact ⟨s, hs, hqr⟩
  have hcov : ∀ s ∈ merged, ∀ q ∈ s.pairs, ∃ q' ∈ t.pairs, q'.key = q.key ∧ q.created ≤ q'.created := by
    intro s hs q hq
    obtain ⟨q', hq', hkey⟩ := hv.complete _ (List.mem_map_of_mem hs) q hq
    exact ⟨q', hq', hkey, hv.newest q' hq' _ (List.mem_map_of_mem hs) q hq hkey.symm⟩
  simp only [IsNewest, lookup_eq_some_iff, List.mem_cons, List.mem_append]
  constructor
  · rintro ⟨⟨s, hs, hps, rfl⟩, hmax⟩
    refine ⟨?_, ?_⟩
    · rcases hs with rfl | hs
      · obtain ⟨s', hs', hps'⟩ := hmem p hps
        exact ⟨s', .inl hs', hps', rfl⟩
      · exact ⟨s, .inr hs, hps, rfl⟩
    · rintro s' (hs' | hs') q ⟨hq, hkey⟩
      · obtain ⟨q', hq', hkey', hle⟩ := hcov s' hs' q hq
        exact hle.trans (hmax t (.inl rfl) q' ⟨hq', hkey'.trans hkey⟩)
      · exact hmax s' (.inr hs') q ⟨hq, hkey⟩
  · rintro ⟨⟨s, hs, hps, rfl⟩, hmax⟩
    refine ⟨?_, ?_⟩
    · rcases hs with hs | hs
      · -- the table has a pair that is not older, and hence this one
        obtain ⟨q', hq', hkey', hle⟩ := hcov s hs p hps
        obtain ⟨s', hs', hqs'⟩ := hmem q' hq'
        have hge := hmax s' (.inl hs') q' ⟨hqs', hkey'⟩
        have heq := eq_of_timesDistinct hd hs' hs hqs' hps hkey' (le_antisymm hge hle)
        exact ⟨t, .inl rfl, heq ▸ hq', rfl⟩
      · exact ⟨s, .inr hs, hps, rfl⟩
    · rintro s' (rfl | hs') q ⟨hq, hkey⟩
      · obtain ⟨s'', hs'', hqs''⟩ := hmem q hq
        exact hmax s'' (.inl hs'') q ⟨hqs'', hkey⟩
      · exact hmax s' (.inr hs') q ⟨hq, hkey⟩

/-- A compaction preserves the newest pairs exactly if the merged tables cover each other. -/
theorem preserves_iff (isOK : Pair → Bool) (merged others : List Table)
    (hd : TimesDistinct (merged ++ others)) :
    Preserves merged others (mergeFromFactory isOK merged) ↔ MergeSafe merged := by
  have hdm : TimesDistinct merged := (List.pairwise_append.mp hd).1
  obtain ⟨hiff, hvisits⟩ := mergeIteration_iff hdm
  constructor
  · rintro ⟨t, ht, -⟩
    refine hiff.mp ?_
    rw [show mergeIteration merged = t.pairs from ht.symm]
    exact t.sorted
  · intro hsafe
    refine ⟨⟨mergeIteration merged, hiff.mpr hsafe⟩, rfl, fun key p => ?_⟩
    exact isNewest_iff_of_visits hdm (hvisits hsafe) key p

/-- Two tables with keys of the lower half only. -/
theorem preserves_letters : TimesDistinct
      ([Table.single (letter 97 1), Table.single (letter 98 2)] ++ []) ∧
    (Preserves [Table.single (letter 97 1), Table.single (letter 98 2)] []
        (mergeFromFactory Pair.isTombstone
          [Table.single (letter 97 1), Table.single (letter 98 2)]) ↔
      MergeSafe [Table.single (letter 97 1), Table.single (letter 98 2)]) := by
  have hd : TimesDistinct
      ([Table.single (letter 97 1), Table.single (letter 98 2)] ++ []) := by
    simp [TimesDistinct, Table.single, letter, createTombstone]
  exact ⟨hd, preserves_iff _ _ _ hd⟩

/-- A table with the letter a, and one with an accented letter. -/
def mixedTables : List Table :=
  [Table.single (letter 97 1), Table.single (createTombstone [0xC3, 0xA9] 2)]

/-- The accented letter is written first, and what is written is not a table. -/
theorem compaction_unsorted : ¬ ∀ (isOK : Pair → Bool) (merged others : List Table),
    2 ≤ merged.length → TimesDistinct (merged ++ others) →
      Preserves merged others (mergeFromFactory isOK merged) := by
  intro h
  have hd : TimesDistinct (mixedTables ++ []) := by
    simp [TimesDistinct, mixedTables, Table.single, letter, createTombstone]
  obtain ⟨t, ht, -⟩ := h Pair.isTombstone mixedTables [] le_rfl hd
  have hfile : mergeFromFactory Pair.isTombstone mixedTables =
      [createTombstone [0xC3, 0xA9] 2, letter 97 1] := by decide +kernel
  have hsorted := t.sorted
  rw [ht, hfile] at hsorted
  exact absurd ((List.pairwise_cons.mp hsorted).1 _ List.mem_cons_self) (by decide)

end HM4.Compaction
