import HM4.General.KeyedList
import HM4.PairFactory
import HM4.ThreeWayQuickSort

/-!
# The unsorted list

Pairs are appended as they come. Before the list is written it is sorted by the keys, and of the
pairs with one key the newest is kept. Then it is checked with the comparator of the pairs, which
looks at signed characters first, and the program ends if the list is not in that order.
-/

namespace HM4.UnsortedList

open LexPrefix Bytes MyString Pairs PairFactory KeyedList ThreeWayQuickSort

/-! ## The list -/

/-- The members of the list. -/
structure State where
  /-- The pairs. -/
  vector : List Pair
  /-- Some were appended since the list was sorted. -/
  needSort : Bool

/-- The list before anything is appended. -/
def empty : State := ⟨[], false⟩

/-- The loop of `special_unique` with the pair at `result`. -/
def specialUniqueFrom (result : Pair) : List Pair → List Pair
  | [] => [result]
  | first :: rest =>
    if ¬MyString.equals result.key first.key = true then result :: specialUniqueFrom first rest
    else if result.cmpTime first = .lt then specialUniqueFrom first rest
    else specialUniqueFrom result rest

/-- `special_unique`: what is kept. -/
def special_unique : List Pair → List Pair
  | [] => []
  | first :: rest => specialUniqueFrom first rest

/-- The comparator of `prepareFlush`. -/
def comp (p1 p2 : Pair) : Bool := p1.cmpWithTime p2 false = .lt

/-- `std::is_sorted`. -/
def is_sorted : List Pair → Bool
  | p1 :: p2 :: rest => !comp p2 p1 && is_sorted (p2 :: rest)
  | _ => true

/-- `prepareFlush`: nothing if the program ends. -/
def prepareFlush (l : State) : Option State :=
  if l.needSort = false then some l
  else
    let vector := special_unique (threeWayQuickSort Pair.key l.vector)
    if is_sorted vector = true then some ⟨vector, false⟩ else none

/-- `insertF`, with or without memory for the pair. -/
def insertF (factory : Factory) (now : UInt64) (memory : Bool) (l : State) : State :=
  if h : factory.valid = true ∧ memory = true then
    ⟨l.vector ++ [factory.create h.1 now], true⟩
  else l

/-! ## Runs -/

/-- What is done with a list. -/
inductive Op
  | insertF (factory : Factory) (now : UInt64) (memory : Bool)
  | prepareFlush

namespace Op

/-- An operation. -/
def step (l : State) : Op → Option State
  | insertF factory now memory => some (UnsortedList.insertF factory now memory l)
  | prepareFlush => UnsortedList.prepareFlush l

/-- The pairs that an operation appends. -/
def pairs : Op → List Pair
  | insertF factory now memory =>
    if h : factory.valid = true ∧ memory = true then [factory.create h.1 now] else []
  | prepareFlush => []

end Op

/-- Operations one after another. -/
def run (l : State) (ops : List Op) : Option State := ops.foldlM Op.step l

/-- The pairs that are appended by some operations. -/
def appended (ops : List Op) : List Pair := ops.flatMap Op.pairs

/-! ## What is kept -/

theorem equals_key {p q : Pair} : MyString.equals p.key q.key = true ↔ p.key = q.key :=
  MyString.equals_iff _ _

/-- Of all pairs one that is not older is kept under their key, and no others are. -/
structure Kept (l l' : List Pair) : Prop where
  subperm : l'.Subperm l
  newest : ∀ p ∈ l, ∃ q ∈ l', q.key = p.key ∧ p.created ≤ q.created

theorem Kept.refl (l : List Pair) : Kept l l :=
  ⟨List.Subperm.refl l, fun p hp => ⟨p, hp, rfl, le_rfl⟩⟩

theorem Kept.trans {l l' l'' : List Pair} (h : Kept l l') (h' : Kept l' l'') : Kept l l'' where
  subperm := h'.subperm.trans h.subperm
  newest := fun p hp => by
    obtain ⟨q, hq, hkey, hle⟩ := h.newest p hp
    obtain ⟨q', hq', hkey', hle'⟩ := h'.newest q hq
    exact ⟨q', hq', hkey'.trans hkey, hle.trans hle'⟩

theorem Kept.of_perm {l l' : List Pair} (h : l'.Perm l) : Kept l l' :=
  ⟨h.subperm, fun p hp => ⟨p, h.mem_iff.mpr hp, rfl, le_rfl⟩⟩

theorem Kept.cons {l l' : List Pair} (h : Kept l l') (p : Pair) : Kept (p :: l) (p :: l') where
  subperm := List.subperm_cons p |>.mpr h.subperm
  newest := List.forall_mem_cons.mpr ⟨⟨p, List.mem_cons_self, rfl, le_rfl⟩, fun x hx => by
    obtain ⟨q, hq, hq'⟩ := h.newest x hx
    exact ⟨q, List.mem_cons_of_mem p hq, hq'⟩⟩

/-- An older pair of the same key may go. -/
theorem Kept.drop {p q : Pair} (hkey : q.key = p.key) (hle : p.created ≤ q.created)
    (l : List Pair) : Kept (p :: q :: l) (q :: l) where
  subperm := (List.sublist_cons_self p _).subperm
  newest := List.forall_mem_cons.mpr ⟨⟨q, List.mem_cons_self, hkey, hle⟩,
    fun x hx => ⟨x, hx, rfl, le_rfl⟩⟩

/-- `special_unique` keeps the newest pairs. -/
theorem specialUniqueFrom_kept (result : Pair) (rest : List Pair) :
    Kept (result :: rest) (specialUniqueFrom result rest) := by
  induction rest generalizing result with
  | nil => exact Kept.refl _
  | cons first rest ih =>
    rw [specialUniqueFrom]
    split
    · exact (ih first).cons result
    · next hkey =>
      have heq := equals_key.mp (not_not.mp hkey)
      split
      · next hlt =>
        have hle := ((Pair.cmpTime_eq_lt _ _).mp hlt).le
        exact (Kept.drop heq.symm hle rest).trans (ih first)
      · next hge =>
        have hle := not_lt.mp fun hlt => hge ((Pair.cmpTime_eq_lt _ _).mpr hlt)
        have hswap : Kept (result :: first :: rest) (first :: result :: rest) :=
          Kept.of_perm (List.Perm.swap result first rest)
        exact (hswap.trans (Kept.drop heq hle rest)).trans (ih result)

theorem special_unique_kept (l : List Pair) : Kept l (special_unique l) := by
  cases l with
  | nil => exact Kept.refl _
  | cons first rest => exact specialUniqueFrom_kept first rest

/-- Sorted pairs have increasing keys when one is kept of each. -/
theorem specialUniqueFrom_increasing {result : Pair} {rest : List Pair}
    (h : Sorted Pair.key (result :: rest)) :
    Increasing Pair.key (specialUniqueFrom result rest) := by
  induction rest generalizing result with
  | nil => exact List.pairwise_singleton _ _
  | cons first rest ih =>
    obtain ⟨hresult, hrest⟩ := List.pairwise_cons.mp h
    obtain ⟨hfirst, hrest'⟩ := List.pairwise_cons.mp hrest
    rw [specialUniqueFrom]
    split
    · next hne =>
      have hlt : result.key < first.key := lt_of_le_of_ne (hresult first List.mem_cons_self)
        fun heq => hne (equals_key.mpr heq)
      refine Increasing.cons_iff.mpr ⟨fun q hq => ?_, ih hrest⟩
      have hin := (specialUniqueFrom_kept first rest).subperm.subset hq
      rcases List.mem_cons.mp hin with rfl | hin
      · exact hlt
      · exact hlt.trans_le (hfirst q hin)
    · split
      · exact ih hrest
      · exact ih (List.pairwise_cons.mpr
          ⟨fun q hq => hresult q (List.mem_cons_of_mem first hq), hrest'⟩)

theorem special_unique_increasing {l : List Pair} (h : Sorted Pair.key l) :
    Increasing Pair.key (special_unique l) := by
  cases l with
  | nil => exact List.Pairwise.nil
  | cons first rest => exact specialUniqueFrom_increasing h

/-! ## The check -/

theorem comp_eq_false {p q : Pair} (h : comp q p = false) :
    signedWord p.key ≤ signedWord q.key := by
  refine not_lt.mp fun hlt => ?_
  have hcmp : q.cmp p.key = .lt := by
    rw [Pair.cmp_key, compare_eq_lex_signedWord, lex_eq_lt.mpr hlt]
  have hcomp : comp q p = true := by
    rw [comp, Pair.cmpWithTime, hcmp]
    rfl
  exact absurd (h.symm.trans hcomp) Bool.false_ne_true

/-- The check looks at each pair and the next one, and so at all. -/
theorem pairwise_of_is_sorted {l : List Pair} (h : is_sorted l = true) :
    l.Pairwise fun p q => signedWord p.key ≤ signedWord q.key := by
  induction l with
  | nil => exact List.Pairwise.nil
  | cons p l ih =>
    cases l with
    | nil => exact List.pairwise_singleton _ _
    | cons q l =>
      rw [is_sorted, Bool.and_eq_true, Bool.not_eq_true'] at h
      have hrest := ih h.2
      have hpq := comp_eq_false h.1
      refine List.pairwise_cons.mpr ⟨List.forall_mem_cons.mpr ⟨hpq, fun x hx => ?_⟩, hrest⟩
      exact hpq.trans ((List.pairwise_cons.mp hrest).1 x hx)

/-- The first octets of the keys lie in one half. -/
def OneHalf (l : List Pair) : Prop := ∀ p ∈ l, ∀ q ∈ l, SameHalfHead p.key q.key

instance (l : List Pair) : Decidable (OneHalf l) :=
  inferInstanceAs (Decidable (∀ p ∈ l, ∀ q ∈ l, SameHalfHead p.key q.key))

/-- Pairs with increasing keys pass the check exactly if their first octets lie in one half. -/
theorem is_sorted_iff {l : List Pair} (hinc : Increasing Pair.key l) :
    is_sorted l = true ↔ OneHalf l := by
  constructor
  · intro h
    have hboth := hinc.and (pairwise_of_is_sorted h)
    have hlt : ∀ p ∈ l, ∀ q ∈ l, p.key < q.key → signedWord p.key < signedWord q.key := by
      clear hinc h
      induction l with
      | nil => exact fun _ hp => absurd hp List.not_mem_nil
      | cons x l ih =>
        obtain ⟨hx, hl⟩ := List.pairwise_cons.mp hboth
        have hcompare : ∀ q ∈ l, signedWord x.key < signedWord q.key := fun q hq =>
          lt_of_le_of_ne (hx q hq).2 fun heq => (hx q hq).1.ne (signedWord_injective heq)
        intro p hp q hq hpq
        rcases List.mem_cons.mp hp with rfl | hp'
        · rcases List.mem_cons.mp hq with rfl | hq'
          · exact absurd hpq (lt_irrefl _)
          · exact hcompare q hq'
        · rcases List.mem_cons.mp hq with rfl | hq'
          · exact absurd hpq (hx p hp').1.asymm
          · exact ih hl p hp' q hq' hpq
    intro p hp q hq
    rw [← compare_eq_lex_iff, compare_eq_lex_signedWord]
    rcases lt_trichotomy p.key q.key with hpq | heq | hqp
    · rw [lex_eq_lt.mpr (hlt p hp q hq hpq), lex_eq_lt.mpr hpq]
    · rw [heq, lex_self, lex_self]
    · rw [lex_eq_gt.mpr (hlt q hq p hp hqp), lex_eq_gt.mpr hqp]
  · intro h
    induction l with
    | nil => rfl
    | cons p l ih =>
      cases l with
      | nil => rfl
      | cons q l =>
        obtain ⟨hp, hl⟩ := Increasing.cons_iff.mp hinc
        have hpq := hp q List.mem_cons_self
        have hrest := ih hl fun x hx y hy =>
          h x (List.mem_cons_of_mem p hx) y (List.mem_cons_of_mem p hy)
        have hcmp : q.cmp p.key = .gt := by
          rw [Pair.cmp_key, (compare_eq_lex_iff _ _).mpr (h q
            (List.mem_cons_of_mem p List.mem_cons_self) p List.mem_cons_self), lex_eq_gt]
          exact hpq
        have hcomp : comp q p = false := by
          rw [comp, Pair.cmpWithTime, hcmp]
          rfl
        rw [is_sorted, hcomp, hrest]
        rfl

/-! ## What a run leaves -/

/-- A list after some pairs were appended. -/
structure Holds (pairs : List Pair) (l : State) : Prop where
  kept : Kept pairs l.vector
  checked : l.needSort = false → is_sorted l.vector = true
  sorted : l.needSort = false → Plain (pairs.map Pair.key) → Increasing Pair.key l.vector

theorem holds_empty : Holds [] empty := ⟨Kept.refl _, fun _ => rfl, fun _ _ => List.Pairwise.nil⟩

theorem Kept.append {l l' : List Pair} (h : Kept l l') (pairs : List Pair) :
    Kept (l ++ pairs) (l' ++ pairs) where
  subperm := by
    obtain ⟨l1, hperm, hsub⟩ := h.subperm
    exact ⟨l1 ++ pairs, hperm.append_right pairs, hsub.append (List.Sublist.refl pairs)⟩
  newest := fun p hp => by
    rcases List.mem_append.mp hp with hp | hp
    · obtain ⟨q, hq, hq'⟩ := h.newest p hp
      exact ⟨q, List.mem_append_left _ hq, hq'⟩
    · exact ⟨p, List.mem_append_right _ hp, rfl, le_rfl⟩

/-- The sort keeps what the list holds. -/
theorem Holds.sort {pairs : List Pair} {l : State} (h : Holds pairs l) :
    Kept pairs (special_unique (threeWayQuickSort Pair.key l.vector)) ∧
      (Plain (pairs.map Pair.key) →
        Increasing Pair.key (special_unique (threeWayQuickSort Pair.key l.vector))) :=
  ⟨(h.kept.trans (Kept.of_perm (threeWayQuickSort_perm Pair.key l.vector))).trans
      (special_unique_kept _),
    fun hplain => special_unique_increasing
      (threeWayQuickSort_sorted (hplain.map_subperm h.kept.subperm))⟩

/-- An operation keeps what the list holds. -/
theorem Holds.step {pairs : List Pair} {l l' : State} (h : Holds pairs l) {op : Op}
    (hstep : op.step l = some l') : Holds (pairs ++ op.pairs) l' := by
  cases op with
  | insertF factory now memory =>
    obtain rfl := Option.some.inj hstep
    by_cases hnew : factory.valid = true ∧ memory = true
    · have hpairs : (Op.insertF factory now memory).pairs = [factory.create hnew.1 now] :=
        dif_pos hnew
      rw [hpairs, UnsortedList.insertF, dif_pos hnew]
      exact ⟨h.kept.append _, fun hs => Bool.noConfusion hs, fun hs => Bool.noConfusion hs⟩
    · have hpairs : (Op.insertF factory now memory).pairs = [] := dif_neg hnew
      rw [hpairs, UnsortedList.insertF, dif_neg hnew, List.append_nil]
      exact h
  | prepareFlush =>
    change prepareFlush l = some l' at hstep
    rw [Op.pairs, List.append_nil]
    unfold prepareFlush at hstep
    split at hstep
    · obtain rfl := Option.some.inj hstep
      exact h
    · dsimp only at hstep
      split at hstep
      · next hcheck =>
        obtain rfl := Option.some.inj hstep
        exact ⟨h.sort.1, fun _ => hcheck, fun _ => h.sort.2⟩
      · exact absurd hstep.symm (Option.some_ne_none l')

/-- Plain keys that start in one half pass the check. -/
theorem Holds.prepareFlush {pairs : List Pair} {l : State} (h : Holds pairs l)
    (hplain : Plain (pairs.map Pair.key)) (hhalf : OneHalf pairs) :
    ∃ l', UnsortedList.prepareFlush l = some l' := by
  unfold UnsortedList.prepareFlush
  split
  · exact ⟨l, rfl⟩
  · obtain ⟨hkept, hinc⟩ := h.sort
    have hcheck := (is_sorted_iff (hinc hplain)).mpr fun p hp q hq =>
      hhalf p (hkept.subperm.subset hp) q (hkept.subperm.subset hq)
    dsimp only
    rw [if_pos hcheck]
    exact ⟨_, rfl⟩

/-- A run keeps what the list holds. -/
theorem Holds.run {pairs : List Pair} {l l' : State} (h : Holds pairs l) {ops : List Op}
    (hrun : UnsortedList.run l ops = some l') : Holds (pairs ++ appended ops) l' := by
  induction ops generalizing pairs l with
  | nil =>
    obtain rfl := Option.some.inj hrun
    rwa [appended, List.flatMap_nil, List.append_nil]
  | cons op ops ih =>
    rw [UnsortedList.run, List.foldlM_cons] at hrun
    obtain ⟨l1, hstep, hrest⟩ := Option.bind_eq_some_iff.mp hrun
    have := ih (h.step hstep) hrest
    rwa [appended, List.flatMap_cons, ← List.append_assoc]

/-- A run with plain keys that start in one half does not end the program. -/
theorem Holds.exists_run {pairs : List Pair} {l : State} (h : Holds pairs l) {ops : List Op}
    (hplain : Plain ((pairs ++ appended ops).map Pair.key))
    (hhalf : OneHalf (pairs ++ appended ops)) : ∃ l', UnsortedList.run l ops = some l' := by
  induction ops generalizing pairs l with
  | nil => exact ⟨l, rfl⟩
  | cons op ops ih =>
    rw [appended, List.flatMap_cons, ← List.append_assoc, ← appended] at hplain hhalf
    have hstep : ∃ l1, op.step l = some l1 := by
      cases op with
      | insertF factory now memory => exact ⟨_, rfl⟩
      | prepareFlush =>
        rw [Op.pairs, List.append_nil] at hplain hhalf
        refine h.prepareFlush (hplain.map_subperm (List.sublist_append_left _ _).subperm) ?_
        exact fun p hp q hq =>
          hhalf p (List.mem_append_left _ hp) q (List.mem_append_left _ hq)
    obtain ⟨l1, hstep⟩ := hstep
    obtain ⟨l', hrun⟩ := ih (h.step hstep) hplain hhalf
    refine ⟨l', ?_⟩
    rw [UnsortedList.run, List.foldlM_cons, hstep]
    exact hrun

/-- What the list holds when it is written. -/
structure Flushed (pairs : List Pair) (l : State) : Prop where
  increasing : Increasing Pair.key l.vector
  keys : ∀ key, (∃ p ∈ l.vector, p.key = key) ↔ ∃ p ∈ pairs, p.key = key
  newest : ∀ p ∈ l.vector, p ∈ pairs ∧ ∀ q ∈ pairs, q.key = p.key → q.created ≤ p.created

theorem Kept.flushed {pairs : List Pair} {l : State} (h : Kept pairs l.vector)
    (hinc : Increasing Pair.key l.vector) : Flushed pairs l where
  increasing := hinc
  keys := fun key => by
    constructor
    · rintro ⟨p, hp, rfl⟩
      exact ⟨p, h.subperm.subset hp, rfl⟩
    · rintro ⟨p, hp, rfl⟩
      obtain ⟨q, hq, hkey, -⟩ := h.newest p hp
      exact ⟨q, hq, hkey⟩
  newest := fun p hp => by
    refine ⟨h.subperm.subset hp, fun q hq hkey => ?_⟩
    obtain ⟨x, hx, hxkey, hle⟩ := h.newest q hq
    rwa [hinc.eq_of_mem hx hp (hxkey.trans hkey)] at hle

theorem appended_prepareFlush (ops : List Op) :
    appended (ops ++ [.prepareFlush]) = appended ops := by
  rw [appended, List.flatMap_append, List.flatMap_singleton, Op.pairs, List.append_nil, appended]

/-- After `prepareFlush` nothing waits to be sorted. -/
theorem needSort_prepareFlush {l l' : State} (h : prepareFlush l = some l') :
    l'.needSort = false := by
  unfold prepareFlush at h
  split at h
  · next hs => exact Option.some.inj h ▸ hs
  · dsimp only at h
    split at h
    · exact Option.some.inj h ▸ rfl
    · exact absurd h.symm (Option.some_ne_none l')

/-- What a run leaves that ends with `prepareFlush`. -/
theorem holds_flushed {ops : List Op} {l : State}
    (hrun : run empty (ops ++ [.prepareFlush]) = some l) :
    Holds (appended ops) l ∧ l.needSort = false := by
  have hholds := holds_empty.run hrun
  rw [List.nil_append, appended_prepareFlush] at hholds
  refine ⟨hholds, ?_⟩
  rw [run, List.foldlM_append] at hrun
  obtain ⟨l1, -, hlast⟩ := Option.bind_eq_some_iff.mp hrun
  rw [List.foldlM_cons] at hlast
  obtain ⟨l2, hflush, hnil⟩ := Option.bind_eq_some_iff.mp hlast
  obtain rfl := Option.some.inj hnil
  exact needSort_prepareFlush hflush

/-- Before it is written the list holds the newest pair of each key in the order of the keys, only
if the first octets of the keys lie in one half. If the keys are plain this is enough. -/
theorem flushed_iff (ops : List Op) :
    ((∃ l, run empty (ops ++ [.prepareFlush]) = some l ∧ Flushed (appended ops) l) →
        OneHalf (appended ops)) ∧
      (Plain ((appended ops).map Pair.key) → OneHalf (appended ops) →
        ∃ l, run empty (ops ++ [.prepareFlush]) = some l ∧ Flushed (appended ops) l) := by
  constructor
  · rintro ⟨l, hrun, hflushed⟩
    obtain ⟨hholds, hclean⟩ := holds_flushed hrun
    have hhalf := (is_sorted_iff hflushed.increasing).mp (hholds.checked hclean)
    intro p hp q hq
    obtain ⟨p', hp', hpkey⟩ := (hflushed.keys p.key).mpr ⟨p, hp, rfl⟩
    obtain ⟨q', hq', hqkey⟩ := (hflushed.keys q.key).mpr ⟨q, hq, rfl⟩
    exact hpkey ▸ hqkey ▸ hhalf p' hp' q' hq'
  · intro hplain hhalf
    have happended : [] ++ appended (ops ++ [.prepareFlush]) = appended ops := by
      rw [List.nil_append, appended_prepareFlush]
    obtain ⟨l, hrun⟩ := @Holds.exists_run [] empty holds_empty (ops ++ [.prepareFlush])
      (happended ▸ hplain) (happended ▸ hhalf)
    obtain ⟨hholds, hclean⟩ := holds_flushed hrun
    exact ⟨l, hrun, hholds.kept.flushed (hholds.sorted hclean hplain)⟩

/-- Two versions of a key, and another one. -/
def letters : List Op :=
  [.insertF (normal [98] [1] 0 7) 0 true, .insertF (normal [97] [1] 0 5) 0 true,
    .insertF (normal [98] [2] 0 9) 0 true]

theorem flushed_letters :
    ∃ l, run empty (letters ++ [.prepareFlush]) = some l ∧ Flushed (appended letters) l :=
  (flushed_iff letters).2 (plain_of_low (by decide +kernel)) (by decide +kernel)

/-- A letter, and one with an accent: the program ends. -/
theorem run_latin :
    run empty [.insertF (normal [97] [1] 0 0) 0 true, .insertF (normal [233] [1] 0 0) 0 true,
      .prepareFlush] = none := by
  decide +kernel

end HM4.UnsortedList
