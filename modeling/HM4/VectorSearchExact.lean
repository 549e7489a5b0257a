import HM4.VectorSearchIndex

/-!
# Searches after runs

Vectors that are added to a set with one type and one dimension are found: `VSIMFLAT` answers with
the nearest ones, on one page or on several, and `VSIM` with the nearest ones of those that agree
with the query. The index has to have more than one dimension, or the vectors only one.
-/

namespace HM4.VectorSearch

open LexPrefix Bytes Pairs KeyedList Database IndexToken AccumulateResults VectorsStorage
open Vectors2 VectorIndex Separated
open RSet (makeKeyCtrl sortUnique)
open TopHeap (offer sortHeap lessThan Smallest)

/-! ## Stored vectors of one kind -/

/-- An operation on a set with a type and a dimension. -/
def OfKind (keyN : Key) (T : Element) (dim : ℕ) : Op → Prop
  | .add _ _ a _ => a.keyN = keyN ∧ a.T = T ∧ a.dim_ix = dim
  | .rem _ T' dim' keyN' _ => keyN' = keyN ∧ T' = T ∧ dim' = dim

/-- An operation that does not make vectors smaller to one dimension. -/
def KeepsDimensions : Op → Prop
  | .add _ _ a _ => a.dim_ix ≠ 1 ∨ a.dim_ve = 1
  | .rem _ _ _ _ _ => True

/-- A list with vectors of one kind and their index. -/
structure Kept (simhash : Element → Key → ℕ → ℕ) (murmur_hash64a : Key → UInt64) (keyN : Key)
    (T : Element) (dim : ℕ) (db0 : Db) (m : Key × Key → Option Version) (db : Db) : Prop where
  stored : Stored simhash murmur_hash64a (· = keyN) db0 m db
  increasing : Increasing Pair.key db
  same : ∀ s y, m (keyN, s) = some y → y.T = T ∧ toStoredVector T y.blob dim = some y.blob

section Run

variable {F : Type*} [Zero F] [LT F] [DecidableLT F] {A : Arithmetic F}
  {simhash : Element → Key → ℕ → ℕ} {murmur_hash64a : Key → UInt64} {keyN : Key} {T : Element}
  {dim : ℕ} {db0 db : Db} {m : Key × Key → Option Version}

/-- One operation keeps the vectors and their index. -/
theorem Kept.step (h : Kept simhash murmur_hash64a keyN T dim db0 m db) {o : Op}
    (hsound : o.Sound) (hnamed : Named (· = keyN) o.name) (hkind : OfKind keyN T dim o)
    (hdim : KeepsDimensions o) : ∃ db', o.step A simhash murmur_hash64a db = some db' ∧
      Kept simhash murmur_hash64a keyN T dim db0 (o.after A m) db' := by
  cases o with
  | add env raw a item =>
    obtain ⟨⟨p, hread⟩, -⟩ := hsound
    obtain ⟨rfl, rfl, rfl⟩ := hkind
    obtain ⟨db', hstep, hdb', hstored'⟩ := stored_add h.stored h.increasing env raw hread hnamed
      (fits_of_same (A := A) env raw hdim fun x hx => h.same item.1 x hx)
    refine ⟨db', hstep, hstored', hdb', fun s y hy => ?_⟩
    obtain ⟨-, hle, hmax, -⟩ := readAdd_accepted hread
    obtain ⟨value, hvalue, haccept⟩ := exists_stored A a.T
      ((createFloatVector_dim A hread item.2).mpr hdim) (hle.trans hmax)
      (show ((List.range (bytes a.T a.dim_ix)).map raw).length = _ by
        rw [List.length_map, List.length_range])
    have hvalue' : itemValue A raw a item = some value := hvalue
    rw [Op.after, hvalue', Option.map_some] at hy
    by_cases hs : s = item.1
    · rw [hs, Function.update_self] at hy
      obtain rfl := Option.some.inj hy
      exact ⟨rfl, haccept⟩
    · rw [Function.update_of_ne fun heq => hs (Prod.ext_iff.mp heq).2] at hy
      exact h.same s y hy
  | rem env T' dim' keyN' keySub =>
    obtain ⟨rfl, rfl, rfl⟩ := hkind
    obtain ⟨db', hstep, hdb', hstored'⟩ := stored_rem (A := A) h.stored h.increasing env T' dim'
      hnamed fun x hx => .inr fun text htext => (h.same keySub x hx).1 ▸ htext
    refine ⟨db', hstep, hstored', hdb', fun s y hy => ?_⟩
    rw [Op.after] at hy
    by_cases hs : s = keySub
    · rw [hs, Function.update_self] at hy
      exact h.same keySub y (Option.filter_eq_some_iff.mp hy).1
    · rw [Function.update_of_ne fun heq => hs (Prod.ext_iff.mp heq).2] at hy
      exact h.same s y hy

/-- So do all operations of a run. -/
theorem Kept.run {ops : List Op} (h : Kept simhash murmur_hash64a keyN T dim db0 m db)
    (hsound : ∀ o ∈ ops, o.Sound) (hnamed : ∀ o ∈ ops, Named (· = keyN) o.name)
    (hkind : ∀ o ∈ ops, OfKind keyN T dim o) (hdim : ∀ o ∈ ops, KeepsDimensions o) :
    ∃ db', ops.foldlM (fun db o => o.step A simhash murmur_hash64a db) db = some db' ∧
      Kept simhash murmur_hash64a keyN T dim db0 (afterAll A ops m) db' := by
  induction ops generalizing m db with
  | nil => exact ⟨db, rfl, h⟩
  | cons o ops ih =>
    obtain ⟨db', hstep, h'⟩ := h.step (A := A) (hsound o List.mem_cons_self)
      (hnamed o List.mem_cons_self) (hkind o List.mem_cons_self) (hdim o List.mem_cons_self)
    rw [List.foldlM_cons, hstep, Option.bind_eq_bind, Option.bind_some]
    exact ih h' (fun o' ho' => hsound o' (List.mem_cons_of_mem o ho'))
      (fun o' ho' => hnamed o' (List.mem_cons_of_mem o ho'))
      (fun o' ho' => hkind o' (List.mem_cons_of_mem o ho'))
      fun o' ho' => hdim o' (List.mem_cons_of_mem o ho')

/-- After a run of commands of one kind the vectors and their index are there. -/
theorem kept_run {commands : List Command} (hdb : Increasing Pair.key db0)
    (hsep : separator ∉ keyN)
    (hclear : ∀ now key, keyN ++ [separator] <+: key → holds now db0 key = none)
    (hkind : ∀ c ∈ commands, ∀ o ∈ c.ops, OfKind keyN T dim o)
    (hdim : ∀ c ∈ commands, ∀ o ∈ c.ops, KeepsDimensions o) :
    ∃ db, VectorIndex.run A simhash murmur_hash64a commands db0 = some db ∧
      Kept simhash murmur_hash64a keyN T dim db0
        (afterAll A (commands.flatMap Command.ops) fun _ => none) db := by
  have hall {P : Op → Prop} (h : ∀ c ∈ commands, ∀ o ∈ c.ops, P o) :
      ∀ o ∈ commands.flatMap Command.ops, P o := fun o ho => by
    obtain ⟨c, hc, ho⟩ := List.mem_flatMap.mp ho
    exact h c hc o ho
  have hsound : ∀ o ∈ commands.flatMap Command.ops, o.Sound := hall fun c _ => ops_sound c
  have hnamed : ∀ o ∈ commands.flatMap Command.ops, Named (· = keyN) o.name := by
    intro o ho
    have hso := hsound o ho
    have hname : o.name.1 = keyN := by
      have hk := hall hkind o ho
      cases o with
      | add env raw a item => exact hk.1
      | rem env T' dim' keyN' keySub => exact hk.1
    refine ⟨⟨hname, hname.symm ▸ hsep⟩, ?_⟩
    cases o with
    | add env raw a item => exact hso.2
    | rem env T' dim' keyN' keySub => exact hso
  have hempty : ∀ now i, Named (· = keyN) i → ∀ k, CtrlKey i.1 i.2 k ∨ DataKey 1 i.1 i.2 k →
      holds now db0 k = none := by
    rintro now ⟨name, s⟩ ⟨⟨rfl, -⟩, -⟩ k hk
    refine hclear now k ?_
    rcases hk with hk | ⟨t, ts, hk, -⟩
    · exact ⟨_, by rw [hk, List.append_assoc, List.singleton_append]⟩
    · exact ⟨_, by rw [hk, List.append_assoc, List.singleton_append]⟩
  have hstart : Kept simhash murmur_hash64a keyN T dim db0 (fun _ => none) db0 :=
    ⟨stored_start hempty, hdb, fun s y hy => nomatch hy⟩
  obtain ⟨db, hrun, hkept⟩ := hstart.run (A := A) hsound hnamed (hall hkind) (hall hdim)
  exact ⟨db, by rw [run_eq, hrun], hkept⟩

end Run

/-! ## What is read -/

theorem readQuery_set (p : List Key) (start : Key) : readQuery (p.set 6 start) = readQuery p := by
  have hget {i : ℕ} (hi : i ≠ 6) : (p.set 6 start).getD i [] = p.getD i [] := by
    rw [List.getD_eq_getElem?_getD, List.getD_eq_getElem?_getD, List.getElem?_set_ne hi.symm]
  unfold readQuery
  rw [hget (by decide), hget (by decide), hget (by decide), hget (by decide), hget (by decide)]

theorem readFlat_accepted {p : List Key} {a : SimArgs} {startKey : Key}
    (h : readFlat p = .ok (a, startKey)) :
    valid a.keyN ∧ ∀ start, readFlat (p.set 6 start) = .ok (a, start) := by
  unfold readFlat at h
  by_cases hlen : p.length = 7
  · rw [if_neg (not_not.mpr hlen)] at h
    cases hquery : readQuery p with
    | error message =>
      rw [hquery] at h
      exact nomatch h
    | ok b =>
      rw [hquery] at h
      dsimp only at h
      by_cases hvalid : valid b.keyN ∧ valid b.keySub
      · rw [if_neg (not_not.mpr hvalid)] at h
        obtain ⟨rfl, -⟩ := Prod.mk.inj (Except.ok.inj h)
        refine ⟨hvalid.1, fun start => ?_⟩
        have hstart : (p.set 6 start).getD 6 [] = start := by
          rw [List.getD_eq_getElem?_getD, List.getElem?_set_self (by omega), Option.getD_some]
        unfold readFlat
        rw [List.length_set, if_neg (not_not.mpr hlen), readQuery_set, hquery]
        dsimp only
        rw [if_neg (not_not.mpr hvalid), hstart]
      · rw [if_pos hvalid] at h
        exact nomatch h
  · rw [if_pos hlen] at h
    exact nomatch h

theorem fixBits_bounds (bits : ℕ) : MIN_BITS ≤ fixBits bits ∧ fixBits bits ≤ MAX_BITS := by
  unfold fixBits MIN_BITS MAX_BITS
  split <;> omega

theorem fixBands_le (bands : ℕ) : fixBands bands ≤ MAX_BANDS := by
  unfold fixBands MAX_BANDS
  split <;> omega

theorem readSim_accepted {p : List Key} {a : SimArgs} {bands bits : ℕ}
    (h : readSim p = .ok (a, bands, bits)) :
    valid a.keyN ∧ bands ≤ MAX_BANDS ∧ MIN_BITS ≤ bits ∧ bits ≤ MAX_BITS := by
  unfold readSim at h
  by_cases hlen : p.length = 8
  · rw [if_neg (not_not.mpr hlen)] at h
    cases hquery : readQuery p with
    | error message =>
      rw [hquery] at h
      exact nomatch h
    | ok b =>
      rw [hquery] at h
      dsimp only at h
      by_cases hnil : b.keySub = []
      · rw [if_pos hnil] at h
        exact nomatch h
      · rw [if_neg hnil] at h
        by_cases hvalid : valid b.keyN ∧ valid b.keySub
        · rw [if_neg (not_not.mpr hvalid)] at h
          obtain ⟨rfl, hrest⟩ := Prod.mk.inj (Except.ok.inj h)
          obtain ⟨rfl, rfl⟩ := Prod.mk.inj hrest
          exact ⟨hvalid.1, fixBands_le _, fixBits_bounds _⟩
        · rw [if_pos hvalid] at h
          exact nomatch h
  · rw [if_pos hlen] at h
    exact nomatch h

/-! ## What is answered -/

section Answers

variable {D : Type*} [LinearOrder D] (M : Metric D)

/-- The nearest ones of the other vectors that have a property, in the order of the distances that
are answered. -/
structure Nearest (m : Key × Key → Option Version) (a : SimArgs) (vectorA : Key)
    (P : Version → Prop) (shown : List (VSIMHeapNode D)) : Prop where
  smallest : ∃ nodes, Others m a.keyN a.keySub P (M.prepared a.dtype a.T vectorA) nodes ∧
    Smallest results nodes shown
  sorted : (shown.map fun node => M.fix a.dtype vectorA (ofLex node).1).Pairwise (· ≤ ·)

theorem nearest_of_others {m : Key × Key → Option Version} {a : SimArgs} {vectorA : Key}
    {P : Version → Prop} {nodes : List (VSIMHeapNode D)}
    (h : Others m a.keyN a.keySub P (M.prepared a.dtype a.T vectorA) nodes) :
    Nearest M m a vectorA P (sortHeap lessThan (nodes.foldl (offer lessThan results) #[])) := by
  have hsmall := TopHeap.smallest_sortHeap (by decide : 0 < results) nodes
  refine ⟨⟨nodes, h, hsmall⟩, List.pairwise_map.mpr (hsmall.sorted.imp fun hle => ?_)⟩
  refine M.fix_mono a.dtype vectorA ?_
  rcases Prod.Lex.le_iff.mp hle with hlt | ⟨heq, -⟩
  · exact hlt.le
  · exact heq.le

variable (simhash : Element → Key → ℕ → ℕ) (m : Key × Key → Option Version) (keyN : Key)
  (T : Element) (dim : ℕ) (db : Db)

/-- A search for a vector that is stored in a set of a type and a dimension. -/
structure Asks (a : SimArgs) (x : Version) : Prop where
  set : a.keyN = keyN
  type : a.T = T
  dimension : a.dim_ix = dim
  query : m (keyN, a.keySub) = some x

/-- What the searches are for. `VSIMFLAT` answers on one page with the nearest ones of all other
vectors, if its budget is enough, and on several pages with these among others. `VSIM` answers with
the nearest ones of the vectors that agree with the query, if its scans are within their limits. -/
structure SearchesExactly : Prop where
  onePage : ∀ check p a x, readFlat p = .ok (a, []) → Asks m keyN T dim a x →
    (seen keyN db).length ≤ ITERATIONS_LOOPS_VSIM →
      ∃ shown, Nearest M m a x.blob (fun _ => True) shown ∧
        vsimflat M check p db = .container (finish M a.dtype x.blob shown ++ [[]])
  pages : ∀ check p a startKey x, readFlat p = .ok (a, startKey) → Asks m keyN T dim a x →
    (∀ start, vsimflat M check (p.set 6 start) db =
      .container (finish M a.dtype x.blob (flat M check a x.blob start db).2 ++
        [(flat M check a x.blob start db).1])) ∧
    (∃ pages, Pages (fun start => flat M check a x.blob start db) [] pages) ∧
    ∀ pages, Pages (fun start => flat M check a x.blob start db) [] pages →
      ∃ nodes, Others m keyN a.keySub (fun _ => True) (M.prepared a.dtype T x.blob) nodes ∧
        (∀ node ∈ pages.flatten, node ∈ nodes) ∧
        ∀ node ∈ nodes, (nodes.filter fun other => decide (other < node)).length < results →
          node ∈ pages.flatten
  bands : ∀ check p a bands bits x, readSim p = .ok (a, bands, bits) → Asks m keyN T dim a x →
    (∀ index ∈ indexesOf simhash bands bits T x.blob, WithinLimits check keyN index db) →
      ∃ shown, Nearest M m a x.blob (fun y => Agree simhash bands bits T x.blob y.blob) shown ∧
        vsim M simhash check p db = .container (finish M a.dtype x.blob shown)

variable {simhash m keyN T dim db} {murmur_hash64a : Key → UInt64} {db0 : Db}
  (h : Kept simhash murmur_hash64a keyN T dim db0 m db) (hsep : separator ∉ keyN)
  (hclear : ∀ now key, keyN ++ [separator] <+: key → holds now db0 key = none)

include h in
/-- The vector of a query is read. -/
theorem Kept.query (check : Key → UInt64) {a : SimArgs} {x : Version}
    (hasks : Asks m keyN T dim a x) :
    getData check a.keyN a.keySub db = x.blob ∧
      toStoredVector a.T x.blob a.dim_ix = some x.blob := by
  obtain ⟨rfl, rfl, rfl, hx⟩ := hasks
  have hctrl := h.stored.ctrl_eq (named_of_some h.stored hx)
    (check (makeKeyCtrl a.keyN a.keySub))
  rw [hx, Option.map_some] at hctrl
  exact ⟨congrArg (Option.getD · []) hctrl, (h.same a.keySub x hx).2⟩

include h in
/-- The answer for a start key. -/
theorem Kept.vsimflat_eq (check : Key → UInt64) {p : List Key} {a : SimArgs} {startKey : Key}
    {x : Version} (hread : readFlat p = .ok (a, startKey)) (hasks : Asks m keyN T dim a x) :
    vsimflat M check p db =
      .container (finish M a.dtype x.blob (flat M check a x.blob startKey db).2 ++
        [(flat M check a x.blob startKey db).1]) := by
  obtain ⟨hdata, hvector⟩ := h.query check hasks
  unfold vsimflat
  rw [hread]
  dsimp only
  rw [hdata, hvector]

include h hsep hclear

/-- The vectors and their index are enough for exact searches. -/
theorem Kept.searchesExactly : SearchesExactly M simhash m keyN T dim db := by
  have hset : keyN = keyN ∧ separator ∉ keyN := ⟨rfl, hsep⟩
  refine ⟨fun check p a x hread hasks hbudget => ?_, fun check p a startKey x hread hasks => ?_,
    fun check p a bands bits x hread hasks hlimits => ?_⟩
  · have hanswer := h.vsimflat_eq M check hread hasks
    obtain ⟨hN, -⟩ := readFlat_accepted hread
    obtain ⟨rfl, rfl, rfl, -⟩ := hasks
    have hothers := others_seen h.stored h.increasing hset hN hclear
      (fun s y hy => (h.same s y hy).2)
      check a.keySub (M.prepared a.dtype a.T x.blob)
    refine ⟨_, nearest_of_others M hothers, ?_⟩
    rw [hanswer, flat_eq M check hN x.blob h.increasing (.inl rfl), view, if_pos rfl,
      List.drop_eq_nil_of_le hbudget, List.take_of_length_le hbudget]
    rfl
  · obtain ⟨hN, hset6⟩ := readFlat_accepted hread
    refine ⟨fun start => h.vsimflat_eq M check (hset6 start) hasks, ?_, fun pages hpages => ?_⟩
    · obtain ⟨rfl, rfl, rfl, -⟩ := hasks
      exact exists_pages M check hN x.blob h.increasing (List.nil_append _).symm rfl (.inl rfl)
    · obtain ⟨rfl, rfl, rfl, -⟩ := hasks
      obtain ⟨parts, rfl, hall, hsmall⟩ := parts_of_pages M check hN x.blob h.increasing hpages
        (List.nil_append _).symm rfl (.inl rfl)
      have hothers := others_seen h.stored h.increasing hset hN hclear
        (fun s y hy => (h.same s y hy).2) check a.keySub (M.prepared a.dtype a.T x.blob)
      refine ⟨_, hothers, fun node hnode => ?_, fun node hnode hless => ?_⟩
      · obtain ⟨shown, hshown, hmem⟩ := List.mem_flatten.mp hnode
        obtain ⟨part, hpart, rfl⟩ := List.mem_map.mp hshown
        refine hall ▸ List.mem_flatMap.mpr ⟨part, hpart, (hsmall part hpart).subset hmem⟩
      · rw [← List.flatMap_def]
        exact TopHeap.mem_of_parts hsmall (hall ▸ hnode) (hall ▸ hless)
  · obtain ⟨hN, hbands, hlow, hhigh⟩ := readSim_accepted hread
    obtain ⟨hdata, hvector⟩ := h.query check hasks
    obtain ⟨rfl, rfl, rfl, -⟩ := hasks
    have hothers := others_names h.stored h.increasing check hset hclear h.same x.blob hbands hlow
      hhigh (M.prepared a.dtype a.T x.blob)
    refine ⟨_, nearest_of_others M hothers, ?_⟩
    have hdecoder : decoder simhash bands bits a.T a.dim_ix x.blob =
        some (indexesOf simhash bands bits a.T x.blob) := by
      rw [decoder, hvector]
      rfl
    unfold vsim
    rw [hread]
    dsimp only
    rw [hdata, hvector, hdecoder]
    dsimp only
    rw [similar_eq M hN h.increasing x.blob hlow hlimits]

end Answers

/-- Distances that are all the same. -/
def flatMetric : Metric ℕ where
  prepared _ _ _ _ := 0
  fix _ _ d := d
  format _ := []
  fix_mono _ _ := monotone_id

/-- `VADD` of two vectors of eight zeros into an index of one bit. -/
def addBits : Command :=
  .VADD (fun _ => ZSet.quiet) (fun _ _ => 0)
    [[], [107], [56], [49], [98], [98], [97], List.replicate 32 0, [98], List.replicate 32 0]

/-- `VSIMFLAT` for the first one. -/
def searchBits : List Key := [[], [107], [49], [98], [104], [97], []]

end HM4.VectorSearch
