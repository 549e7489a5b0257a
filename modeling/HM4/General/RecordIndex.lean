import Mathlib.Data.List.Basic
import Mathlib.Logic.Function.Basic

/-!
# Records under several keys

A record is kept under a control key, which tells what the record is, and under some data keys
made from it. A new version erases the data keys of the old one and fills its own. If no two
records share a key, every control key tells the last version of its record, and of all data
keys a record ever had exactly those of its last version are filled.
-/

namespace HM4.RecordIndex

variable {ι R K V : Type*}

/-- The keys of records, and what a control key holds. -/
structure Scheme (ι R K V : Type*) where
  /-- The control key of a record. -/
  ctrl : ι → K
  /-- The data keys of a version. -/
  keys : ι → R → List K
  /-- What the control key holds for a version. -/
  encode : R → V

variable (S : Scheme ι R K V) (Used : ι → Prop) (Good : ι → R → Prop)

/-- No two records share a key, and no control key is a data key. -/
structure Separate : Prop where
  used : ∀ {i r}, Good i r → Used i
  ctrl_inj : ∀ {i j}, Used i → Used j → S.ctrl i = S.ctrl j → i = j
  ctrl_notMem : ∀ {i j r}, Used i → Good j r → S.ctrl i ∉ S.keys j r
  keys_inj : ∀ {i j r r' k}, Good i r → Good j r' → k ∈ S.keys i r → k ∈ S.keys j r' → i = j

variable {S Used Good} {i : ι} {old : List K}

/-- What is erased of one record is not another one's. -/
theorem Separate.notMem_old (hsep : Separate S Used Good)
    (hold : ∀ k ∈ old, ∃ r, Good i r ∧ k ∈ S.keys i r) {j : ι} (hj : j ≠ i) {r : R}
    (hg : Good j r) {k : K} (hk : k ∈ S.keys j r) : k ∉ old := fun hmem => by
  obtain ⟨r', hr', hk'⟩ := hold k hmem
  exact hj (hsep.keys_inj hg hr' hk hk')

/-- Nor is it a control key. -/
theorem Separate.ctrl_notMem_old (hsep : Separate S Used Good)
    (hold : ∀ k ∈ old, ∃ r, Good i r ∧ k ∈ S.keys i r) {j : ι} (hj : Used j) : S.ctrl j ∉ old :=
  fun hmem => by
    obtain ⟨r, hr, hk⟩ := hold _ hmem
    exact hsep.ctrl_notMem hj hr hk

variable (S Used Good) [BEq K] [LawfulBEq K] (start : K → Option V)

/-- A store holds the last version of each record, and its value; what no record has is as it was
at the start. -/
structure Consistent (last : ι → Option (R × V)) (view : K → Option V) : Prop where
  good : ∀ {i x}, last i = some x → Good i x.1
  ctrl : ∀ {i}, Used i → view (S.ctrl i) = (last i).map fun x => S.encode x.1
  data : ∀ {i r}, Good i r → ∀ k ∈ S.keys i r,
    view k = (last i).bind fun x => if k ∈ S.keys i x.1 then some x.2 else none
  frame : ∀ {k}, (∀ i, Used i → k ≠ S.ctrl i) → (∀ i r, Good i r → k ∉ S.keys i r) →
    view k = start k

variable {S Used Good start} {last : ι → Option (R × V)} {view view' : K → Option V}

/-- A store in which no key of the records is filled holds no records. -/
theorem consistent_empty (hctrl : ∀ i, Used i → start (S.ctrl i) = none)
    (hdata : ∀ i r, Good i r → ∀ k ∈ S.keys i r, start k = none) :
    Consistent S Used Good start (fun _ => none) start where
  good h := absurd h.symm (Option.some_ne_none _)
  ctrl hi := hctrl _ hi
  data hg k hk := hdata _ _ hg k hk
  frame _ _ := rfl

variable [DecidableEq ι] [DecidableEq K]

/-- A new version erases the old data keys that it does not have, and fills its own. -/
theorem Consistent.add (hsep : Separate S Used Good) (h : Consistent S Used Good start last view)
    {r : R} (hr : Good i r) (v : V) (hold : ∀ k ∈ old, ∃ r', Good i r' ∧ k ∈ S.keys i r')
    (hcover : ∀ x, last i = some x → ∀ k ∈ S.keys i x.1, k ∈ old ∨ k ∈ S.keys i r)
    (hview : ∀ k, view' k = if k = S.ctrl i then some (S.encode r)
      else if k ∈ S.keys i r then some v else if k ∈ old then none else view k) :
    Consistent S Used Good start (Function.update last i (some (r, v))) view' where
  good {j x} hx := by
    by_cases hj : j = i
    · subst hj
      rw [Function.update_self] at hx
      exact (Option.some.inj hx) ▸ hr
    · rw [Function.update_of_ne hj] at hx
      exact h.good hx
  ctrl {j} hj := by
    by_cases hji : j = i
    · subst hji
      rw [Function.update_self, hview, if_pos rfl]
      rfl
    · have hne : S.ctrl j ≠ S.ctrl i := fun heq => hji (hsep.ctrl_inj hj (hsep.used hr) heq)
      rw [Function.update_of_ne hji, hview, if_neg hne, if_neg (hsep.ctrl_notMem hj hr),
        if_neg (hsep.ctrl_notMem_old hold hj)]
      exact h.ctrl hj
  data {j r'} hg k hk := by
    have hne : k ≠ S.ctrl i := fun heq => hsep.ctrl_notMem (hsep.used hr) hg (heq ▸ hk)
    rw [hview, if_neg hne]
    by_cases hji : j = i
    · subst hji
      rw [Function.update_self, Option.bind_some]
      by_cases hkr : k ∈ S.keys j r
      · rw [if_pos hkr, if_pos hkr]
      · rw [if_neg hkr, if_neg hkr]
        by_cases hko : k ∈ old
        · rw [if_pos hko]
        · rw [if_neg hko, h.data hg k hk]
          cases hlast : last j with
          | none => rfl
          | some x =>
            have hkx : k ∉ S.keys j x.1 := fun hmem =>
              (hcover x hlast k hmem).elim hko hkr
            rw [Option.bind_some, if_neg hkx]
    · have hkr : k ∉ S.keys i r := fun hmem => hji (hsep.keys_inj hg hr hk hmem)
      rw [Function.update_of_ne hji, if_neg hkr, if_neg (hsep.notMem_old hold hji hg hk)]
      exact h.data hg k hk
  frame {k} hctrl hkeys := by
    have hko : k ∉ old := fun hmem => by
      obtain ⟨r', hr', hk⟩ := hold k hmem
      exact hkeys i r' hr' hk
    rw [hview, if_neg (hctrl i (hsep.used hr)), if_neg (hkeys i r hr), if_neg hko]
    exact h.frame hctrl hkeys

/-- A record that is removed erases all data keys of its last version. -/
theorem Consistent.rem (hsep : Separate S Used Good) (h : Consistent S Used Good start last view)
    (hi : Used i) (hold : ∀ k ∈ old, ∃ r', Good i r' ∧ k ∈ S.keys i r')
    (hcover : ∀ x, last i = some x → ∀ k ∈ S.keys i x.1, k ∈ old)
    (hview : ∀ k, view' k = if k = S.ctrl i then none else if k ∈ old then none else view k) :
    Consistent S Used Good start (Function.update last i none) view' where
  good {j x} hx := by
    by_cases hj : j = i
    · subst hj
      rw [Function.update_self] at hx
      exact absurd hx.symm (Option.some_ne_none x)
    · rw [Function.update_of_ne hj] at hx
      exact h.good hx
  ctrl {j} hj := by
    by_cases hji : j = i
    · subst hji
      rw [Function.update_self, hview, if_pos rfl]
      rfl
    · have hne : S.ctrl j ≠ S.ctrl i := fun heq => hji (hsep.ctrl_inj hj hi heq)
      rw [Function.update_of_ne hji, hview, if_neg hne, if_neg (hsep.ctrl_notMem_old hold hj)]
      exact h.ctrl hj
  data {j r'} hg k hk := by
    have hne : k ≠ S.ctrl i := fun heq => hsep.ctrl_notMem hi hg (heq ▸ hk)
    rw [hview, if_neg hne]
    by_cases hji : j = i
    · subst hji
      rw [Function.update_self, Option.bind_none]
      by_cases hko : k ∈ old
      · rw [if_pos hko]
      · rw [if_neg hko, h.data hg k hk]
        cases hlast : last j with
        | none => rfl
        | some x =>
          have hkx : k ∉ S.keys j x.1 := fun hmem => hko (hcover x hlast k hmem)
          rw [Option.bind_some, if_neg hkx]
    · rw [Function.update_of_ne hji, if_neg (hsep.notMem_old hold hji hg hk)]
      exact h.data hg k hk
  frame {k} hctrl hkeys := by
    have hko : k ∉ old := fun hmem => by
      obtain ⟨r', hr', hk⟩ := hold k hmem
      exact hkeys i r' hr' hk
    rw [hview, if_neg (hctrl i hi), if_neg hko]
    exact h.frame hctrl hkeys

/-! ## Runs -/

variable (S)

/-- The keys of an event, which gives a record its next version or removes it. -/
def made (e : ι × Option (R × V)) : List K := S.ctrl e.1 :: e.2.elim [] fun x => S.keys e.1 x.1

/-- Events of different records make no common key. -/
def Apart (events : List (ι × Option (R × V))) : Prop :=
  ∀ e ∈ events, ∀ f ∈ events, e.1 ≠ f.1 → ∀ k ∈ made S e, k ∉ made S f

/-- The records of some events. -/
def UsedIn (events : List (ι × Option (R × V))) (i : ι) : Prop := ∃ e ∈ events, e.1 = i

/-- The versions of some events. -/
def GoodIn (events : List (ι × Option (R × V))) (i : ι) (r : R) : Prop :=
  ∃ e ∈ events, e.1 = i ∧ ∃ v, e.2 = some (r, v)

/-- The last version of each record. -/
def lastOf (events : List (ι × Option (R × V))) : ι → Option (R × V) :=
  events.foldl (fun m e => Function.update m e.1 e.2) fun _ => none

/-- What should hold after some events: a control key tells the last version of its record, and of
all data keys of the record exactly those of the last version hold its value. All other keys hold
what they held at the start. -/
def Tracked {D : Type*} (decode : V → D) (shown : R → D) (events : List (ι × Option (R × V)))
    (start view : K → Option V) : Prop :=
  (∀ e ∈ events,
    (view (S.ctrl e.1)).map decode = (lastOf events e.1).map (fun x => shown x.1) ∧
      ∀ f ∈ events, f.1 = e.1 → ∀ x ∈ f.2, ∀ k ∈ S.keys e.1 x.1,
        view k = (lastOf events e.1).bind fun y => if k ∈ S.keys e.1 y.1 then some y.2 else none) ∧
    ∀ k, (∀ e ∈ events, k ∉ made S e) → view k = start k

variable {S} {events : List (ι × Option (R × V))}

omit [BEq K] [LawfulBEq K] [DecidableEq ι] [DecidableEq K] in
theorem ctrl_mem_made (e : ι × Option (R × V)) : S.ctrl e.1 ∈ made S e := List.mem_cons_self

omit [BEq K] [LawfulBEq K] [DecidableEq ι] [DecidableEq K] in
theorem mem_made {e : ι × Option (R × V)} {x : R × V} (hx : e.2 = some x) {k : K}
    (hk : k ∈ S.keys e.1 x.1) : k ∈ made S e := by
  rw [made, hx]
  exact List.mem_cons_of_mem _ hk

omit [BEq K] [LawfulBEq K] [DecidableEq ι] [DecidableEq K] in
/-- Records whose events are apart are separate. -/
theorem Apart.separate (h : Apart S events)
    (hctrl : ∀ e ∈ events, ∀ x ∈ e.2, S.ctrl e.1 ∉ S.keys e.1 x.1) :
    Separate S (UsedIn events) (GoodIn events) where
  used := fun ⟨e, he, hi, _⟩ => ⟨e, he, hi⟩
  ctrl_inj := by
    rintro _ _ ⟨e, he, rfl⟩ ⟨f, hf, rfl⟩ heq
    by_contra hne
    have hmem : S.ctrl e.1 ∈ made S f := heq ▸ ctrl_mem_made f
    exact h e he f hf hne _ (ctrl_mem_made e) hmem
  ctrl_notMem := by
    rintro _ _ r ⟨e, he, rfl⟩ ⟨f, hf, rfl, v, hv⟩ hmem
    by_cases hid : e.1 = f.1
    · exact hctrl f hf _ hv (hid ▸ hmem)
    · exact h e he f hf hid _ (ctrl_mem_made e) (mem_made hv hmem)
  keys_inj := by
    rintro _ _ r r' k ⟨e, he, rfl, v, hv⟩ ⟨f, hf, rfl, v', hv'⟩ hk hk'
    by_contra hne
    exact h e he f hf hne k (mem_made hv hk) (mem_made hv' hk')

omit [DecidableEq K] in
/-- Where each step keeps a store consistent, it tracks all events in the end. -/
theorem tracked_run {C σ T D : Type*} {decode : V → D} {shown : R → D}
    {event : C → ι × Option (R × V)} {step : C → σ → σ} {view : T → σ → K → Option V} {Inv : σ → Prop} {cs : List C} {s : σ}
    (hstep : ∀ c ∈ cs, ∀ m s', Inv s' →
      (∀ t, Consistent S (UsedIn (cs.map event)) (GoodIn (cs.map event)) (view t s) m (view t s')) →
      Inv (step c s') ∧
        ∀ t, Consistent S (UsedIn (cs.map event)) (GoodIn (cs.map event)) (view t s)
          (Function.update m (event c).1 (event c).2) (view t (step c s')))
    (hinv : Inv s) (hempty : ∀ t, ∀ c ∈ cs, ∀ k ∈ made S (event c), view t s k = none)
    (hdecode : ∀ c ∈ cs, ∀ x ∈ (event c).2, decode (S.encode x.1) = shown x.1) (t : T) :
    Tracked S decode shown (cs.map event) (view t s)
      (view t (cs.foldl (fun s c => step c s) s)) := by
  have hinit : ∀ t, Consistent S (UsedIn (cs.map event)) (GoodIn (cs.map event)) (view t s)
      (fun _ => none) (view t s) := fun t => by
    refine consistent_empty ?_ ?_
    · rintro _ ⟨e, he, rfl⟩
      obtain ⟨c, hc, rfl⟩ := List.mem_map.mp he
      exact hempty t c hc _ (ctrl_mem_made _)
    · rintro _ r ⟨e, he, rfl, v, hv⟩ k hk
      obtain ⟨c, hc, rfl⟩ := List.mem_map.mp he
      exact hempty t c hc k (mem_made hv hk)
  -- all steps, one after another
  have hall : ∀ (ds : List C) (m : ι → Option (R × V)) (s' : σ), (∀ c ∈ ds, c ∈ cs) → Inv s' →
      (∀ t, Consistent S (UsedIn (cs.map event)) (GoodIn (cs.map event)) (view t s) m (view t s')) →
      ∀ t, Consistent S (UsedIn (cs.map event)) (GoodIn (cs.map event)) (view t s)
        ((ds.map event).foldl (fun m e => Function.update m e.1 e.2) m)
        (view t (ds.foldl (fun s c => step c s) s')) := by
    intro ds
    induction ds with
    | nil => exact fun m s' _ _ h => h
    | cons c ds ih =>
      intro m s' hds hs' h
      obtain ⟨hinv', hcons⟩ := hstep c (hds c List.mem_cons_self) m s' hs' h
      exact ih _ _ (fun d hd => hds d (List.mem_cons_of_mem c hd)) hinv' hcons
  have hrun := hall cs (fun _ => none) s (fun c hc => hc) hinv hinit t
  refine ⟨fun e he => ⟨?_, fun f hf hid x hx k hk => ?_⟩, fun k hk => ?_⟩
  · have hlast : (lastOf (cs.map event) e.1).map (fun x => decode (S.encode x.1)) =
        (lastOf (cs.map event) e.1).map fun x => shown x.1 := by
      refine Option.map_congr fun y hy => ?_
      obtain ⟨f, hf, _, v, hv⟩ := hrun.good hy
      obtain ⟨c, hc, rfl⟩ := List.mem_map.mp hf
      exact hdecode c hc (y.1, v) hv
    have hcomp := congrArg (Option.map decode) (hrun.ctrl ⟨e, he, rfl⟩)
    rw [Option.map_map] at hcomp
    exact hcomp.trans hlast
  · exact hrun.data ⟨f, hf, hid, x.2, hx⟩ k hk
  · refine hrun.frame ?_ ?_
    · rintro _ ⟨e, he, rfl⟩ rfl
      exact hk e he (ctrl_mem_made e)
    · rintro _ r ⟨e, he, rfl, v, hv⟩ hmem
      exact hk e he (mem_made hv hmem)

end HM4.RecordIndex
