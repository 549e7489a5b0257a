import Mathlib.Order.Lattice
import Mathlib.Data.List.Forall2
import Mathlib.Algebra.GroupWithZero.Nat

/-!
# Lanes

A lane is an increasing list of values of which some are live. Walks over several lanes share one
budget: each walk goes to the next live value with a property, and pays for every entry that it
comes to. What is paid for a value that all lanes have in common is the number of entries up to
this value, on whatever way the walks come there.
-/

namespace HM4.Lanes

variable {α : Type*} [LinearOrder α]

/-- Values, with what is live of them. -/
abbrev Lane (α : Type*) := List (α × Bool)

/-- A live value. -/
def Live (lane : Lane α) (r : α) : Prop := (r, true) ∈ lane

/-- The values increase. -/
def Sorted (lane : Lane α) : Prop := lane.Pairwise fun x y => x.1 < y.1

/-- The number of entries up to a value. -/
def upTo (lane : Lane α) (r : α) : ℕ := lane.countP fun e => decide (e.1 ≤ r)

/-- The number of entries up to a value in all lanes. -/
def total (lanes : List (Lane α)) (r : α) : ℕ := (lanes.map fun lane => upTo lane r).sum

/-- The number of entries in all lanes. -/
def size (lanes : List (Lane α)) : ℕ := (lanes.map List.length).sum

/-- A value that all lanes have in common. -/
def Common (lanes : List (Lane α)) (r : α) : Prop := ∀ lane ∈ lanes, Live lane r

/-- What is left of a lane when nothing live with a property has been passed. -/
def Cut (P : α → Prop) (lane lane' : Lane α) : Prop :=
  ∃ passed, lane = passed ++ lane' ∧ ∀ e ∈ passed, e.2 = true → ¬P e.1

section Lane

omit [LinearOrder α] in
theorem Cut.refl (P : α → Prop) (lane : Lane α) : Cut P lane lane :=
  ⟨[], rfl, fun _ he => absurd he List.not_mem_nil⟩

omit [LinearOrder α] in
theorem Cut.trans {P Q : α → Prop} {lane lane' lane'' : Lane α} (hQP : ∀ r, Q r → P r)
    (h : Cut P lane lane') (h' : Cut Q lane' lane'') : Cut Q lane lane'' := by
  obtain ⟨passed, rfl, hpassed⟩ := h
  obtain ⟨passed', rfl, hpassed'⟩ := h'
  refine ⟨passed ++ passed', (List.append_assoc ..).symm, fun e he hlive hq => ?_⟩
  rcases List.mem_append.mp he with he | he
  · exact hpassed e he hlive (hQP _ hq)
  · exact hpassed' e he hlive hq

variable {P : α → Prop} {lane lane' : Lane α} {r : α}

omit [LinearOrder α] in
theorem Cut.cons {e : α × Bool} (he : e.2 = true → ¬P e.1) (h : Cut P lane lane') :
    Cut P (e :: lane) lane' := by
  obtain ⟨passed, rfl, hpassed⟩ := h
  exact ⟨e :: passed, rfl, List.forall_mem_cons.mpr ⟨he, hpassed⟩⟩

omit [LinearOrder α] in
theorem Cut.live_iff (h : Cut P lane lane') (hr : P r) : Live lane' r ↔ Live lane r := by
  obtain ⟨passed, rfl, hpassed⟩ := h
  refine ⟨fun hlive => List.mem_append_right passed hlive, fun hlive => ?_⟩
  exact (List.mem_append.mp hlive).resolve_left fun hmem => hpassed _ hmem rfl hr

theorem Cut.sorted (h : Cut P lane lane') (hsorted : Sorted lane) : Sorted lane' := by
  obtain ⟨passed, rfl, -⟩ := h
  exact (List.pairwise_append.mp hsorted).2.1

/-- What is passed on the way to a live value is counted. -/
theorem Cut.upTo_add (h : Cut P lane lane') (hsorted : Sorted lane) (hr : P r)
    (hlive : Live lane r) : upTo lane r + lane'.length = lane.length + upTo lane' r := by
  have hlive' := (h.live_iff hr).mpr hlive
  obtain ⟨passed, rfl, -⟩ := h
  have hbelow := (List.pairwise_append.mp hsorted).2.2
  have hall : passed.countP (fun e => decide (e.1 ≤ r)) = passed.length :=
    List.countP_eq_length.mpr fun e he => decide_eq_true (hbelow e he _ hlive').le
  rw [upTo, List.countP_append, hall, List.length_append, upTo]
  omega

theorem Cut.upTo_le (h : Cut P lane lane') : upTo lane' r ≤ upTo lane r := by
  obtain ⟨passed, rfl, -⟩ := h
  rw [upTo, upTo, List.countP_append]
  exact Nat.le_add_left _ _

/-- An entry in front of a live value is counted. -/
theorem upTo_cons {e : α × Bool} (h : Sorted (e :: lane)) (hlive : Live lane r) :
    upTo (e :: lane) r = upTo lane r + 1 :=
  List.countP_cons_of_pos (decide_eq_true ((List.pairwise_cons.mp h).1 _ hlive).le)

theorem upTo_pos (h : Live lane r) : 0 < upTo lane r :=
  List.countP_pos_iff.mpr ⟨_, h, decide_eq_true le_rfl⟩

end Lane

/-! ## All lanes -/

section Lanes

variable {lanes : List (Lane α)} {r : α}

theorem total_cons (lane : Lane α) (lanes : List (Lane α)) (r : α) :
    total (lane :: lanes) r = upTo lane r + total lanes r := by
  rw [total, List.map_cons, List.sum_cons, total]

omit [LinearOrder α] in
theorem size_cons (lane : Lane α) (lanes : List (Lane α)) :
    size (lane :: lanes) = lane.length + size lanes := by
  rw [size, List.map_cons, List.sum_cons, size]

omit [LinearOrder α] in
theorem common_cons {lane : Lane α} :
    Common (lane :: lanes) r ↔ Live lane r ∧ Common lanes r := List.forall_mem_cons

/-- Each lane has an entry for a common value. -/
theorem length_le_total (h : Common lanes r) : lanes.length ≤ total lanes r := by
  induction lanes with
  | nil => exact Nat.zero_le _
  | cons lane lanes ih =>
    obtain ⟨hlive, hrest⟩ := common_cons.mp h
    have hpos := upTo_pos hlive
    have hle := ih hrest
    rw [total_cons, List.length_cons]
    omega

end Lanes

/-- Lanes that have one entry each up to a value. -/
theorem total_eq_length {lanes : List (Lane α)} {r : α} (h : ∀ lane ∈ lanes, upTo lane r = 1) :
    total lanes r = lanes.length := by
  induction lanes with
  | nil => rfl
  | cons lane lanes ih =>
    obtain ⟨hone, hrest⟩ := List.forall_mem_cons.mp h
    rw [total_cons, hone, ih hrest, List.length_cons]
    exact Nat.add_comm _ _

/-- What is left of all lanes. -/
abbrev Cuts (P : α → Prop) (lanes lanes' : List (Lane α)) : Prop :=
  List.Forall₂ (Cut P) lanes lanes'

section Cuts

variable {P : α → Prop} {lanes lanes' : List (Lane α)} {r : α}

omit [LinearOrder α] in
theorem Cuts.refl (P : α → Prop) (lanes : List (Lane α)) : Cuts P lanes lanes :=
  List.forall₂_same.mpr fun lane _ => Cut.refl P lane

omit [LinearOrder α] in
theorem Cuts.trans {Q : α → Prop} {lanes'' : List (Lane α)} (hQP : ∀ r, Q r → P r)
    (h : Cuts P lanes lanes') (h' : Cuts Q lanes' lanes'') : Cuts Q lanes lanes'' := by
  induction h generalizing lanes'' with
  | nil =>
    cases h'
    exact .nil
  | cons hone _ ih =>
    cases h' with
    | cons hone' hrest' => exact .cons (hone.trans hQP hone') (ih hrest')

omit [LinearOrder α] in
theorem Cuts.exists_cut (h : Cuts P lanes lanes') {lane' : Lane α} (hmem : lane' ∈ lanes') :
    ∃ lane ∈ lanes, Cut P lane lane' := by
  induction h with
  | nil => exact absurd hmem List.not_mem_nil
  | cons hone _ ih =>
    rcases List.mem_cons.mp hmem with rfl | hmem
    · exact ⟨_, List.mem_cons_self, hone⟩
    · obtain ⟨lane, hlane, hcut⟩ := ih hmem
      exact ⟨lane, List.mem_cons_of_mem _ hlane, hcut⟩

omit [LinearOrder α] in
theorem Cuts.exists_cut_of_left (h : Cuts P lanes lanes') {lane : Lane α} (hmem : lane ∈ lanes) :
    ∃ lane' ∈ lanes', Cut P lane lane' := by
  induction h with
  | nil => exact absurd hmem List.not_mem_nil
  | cons hone _ ih =>
    rcases List.mem_cons.mp hmem with rfl | hmem
    · exact ⟨_, List.mem_cons_self, hone⟩
    · obtain ⟨lane', hlane', hcut⟩ := ih hmem
      exact ⟨lane', List.mem_cons_of_mem _ hlane', hcut⟩

omit [LinearOrder α] in
theorem Cuts.common_iff (h : Cuts P lanes lanes') (hr : P r) :
    Common lanes' r ↔ Common lanes r := by
  induction h with
  | nil => exact Iff.rfl
  | cons hone _ ih =>
    rw [common_cons, common_cons]
    exact and_congr (hone.live_iff hr) ih

theorem Cuts.sorted (h : Cuts P lanes lanes') (hsorted : ∀ lane ∈ lanes, Sorted lane) :
    ∀ lane ∈ lanes', Sorted lane := by
  induction h with
  | nil => exact fun _ hlane => absurd hlane List.not_mem_nil
  | cons hone _ ih =>
    refine List.forall_mem_cons.mpr ⟨hone.sorted (hsorted _ List.mem_cons_self), ?_⟩
    exact ih fun lane hlane => hsorted lane (List.mem_cons_of_mem _ hlane)

/-- What is passed on the way to a common value is counted. -/
theorem Cuts.total_add (h : Cuts P lanes lanes') (hsorted : ∀ lane ∈ lanes, Sorted lane)
    (hr : P r) (hcommon : Common lanes r) :
    total lanes r + size lanes' = size lanes + total lanes' r := by
  induction h with
  | nil => rfl
  | cons hone _ ih =>
    obtain ⟨hlive, hrest⟩ := common_cons.mp hcommon
    have hadd := hone.upTo_add (hsorted _ List.mem_cons_self) hr hlive
    have hind := ih (fun lane hlane => hsorted lane (List.mem_cons_of_mem _ hlane)) hrest
    rw [total_cons, total_cons, size_cons, size_cons]
    omega

/-- An entry that is left of a lane was there. -/
theorem Cuts.exists_upTo (h : Cuts P lanes lanes') {n : ℕ}
    (hex : ∃ lane ∈ lanes', n ≤ upTo lane r) : ∃ lane ∈ lanes, n ≤ upTo lane r := by
  induction h with
  | nil => exact hex
  | @cons lane lane' _ _ hone _ ih =>
    obtain ⟨found, hmem, hle⟩ := hex
    rcases List.mem_cons.mp hmem with rfl | hmem
    · exact ⟨_, List.mem_cons_self, hle.trans hone.upTo_le⟩
    · obtain ⟨found, hmem, hle⟩ := ih ⟨found, hmem, hle⟩
      exact ⟨found, List.mem_cons_of_mem _ hmem, hle⟩

end Cuts

/-- The number of entries beyond a value in all lanes. -/
def beyond (lanes : List (Lane α)) (x : α) : ℕ :=
  (lanes.map fun lane => lane.countP fun e => decide (x < e.1)).sum

section Beyond

variable {lanes lanes' : List (Lane α)}

theorem beyond_cons (lane : Lane α) (lanes : List (Lane α)) (x : α) :
    beyond (lane :: lanes) x = lane.countP (fun e => decide (x < e.1)) + beyond lanes x := by
  rw [beyond, List.map_cons, List.sum_cons, beyond]

theorem beyond_le_size (lanes : List (Lane α)) (x : α) : beyond lanes x ≤ size lanes := by
  induction lanes with
  | nil => exact le_rfl
  | cons lane lanes ih =>
    rw [beyond_cons, size_cons]
    exact Nat.add_le_add List.countP_le_length ih

theorem Cuts.beyond_le {P : α → Prop} (h : Cuts P lanes lanes') (x : α) :
    beyond lanes' x ≤ beyond lanes x := by
  induction h with
  | nil => exact le_rfl
  | cons hone _ ih =>
    obtain ⟨passed, rfl, -⟩ := hone
    rw [beyond_cons, beyond_cons, List.countP_append]
    omega

theorem beyond_anti {x y : α} (h : x ≤ y) : beyond lanes y ≤ beyond lanes x := by
  induction lanes with
  | nil => exact le_rfl
  | cons lane lanes ih =>
    rw [beyond_cons, beyond_cons]
    refine Nat.add_le_add (List.countP_mono_left fun e _ he => ?_) ih
    exact decide_eq_true (h.trans_lt (of_decide_eq_true he))

/-- An entry of a lane is beyond what is below it, but not beyond itself. -/
theorem beyond_lt {x y : α} (h : x < y) {lane : Lane α} (hlane : lane ∈ lanes)
    (hlive : Live lane y) : beyond lanes y < beyond lanes x := by
  induction lanes with
  | nil => exact absurd hlane List.not_mem_nil
  | cons first lanes ih =>
    rw [beyond_cons, beyond_cons]
    have hmono {e : α × Bool} (he : decide (y < e.1) = true) : decide (x < e.1) = true :=
      decide_eq_true (h.trans (of_decide_eq_true he))
    rcases List.mem_cons.mp hlane with rfl | hmem
    · refine Nat.add_lt_add_of_lt_of_le ?_ (beyond_anti h.le)
      obtain ⟨l1, l2, rfl⟩ := List.append_of_mem hlive
      have hy : ((y, true) :: l2).countP (fun e => decide (y < e.1)) =
          l2.countP fun e => decide (y < e.1) :=
        List.countP_cons_of_neg fun hlt => lt_irrefl y (of_decide_eq_true hlt)
      have hx : ((y, true) :: l2).countP (fun e => decide (x < e.1)) =
          l2.countP (fun e => decide (x < e.1)) + 1 := List.countP_cons_of_pos (decide_eq_true h)
      rw [List.countP_append, List.countP_append, hy, hx]
      have h1 := List.countP_mono_left (l := l1) fun e _ he => hmono (e := e) he
      have h2 := List.countP_mono_left (l := l2) fun e _ he => hmono (e := e) he
      omega
    · exact Nat.add_lt_add_of_le_of_lt (List.countP_mono_left fun e _ he => hmono he) (ih hmem)

end Beyond

/-- Walks over all lanes within a budget. They pass nothing live with a property and pay for what
they come to. -/
structure Advanced (P : α → Prop) (budget : ℕ) (lanes : List (Lane α)) (paid : ℕ)
    (lanes' : List (Lane α)) (paid' : ℕ) : Prop where
  cut : Cuts P lanes lanes'
  price : paid' + size lanes' = paid + size lanes
  within : (lanes' = lanes ∧ paid' = paid) ∨ paid' < budget

/-- Walks that cannot go on: what a common value with the property costs is beyond the budget, and
they are not at this value. -/
def Stuck (P : α → Prop) (budget : ℕ) (lanes : List (Lane α)) (paid : ℕ) : Prop :=
  ∀ r, Common lanes r → P r →
    budget + lanes.length ≤ paid + total lanes r ∧ ∃ lane ∈ lanes, 2 ≤ upTo lane r

section Walks

variable {P : α → Prop} {budget paid paid' : ℕ} {lanes lanes' : List (Lane α)} {r : α}

omit [LinearOrder α] in
theorem Advanced.refl (P : α → Prop) (budget : ℕ) (lanes : List (Lane α)) (paid : ℕ) :
    Advanced P budget lanes paid lanes paid :=
  ⟨Cuts.refl P lanes, rfl, .inl ⟨rfl, rfl⟩⟩

omit [LinearOrder α] in
theorem Advanced.trans {Q : α → Prop} {lanes'' : List (Lane α)} {paid'' : ℕ}
    (hQP : ∀ r, Q r → P r) (h : Advanced P budget lanes paid lanes' paid')
    (h' : Advanced Q budget lanes' paid' lanes'' paid'') :
    Advanced Q budget lanes paid lanes'' paid'' where
  cut := h.cut.trans hQP h'.cut
  price := by rw [h'.price, h.price]
  within := by
    rcases h'.within with ⟨rfl, rfl⟩ | hlt
    · exact h.within
    · exact .inr hlt

omit [LinearOrder α] in
/-- A walk over one lane, and then over the others. -/
theorem Advanced.cons {lane lane' : Lane α} {mid : ℕ} (hcut : Cut P lane lane')
    (hprice : mid + lane'.length = paid + lane.length)
    (hwithin : (lane' = lane ∧ mid = paid) ∨ mid < budget)
    (h : Advanced P budget lanes mid lanes' paid') :
    Advanced P budget (lane :: lanes) paid (lane' :: lanes') paid' where
  cut := .cons hcut h.cut
  price := by
    have hrest := h.price
    rw [size_cons, size_cons]
    omega
  within := by
    rcases h.within with ⟨rfl, rfl⟩ | hlt
    · exact hwithin.imp_left fun ⟨hlane, hpaid⟩ => ⟨by rw [hlane], hpaid⟩
    · exact .inr hlt

/-- What is paid and what is left up to a common value stay the same together. -/
theorem Advanced.total_eq (h : Advanced P budget lanes paid lanes' paid')
    (hsorted : ∀ lane ∈ lanes, Sorted lane) (hr : P r) (hcommon : Common lanes r) :
    paid' + total lanes' r = paid + total lanes r := by
  have hsum := h.cut.total_add hsorted hr hcommon
  have hprice := h.price
  omega

/-- Walks that come to where they cannot go on. -/
theorem Stuck.of_advanced {Q : α → Prop} (hQP : ∀ r, Q r → P r)
    (h : Advanced P budget lanes paid lanes' paid') (hsorted : ∀ lane ∈ lanes, Sorted lane)
    (hstuck : Stuck Q budget lanes' paid') : Stuck Q budget lanes paid := by
  intro r hcommon hr
  obtain ⟨hprice, hex⟩ := hstuck r ((h.cut.common_iff (hQP r hr)).mpr hcommon) hr
  rw [h.total_eq hsorted (hQP r hr) hcommon, ← h.cut.length_eq] at hprice
  exact ⟨hprice, h.cut.exists_upTo hex⟩

/-- A walk over one lane, and then walks that cannot go on. -/
theorem Stuck.cons {lane lane' : Lane α} {mid : ℕ} (hcut : Cut P lane lane')
    (hsorted : Sorted lane) (hprice : mid + lane'.length = paid + lane.length)
    (h : Stuck P budget lanes mid) : Stuck P budget (lane :: lanes) paid := by
  intro r hcommon hr
  obtain ⟨hlive, hrest⟩ := common_cons.mp hcommon
  obtain ⟨hle, found, hmem, hfound⟩ := h r hrest hr
  have hadd := hcut.upTo_add hsorted hr hlive
  have hpos := upTo_pos ((hcut.live_iff hr).mpr hlive)
  refine ⟨?_, found, List.mem_cons_of_mem lane hmem, hfound⟩
  rw [List.length_cons, total_cons]
  omega

/-- A walk over the first lane that cannot go on. -/
theorem Stuck.of_head {lane : Lane α}
    (h : ∀ r, Live lane r → P r → budget + 1 ≤ paid + upTo lane r ∧ 2 ≤ upTo lane r) :
    Stuck P budget (lane :: lanes) paid := by
  intro r hcommon hr
  obtain ⟨hlive, hrest⟩ := common_cons.mp hcommon
  obtain ⟨hle, htwo⟩ := h r hlive hr
  have hlen := length_le_total hrest
  refine ⟨?_, lane, List.mem_cons_self, htwo⟩
  rw [List.length_cons, total_cons]
  omega

end Walks

end HM4.Lanes
