import HM4.MIndex2Cursors

/-!
# The intersection of the tokens

The keys that all cursors have are found one after another, as long as they do not cost too much:
a key costs what is in front of it in all lanes, and one for each cursor and each key that was
found before.
-/

namespace HM4.MIndex2

open LexPrefix Bytes Pairs KeyedList Database IndexToken AccumulateResults Lanes
open Autocomplete (extractNth)

section Next

variable (check : Key → UInt64)

/-- What all cursors come to behind a key. -/
inductive Onward (m : Key) (container : List TombstoneIteratorPair)
    (cstop : StopIterationPredicate) :
    List TombstoneIteratorPair × StopIterationPredicate → Prop
  | moved {container' cstop'} (moved : Moved check (m < ·) container cstop container' cstop')
      (behind : ∀ ip ∈ container', m < ip.key)
      (fresh : container ≠ [] → cstop'.iterations < cstop.maxIterations) :
      Onward m container cstop (container', cstop')
  | stuck {container' cstop'} (bad : ∃ ip ∈ container', ip.ok = false)
      (stuck : Stuck (m < ·) cstop.maxIterations (lanes check container) cstop.iterations) :
      Onward m container cstop (container', cstop')

variable {check}

theorem length_nextAll (container : List TombstoneIteratorPair) (cstop : StopIterationPredicate) :
    (nextAll check container cstop).1.length = container.length := by
  induction container generalizing cstop with
  | nil => rfl
  | cons ip container ih =>
    rw [nextAll]
    exact congrArg Nat.succ (ih _)

/-- All cursors go on behind a key that they all have. -/
theorem nextAll_spec {m : Key} {container : List TombstoneIteratorPair}
    (hstand : AllStand check container) (hkey : ∀ ip ∈ container, ip.key = m)
    (hsorted : ∀ l ∈ lanes check container, Sorted l) (cstop : StopIterationPredicate) :
    Onward check m container cstop (nextAll check container cstop) := by
  induction container generalizing cstop with
  | nil =>
    exact .moved (Moved.refl _ hstand cstop) (fun _ h => absurd h List.not_mem_nil)
      (fun h => absurd rfl h)
  | cons ip container ih =>
    obtain ⟨⟨r, rest, hstands⟩, hothers⟩ := AllStand.cons_iff.mp hstand
    obtain ⟨hfirst, hrest⟩ := List.forall_mem_cons.mp hsorted
    obtain ⟨hr, hkeys⟩ := List.forall_mem_cons.mp hkey
    obtain rfl : r = m := hstands.key_eq.symm.trans hr
    have hwalks := next_spec hstands hfirst cstop
    have honward := ih hothers hkeys hrest (ip.next check cstop).2
    rw [nextAll]
    dsimp only
    generalize nextAll check container (ip.next check cstop).2 = out at honward
    rcases hwalks.cases with ⟨r', rest', harrives⟩ | hfails
    · cases honward with
      | @moved container' cstop' hmoved hbehind hfresh =>
        have hlt : (ip.next check cstop).2.iterations < cstop.maxIterations := by
          rcases harrives.within with ⟨hlane, -⟩ | hlt
          · rw [hstands.lane_eq, harrives.stands.lane_eq] at hlane
            exact absurd (Prod.mk.inj (List.cons.inj hlane).1).1.symm harrives.holds.ne
          · exact hlt
        refine .moved (Moved.cons hwalks.max_eq harrives hmoved)
          (List.forall_mem_cons.mpr ⟨harrives.stands.key_eq.symm ▸ harrives.holds, hbehind⟩)
          fun _ => ?_
        rcases hmoved.advanced.within with ⟨-, heq⟩ | hlt'
        · exact heq.symm ▸ hlt
        · exact hwalks.max_eq ▸ hlt'
      | stuck hbad hstuck =>
        obtain ⟨bad, hmem, hok⟩ := hbad
        rw [hwalks.max_eq] at hstuck
        exact .stuck ⟨bad, List.mem_cons_of_mem _ hmem, hok⟩
          (Stuck.cons harrives.cut hfirst harrives.price hstuck)
    · cases honward <;>
        exact .stuck ⟨_, List.mem_cons_self, hfails.ok_eq⟩ (hfails.stuck container)

theorem seek_of_not_ok {ip : TombstoneIteratorPair} (h : ip.ok = false) (target : Key)
    (cstop : StopIterationPredicate) : ip.seek check target cstop = (ip, cstop) := by
  rw [TombstoneIteratorPair.seek]
  cases ip.it.length with
  | zero => rfl
  | succ n => rw [TombstoneIteratorPair.seekLoop, h, Bool.false_and, if_neg Bool.false_ne_true]

/-- A round with a cursor that has ended does not find a key. -/
theorem round_of_not_ok {max : Key} {container : List TombstoneIteratorPair}
    (h : ∃ ip ∈ container, ip.ok = false) (cstop : StopIterationPredicate) :
    (round check max container cstop).1 ≠ .all ∧
      ∃ ip ∈ (round check max container cstop).2.1, ip.ok = false := by
  induction container generalizing cstop with
  | nil =>
    obtain ⟨ip, hmem, -⟩ := h
    exact absurd hmem List.not_mem_nil
  | cons ip container ih =>
    rw [round]
    dsimp only
    by_cases hok : (ip.seek check max cstop).1.ok = true
    · have hothers : ∃ ip ∈ container, ip.ok = false := by
        obtain ⟨bad, hmem, hbad⟩ := h
        rcases List.mem_cons.mp hmem with rfl | hmem
        · rw [seek_of_not_ok hbad, hbad] at hok
          exact absurd hok Bool.false_ne_true
        · exact ⟨bad, hmem, hbad⟩
      rw [if_neg (not_not.mpr hok)]
      by_cases hkey : (ip.seek check max cstop).1.key = max
      · rw [if_neg (not_not.mpr hkey)]
        obtain ⟨hne, bad, hmem, hbad⟩ := ih hothers (ip.seek check max cstop).2
        exact ⟨hne, bad, List.mem_cons_of_mem _ hmem, hbad⟩
      · rw [if_pos hkey]
        obtain ⟨bad, hmem, hbad⟩ := hothers
        exact ⟨Round.noConfusion, bad, List.mem_cons_of_mem _ hmem, hbad⟩
    · rw [if_pos hok]
      exact ⟨Round.noConfusion, _, List.mem_cons_self, Bool.eq_false_iff.mpr hok⟩

theorem rounds_of_not_ok {fuel : ℕ} {max : Key} {container : List TombstoneIteratorPair}
    (h : ∃ ip ∈ container, ip.ok = false) (cstop : StopIterationPredicate) :
    (rounds check fuel max container cstop).1 = none := by
  induction fuel generalizing max container cstop with
  | zero => rfl
  | succ fuel ih =>
    obtain ⟨hne, hbad⟩ := @round_of_not_ok check max container h cstop
    rw [rounds]
    generalize round check max container cstop = out at hne hbad
    obtain ⟨r, container', cstop'⟩ := out
    cases r with
    | exhausted => rfl
    | beyond m => exact ih hbad cstop'
    | all => exact absurd rfl hne

end Next

/-! ## What a key costs -/

section Price

variable (budget : ℕ) (start : List (Lane Key))

/-- What comes behind the last key that was found. -/
def After (prev : Option Key) (r : Key) : Prop := ∀ y ∈ prev, y < r

/-- All cursors go from the last key that was found to a key at once. -/
def Direct (prev : Option Key) (r : Key) : Prop :=
  ∀ l ∈ start, ∀ x, Live l x → After prev x → r ≤ x

/-- A key is found if the entries up to it and the keys that were found before, counted once for
each cursor, are within the budget. The last of these keys does not count if all cursors go from it
to the key at once. -/
def Affordable (found : ℕ) (prev : Option Key) (r : Key) : Prop :=
  (Direct start prev r ∧ total start r + start.length * (found - 1) < budget) ∨
    total start r + start.length * found < budget

variable (check : Key → UInt64)

/-- A search that found some keys and stands at the live pairs behind them. -/
structure Ready (found : ℕ) (prev : Option Key) (fts : FTSIntersector) : Prop where
  active : fts.active = true
  max_eq : fts.cstop.maxIterations = budget
  stands : AllStand check fts.container
  after : ∀ ip ∈ fts.container, After prev ip.key
  cuts : Cuts (After prev) start (lanes check fts.container)
  price : fts.cstop.iterations + size (lanes check fts.container) =
    start.length + start.length * found + size start
  fresh : fts.cstop.iterations < budget + start.length * min found 1

/-- A search that found some keys and has no budget for more. -/
structure Spent (found : ℕ) (prev : Option Key) (fts : FTSIntersector) : Prop where
  bad : ∃ ip ∈ fts.container, ip.ok = false
  lost : ∀ r, Common start r → After prev r → budget ≤ total start r + start.length * (found - 1)

variable {budget start check} {found : ℕ} {prev : Option Key} {fts : FTSIntersector}

theorem call_of_spent (h : Spent budget start found prev fts) : (fts.call check).1 = [] := by
  obtain ⟨bad, hmem, hbad⟩ := h.bad
  rw [FTSIntersector.call]
  cases hcontainer : fts.container with
  | nil => rfl
  | cons front others =>
    dsimp only
    by_cases hactive : fts.active = true
    · rw [if_neg (not_not.mpr hactive)]
      by_cases hok : front.ok = true
      · rw [if_neg (not_not.mpr hok)]
        have hnone := @rounds_of_not_ok check
          (((front :: others).map fun ip => ip.it.length).sum + 1) front.key (front :: others)
          ⟨bad, hcontainer ▸ hmem, hbad⟩ fts.cstop
        generalize rounds check _ front.key (front :: others) fts.cstop = out at hnone
        obtain ⟨o, container', cstop'⟩ := out
        obtain rfl : o = none := hnone
        rfl
      · rw [if_pos hok]
    · rw [if_pos hactive]

theorem Spent.not_affordable (h : Spent budget start found prev fts) {r : Key}
    (hcommon : Common start r) (hafter : After prev r) :
    ¬Affordable budget start found prev r := by
  have hlost := h.lost r hcommon hafter
  have hle : start.length * (found - 1) ≤ start.length * found :=
    Nat.mul_le_mul_left _ (Nat.sub_le found 1)
  rintro (⟨-, hlt⟩ | hlt) <;> omega

theorem size_lanes_le (container : List TombstoneIteratorPair) :
    size (lanes check container) ≤ (container.map fun ip => ip.it.length).sum := by
  induction container with
  | nil => exact le_rfl
  | cons ip container ih =>
    rw [lanes, List.map_cons, size_cons, List.map_cons, List.sum_cons]
    exact Nat.add_le_add (lane_length_le ip) ih

/-- A lane from a key on has one entry up to the key. -/
theorem upTo_head {r : Key} {rest : Lane Key} (h : Sorted ((r, true) :: rest)) :
    upTo ((r, true) :: rest) r = 1 := by
  have hrest : rest.countP (fun e => decide (e.1 ≤ r)) = 0 :=
    List.countP_eq_zero.mpr fun e he hle =>
      absurd ((List.pairwise_cons.mp h).1 e he) (not_lt.mpr (of_decide_eq_true hle))
  have hcons : ((r, true) :: rest).countP (fun e => decide (e.1 ≤ r)) =
      rest.countP (fun e => decide (e.1 ≤ r)) + 1 := List.countP_cons_of_pos (decide_eq_true le_rfl)
  rw [upTo, hcons, hrest]

/-- Nothing of a lane is in front of the key of its cursor. -/
theorem Stands.le {ip : TombstoneIteratorPair} {r : Key} {rest : Lane Key}
    (h : Stands check ip r rest) (hsorted : Sorted (lane check ip)) {x : Key}
    (hx : Live (lane check ip) x) : r ≤ x := by
  rw [h.lane_eq] at hx hsorted
  rcases List.mem_cons.mp hx with heq | hmem
  · exact (Prod.mk.inj heq).1.ge
  · exact ((List.pairwise_cons.mp hsorted).1 _ hmem).le

theorem not_direct (hcuts : Cuts (After prev) start (lanes check fts.container))
    (hstands : AllStand check fts.container) (hafter : ∀ ip ∈ fts.container, After prev ip.key)
    (hsorted : ∀ l ∈ start, Sorted l) {r : Key} (hcommon : Common (lanes check fts.container) r)
    (htwo : ∃ l ∈ lanes check fts.container, 2 ≤ upTo l r) : ¬Direct start prev r := by
  intro hdirect
  obtain ⟨l, hl, hle⟩ := htwo
  obtain ⟨ip, hip, rfl⟩ := List.mem_map.mp hl
  obtain ⟨x, rest, hx⟩ := hstands ip hip
  have hone := hcuts.sorted hsorted _ hl
  obtain ⟨l0, hl0, hcut⟩ := hcuts.exists_cut hl
  have hxAfter : After prev x := hx.key_eq ▸ hafter ip hip
  have hrx : r ≤ x := hdirect l0 hl0 x ((hcut.live_iff hxAfter).mp hx.live) hxAfter
  obtain rfl : r = x := le_antisymm hrx (hx.le hone (hcommon _ hl))
  rw [hx.lane_eq] at hone hle
  rw [upTo_head hone] at hle
  exact absurd hle (by decide)

/-- A search finds the next key that all cursors have, if it can be afforded, and stands behind it
then. -/
theorem Ready.call (h : Ready budget start check found prev fts) (hsorted : ∀ l ∈ start, Sorted l)
    (hstart : start ≠ []) :
    (∃ r, (fts.call check).1 = r ∧ Common start r ∧ After prev r ∧
      (∀ r', Common start r' → After prev r' → r ≤ r') ∧ Affordable budget start found prev r ∧
      (fts.call check).2.ok = true ∧
      (Ready budget start check (found + 1) (some r) (fts.call check).2 ∨
        Spent budget start (found + 1) (some r) (fts.call check).2)) ∨
    ((fts.call check).1 = [] ∧
      ∀ r, Common start r → After prev r → ¬Affordable budget start found prev r) := by
  obtain ⟨container, active, maxIterations, iterations⟩ := fts
  obtain ⟨hactive, hmax, hstands, hafter, hcuts, hprice, hfresh⟩ := h
  dsimp only at hactive hmax hstands hafter hcuts hprice hfresh
  subst hactive hmax
  cases container with
  | nil =>
    have hlen := hcuts.length_eq
    exact absurd (List.eq_nil_of_length_eq_zero hlen) hstart
  | cons front others =>
    have hlanes := hcuts.sorted hsorted
    obtain ⟨⟨r0, rest0, hfront⟩, -⟩ := AllStand.cons_iff.mp hstands
    have hlane0 : lane check front ∈ lanes check (front :: others) := List.mem_cons_self
    have hfuel : beyond (lanes check (front :: others)) front.key <
        ((front :: others).map fun ip => ip.it.length).sum + 1 :=
      Nat.lt_succ_of_le ((beyond_le_size _ _).trans (size_lanes_le _))
    have hfound := rounds_spec hstands hlanes ⟨maxIterations, iterations⟩ hfuel
    have hr0 : ∀ r, Common start r → After prev r → front.key ≤ r := fun r hcommon hr =>
      hfront.key_eq ▸ hfront.le (hlanes _ hlane0) ((hcuts.common_iff hr).mpr hcommon _ hlane0)
    have htotal : ∀ r, Common start r → After prev r →
        iterations + total (lanes check (front :: others)) r =
          start.length + start.length * found + total start r := fun r hcommon hr => by
      have hadd := hcuts.total_add hsorted hr hcommon
      omega
    rw [FTSIntersector.call]
    dsimp only
    rw [if_neg (not_not.mpr rfl), hfront.ok_eq, if_neg (not_not.mpr rfl)]
    generalize rounds check (((front :: others).map fun ip => ip.it.length).sum + 1) front.key
      (front :: others) ⟨maxIterations, iterations⟩ = out at hfound
    cases hfound with
    | none hstuck =>
      refine .inr ⟨rfl, fun r hcommon hr => ?_⟩
      have hcommon' := (hcuts.common_iff hr).mpr hcommon
      obtain ⟨hle, htwo⟩ := hstuck r hcommon' (hr0 r hcommon hr)
      have hnot := @not_direct start check prev ⟨front :: others, true, ⟨maxIterations, iterations⟩⟩
        hcuts hstands hafter hsorted r hcommon' htwo
      have hsum := htotal r hcommon hr
      have hlen := hcuts.length_eq
      dsimp only at hle
      rintro (⟨hdirect, -⟩ | hlt)
      · exact hnot hdirect
      · omega
    | @some m container' cstop' hmoved hle hkeys hleast =>
      have hcuts' := hmoved.advanced.cut
      have hlanes' := hcuts'.sorted hlanes
      have hm : After prev m := fun y hy => (hafter front List.mem_cons_self y hy).trans_le hle
      have hstands' : ∀ l ∈ lanes check container', Live l m ∧ upTo l m = 1 := by
        intro l hl
        obtain ⟨ip, hip, rfl⟩ := List.mem_map.mp hl
        obtain ⟨r, rest, hr⟩ := hmoved.stands ip hip
        obtain rfl : r = m := hr.key_eq.symm.trans (hkeys ip hip)
        have hone := hlanes' _ hl
        refine ⟨hr.live, ?_⟩
        rw [hr.lane_eq] at hone ⊢
        exact upTo_head hone
      have hcommonLanes : Common (lanes check (front :: others)) m :=
        (hcuts'.common_iff le_rfl).mp fun l hl => (hstands' l hl).1
      have hcommon : Common start m := (hcuts.common_iff hm).mp hcommonLanes
      have hlen : start.length = (lanes check container').length :=
        hcuts.length_eq.trans hcuts'.length_eq
      have hpaid : cstop'.iterations = start.length * found + total start m := by
        have hsum := htotal m hcommon hm
        have hadd := hmoved.advanced.total_eq hlanes le_rfl hcommonLanes
        rw [total_eq_length fun l hl => (hstands' l hl).2] at hadd
        dsimp only at hadd
        omega
      have hafford : Affordable maxIterations start found prev m := by
        rcases hmoved.advanced.within with ⟨hsame, heq⟩ | hlt
        · refine .inl ⟨fun l hl x hx hxAfter => ?_, ?_⟩
          · -- the cursors stood at the key already
            obtain ⟨l', hl', hcut⟩ := hcuts.exists_cut_of_left hl
            have hx' := (hcut.live_iff hxAfter).mpr hx
            rw [← hsame] at hl'
            obtain ⟨ip, hip, rfl⟩ := List.mem_map.mp hl'
            obtain ⟨r, rest, hr⟩ := hmoved.stands ip hip
            exact (hkeys ip hip) ▸ hr.key_eq.symm ▸ hr.le (hlanes' _ hl') hx'
          · dsimp only at heq hfresh
            cases found with
            | zero =>
              rw [Nat.zero_min, Nat.mul_zero] at hfresh
              rw [Nat.mul_zero] at hpaid
              rw [Nat.zero_sub, Nat.mul_zero]
              omega
            | succ found =>
              rw [Nat.mul_succ] at hpaid
              rw [Nat.add_sub_cancel]
              have hmin : min (found + 1) 1 = 1 := by omega
              rw [hmin, Nat.mul_one] at hfresh
              omega
        · dsimp only at hlt
          exact .inr (by omega)
      have honward := nextAll_spec hmoved.stands hkeys hlanes' cstop'
      have hlength := @length_nextAll check container' cstop'
      have hne : container' ≠ [] := by
        rintro rfl
        exact hstart (List.eq_nil_of_length_eq_zero hlen)
      dsimp only
      generalize nextAll check container' cstop' = out' at honward hlength
      obtain ⟨container'', cstop''⟩ := out'
      dsimp only at hlength ⊢
      have hmax' := hmoved.max_eq
      dsimp only at hmax'
      have hne'' : container'' ≠ [] := by
        rintro rfl
        exact hne (List.eq_nil_of_length_eq_zero hlength.symm)
      refine .inl ⟨m, rfl, hcommon, hm, fun r hr hrAfter => ?_, hafford, ?_, ?_⟩
      · exact hleast r ((hcuts.common_iff hrAfter).mpr hr) (hr0 r hr hrAfter)
      · rw [FTSIntersector.ok, Bool.true_and]
        cases container'' with
        | nil => exact absurd rfl hne''
        | cons ip rest => rfl
      · have hlater : ∀ r, After (some m) r → m < r := fun r hr => hr m rfl
        have hweaken : ∀ r, m ≤ r → After prev r := fun r hr y hy => (hm y hy).trans_le hr
        cases honward with
        | moved hmoved' hbehind hfresh' =>
          refine .inl ⟨rfl, ?_, hmoved'.stands, fun ip hip y hy => ?_, ?_, ?_, ?_⟩
          · exact hmoved'.max_eq.trans hmax'
          · obtain rfl := Option.some.inj hy
            exact hbehind ip hip
          · refine Cuts.trans hlater ?_ (Cuts.refl _ _)
            exact ((hcuts.trans hweaken hcuts').trans (fun r hr => hr.le) hmoved'.advanced.cut)
          · have hprice' := hmoved.advanced.price
            have hprice'' := hmoved'.advanced.price
            have hcount : container''.length = start.length := by
              rw [hlength, hlen, lanes, List.length_map]
            dsimp only [StopIterationPredicate.advance]
            rw [hcount, Nat.mul_succ]
            dsimp only at hprice'
            omega
          · have hlt := hfresh' hne
            have hcount : container''.length = start.length := by
              rw [hlength, hlen, lanes, List.length_map]
            have hmin : min (found + 1) 1 = 1 := by omega
            dsimp only [StopIterationPredicate.advance]
            rw [hcount, hmin, Nat.mul_one]
            omega
        | stuck hbad hstuck =>
          refine .inr ⟨hbad, fun r hr hrAfter => ?_⟩
          have hmr := hlater r hrAfter
          have hrLanes := (hcuts'.common_iff hmr.le).mpr
            ((hcuts.common_iff (hweaken r hmr.le)).mpr hr)
          obtain ⟨hle', -⟩ := hstuck r hrLanes hmr
          have hadd := hmoved.advanced.total_eq hlanes hmr.le
            ((hcuts.common_iff (hweaken r hmr.le)).mpr hr)
          have hsum := htotal r hr (hweaken r hmr.le)
          rw [Nat.add_sub_cancel]
          dsimp only at hadd
          omega

end Price

/-! ## Pages -/

section Pages

variable (budget : ℕ) (start : List (Lane Key))

/-- The answer for the keys that all lanes have, behind some that were found, with so many places
left on the page. -/
inductive Page : (found : ℕ) → (prev : Option Key) → List Key → (left : ℕ) → List Key → Prop
  | last {found prev left} : Page found prev [] left [[]]
  | short {found prev r rest left} (h : ¬Affordable budget start found prev r) :
      Page found prev (r :: rest) left [[]]
  | full {found prev r rest} (h : Affordable budget start found prev r) :
      Page found prev (r :: rest) 0 [r]
  | more {found prev r rest left answer} (h : Affordable budget start found prev r)
      (next : Page (found + 1) (some r) rest left answer) :
      Page found prev (r :: rest) (left + 1) (FTSIntersector.fixItem r :: [49] :: answer)

/-- All of some keys can be afforded, one after another. -/
def AllAffordable : (found : ℕ) → (prev : Option Key) → List Key → Prop
  | _, _, [] => True
  | found, prev, r :: rest =>
    Affordable budget start found prev r ∧ AllAffordable (found + 1) (some r) rest

/-- What is shown of a key. -/
def shown (r : Key) : List Key := [FTSIntersector.fixItem r, [49]]

variable {budget start} {check : Key → UInt64} {found left : ℕ} {prev : Option Key}
  {fts : FTSIntersector} {common answer : List Key}

theorem collect_zero (fts : FTSIntersector) : collect check 0 fts =
    if ¬fts.ok = true then [] else
      if (fts.call check).1 = [] then [[]] else [(fts.call check).1] := rfl

theorem collect_succ (left : ℕ) (fts : FTSIntersector) : collect check (left + 1) fts =
    if ¬fts.ok = true then [] else
      if (fts.call check).1 = [] then [[]] else
        FTSIntersector.fixItem (fts.call check).1 :: [49] ::
          collect check left (fts.call check).2 := rfl

/-- A call finds the first of the keys that are left, or the page ends. -/
theorem call_cases (hsorted : ∀ l ∈ start, Sorted l) (hstart : start ≠ [])
    (h : Ready budget start check found prev fts ∨ Spent budget start found prev fts)
    (hcommon : common.Pairwise (· < ·))
    (hmem : ∀ r, r ∈ common ↔ Common start r ∧ After prev r) :
    (∃ r rest, common = r :: rest ∧ (fts.call check).1 = r ∧ Common start r ∧
      Affordable budget start found prev r ∧ (fts.call check).2.ok = true ∧
      (Ready budget start check (found + 1) (some r) (fts.call check).2 ∨
        Spent budget start (found + 1) (some r) (fts.call check).2) ∧
      rest.Pairwise (· < ·) ∧ ∀ r', r' ∈ rest ↔ Common start r' ∧ After (some r) r') ∨
    ((fts.call check).1 = [] ∧ Page budget start found prev common left [[]]) := by
  have hshort (hnot : ∀ r, Common start r → After prev r → ¬Affordable budget start found prev r) :
      Page budget start found prev common left [[]] := by
    cases common with
    | nil => exact .last
    | cons r rest =>
      obtain ⟨hr, hafter⟩ := (hmem r).mp List.mem_cons_self
      exact .short (hnot r hr hafter)
  rcases h with hready | hspent
  · rcases hready.call hsorted hstart with ⟨r, hcall, hr, hafter, hleast, hafford, hok, hnext⟩ |
      ⟨hcall, hnot⟩
    · have hin := (hmem r).mpr ⟨hr, hafter⟩
      cases common with
      | nil => exact absurd hin List.not_mem_nil
      | cons r0 rest =>
        obtain ⟨hbelow, hrest⟩ := List.pairwise_cons.mp hcommon
        obtain rfl : r = r0 := by
          rcases List.mem_cons.mp hin with heq | hin
          · exact heq
          · obtain ⟨hr0, hafter0⟩ := (hmem r0).mp List.mem_cons_self
            exact absurd (hleast r0 hr0 hafter0) (not_le.mpr (hbelow r hin))
        refine .inl ⟨r, rest, rfl, hcall, hr, hafford, hok, hnext, hrest, fun r' => ?_⟩
        constructor
        · intro hr'
          refine ⟨((hmem r').mp (List.mem_cons_of_mem r hr')).1, fun y hy => ?_⟩
          obtain rfl := Option.some.inj hy
          exact hbelow r' hr'
        · rintro ⟨hcommon', hlater⟩
          have hlt : r < r' := hlater r rfl
          refine (List.mem_cons.mp ((hmem r').mpr ⟨hcommon', fun y hy => ?_⟩)).resolve_left
            hlt.ne'
          exact (hafter y hy).trans hlt
    · exact .inr ⟨hcall, hshort hnot⟩
  · exact .inr ⟨call_of_spent hspent, hshort fun r hr hafter => hspent.not_affordable hr hafter⟩

/-- The loop answers with a page. -/
theorem collect_page (hsorted : ∀ l ∈ start, Sorted l) (hstart : start ≠ [])
    (hne : ∀ r, Common start r → r ≠ [])
    (h : Ready budget start check found prev fts ∨ Spent budget start found prev fts)
    (hok : fts.ok = true) (hcommon : common.Pairwise (· < ·))
    (hmem : ∀ r, r ∈ common ↔ Common start r ∧ After prev r) :
    Page budget start found prev common left (collect check left fts) := by
  induction left generalizing found prev fts common with
  | zero =>
    rw [collect_zero, if_neg (not_not.mpr hok)]
    rcases call_cases hsorted hstart h hcommon hmem with
      ⟨r, rest, rfl, hcall, hr, hafford, -⟩ | ⟨hcall, hpage⟩
    · rw [hcall, if_neg (hne r hr)]
      exact .full hafford
    · rw [if_pos hcall]
      exact hpage
  | succ left ih =>
    rw [collect_succ, if_neg (not_not.mpr hok)]
    rcases call_cases hsorted hstart h hcommon hmem with
      ⟨r, rest, rfl, hcall, hr, hafford, hok', hnext, hrest, hmem'⟩ | ⟨hcall, hpage⟩
    · rw [hcall, if_neg (hne r hr)]
      exact .more hafford (ih hnext hok' hrest hmem')
    · rw [if_pos hcall]
      exact hpage

/-- A page with keys that can all be afforded has as many of them as it has places, and its tail is
the key behind these. -/
theorem Page.eq_of_affordable (h : Page budget start found prev common left answer)
    (hall : AllAffordable budget start found prev (common.take (left + 1))) :
    answer = (common.take left).flatMap shown ++ [(common.drop left).headD []] := by
  induction h with
  | last => rw [List.take_nil, List.drop_nil]; rfl
  | short hnot => exact absurd hall.1 hnot
  | full _ => rfl
  | more _ _ ih =>
    rw [ih hall.2, List.take_succ_cons, List.flatMap_cons, List.drop_succ_cons]
    rfl

/-- A page with a key that cannot be afforded ends without a tail, although there are more. -/
theorem Page.eq_of_not_affordable (h : Page budget start found prev common left answer)
    (hnot : ¬AllAffordable budget start found prev (common.take (left + 1))) :
    ∃ n < common.length, answer = (common.take n).flatMap shown ++ [[]] := by
  induction h with
  | last =>
    rw [List.take_nil] at hnot
    exact absurd trivial hnot
  | short _ => exact ⟨0, Nat.succ_pos _, rfl⟩
  | full hafford => exact absurd ⟨hafford, trivial⟩ hnot
  | more hafford _ ih =>
    obtain ⟨n, hn, heq⟩ := ih fun hrest => hnot ⟨hafford, hrest⟩
    refine ⟨n + 1, Nat.succ_lt_succ hn, ?_⟩
    rw [heq, List.take_succ_cons, List.flatMap_cons]
    rfl

end Pages

/-! ## The start -/

section Start

variable (check : Key → UInt64) (keyN keyStart : Key) (db : Db)

/-- The lane of a token. -/
def startLane (index : Key) : Lane Key :=
  entries check (makeKeyDataSearch keyN index)
    (fromKey Pair.key (startOf keyN index keyStart) db)

/-- A search with the cursors of some tokens. -/
structure Pushed (budget : ℕ) (start : List (Lane Key)) (fts : FTSIntersector) : Prop where
  active : fts.active = true
  max_eq : fts.cstop.maxIterations = budget
  stands : AllStand check fts.container
  cuts : Cuts (After none) start (lanes check fts.container)
  price : fts.cstop.iterations + size (lanes check fts.container) = start.length + size start
  fresh : fts.cstop.iterations < budget ∨ start = []

variable {check keyN keyStart db} {budget : ℕ} {start : List (Lane Key)} {fts : FTSIntersector}

theorem after_none (r : Key) : After none r := fun _ hy => nomatch hy

theorem total_append (start start' : List (Lane Key)) (r : Key) :
    total (start ++ start') r = total start r + total start' r := by
  rw [total, List.map_append, List.sum_append, total, total]

theorem size_append (start start' : List (Lane Key)) :
    size (start ++ start') = size start + size start' := by
  rw [size, List.map_append, List.sum_append, size, size]

/-- One more cursor. -/
theorem Pushed.push (h : Pushed check budget start fts) (hsorted : ∀ l ∈ start, Sorted l)
    (pre : Key) (it : List Pair) (hlane : Sorted (entries check pre it)) :
    ((fts.push check pre it).1 = true ∧
      Pushed check budget (start ++ [entries check pre it]) (fts.push check pre it).2) ∨
    ((fts.push check pre it).1 = false ∧ ∀ r, Common start r → Live (entries check pre it) r →
      budget ≤ total start r + upTo (entries check pre it) r) := by
  obtain ⟨container, active, maxIterations, iterations⟩ := fts
  obtain ⟨hactive, hmax, hstands, hcuts, hprice, -⟩ := h
  dsimp only at hactive hmax hstands hcuts hprice
  subst hactive hmax
  obtain ⟨hmaxEq, hcases⟩ := skipInvalidPairs_spec pre it ⟨maxIterations, iterations⟩ hlane
  rw [FTSIntersector.push]
  dsimp only at hmaxEq hcases ⊢
  rw [if_neg (not_not.mpr rfl)]
  rcases hcases with ⟨r, rest, hstand, hcut, hpaid, hlt⟩ | ⟨hok, hbeyond⟩
  · rw [hstand.ok_eq, if_neg (not_not.mpr rfl)]
    refine .inl ⟨rfl, rfl, hmaxEq, ?_, ?_, ?_, .inl hlt⟩
    · intro ip hip
      rcases List.mem_append.mp hip with hip | hip
      · exact hstands ip hip
      · exact ⟨r, rest, List.mem_singleton.mp hip ▸ hstand⟩
    · rw [lanes, List.map_append]
      refine List.rel_append hcuts (.cons ?_ .nil)
      rw [hstand.lane_eq]
      exact Cut.trans (fun _ _ => trivial) hcut (Cut.refl _ _)
    · dsimp only
      rw [lanes, List.map_append, size_append, size_append, List.length_append,
        List.map_singleton, size_cons, size_cons, hstand.lane_eq, List.length_singleton]
      rw [lanes] at hprice
      omega
  · rw [hok, if_pos Bool.false_ne_true]
    refine .inr ⟨rfl, fun r hr hlive => ?_⟩
    have hadd := hcuts.total_add hsorted (after_none r) hr
    have hcount := length_le_total ((hcuts.common_iff (after_none r)).mpr hr)
    have hle := hbeyond r hlive
    rw [← hcuts.length_eq] at hcount
    omega

/-- The cursors of all tokens, or a budget that is spent before. -/
theorem pushAll_spec {tokens : List Key}
    (hlanes : ∀ index ∈ tokens, Sorted (startLane check keyN keyStart db index))
    (h : Pushed check budget start fts) (hsorted : ∀ l ∈ start, Sorted l) :
    (∃ fts', pushAll check keyN keyStart db tokens fts = some fts' ∧
      Pushed check budget (start ++ tokens.map (startLane check keyN keyStart db)) fts') ∨
    (pushAll check keyN keyStart db tokens fts = none ∧
      ∀ r, Common (start ++ tokens.map (startLane check keyN keyStart db)) r →
        budget ≤ total (start ++ tokens.map (startLane check keyN keyStart db)) r) := by
  induction tokens generalizing start fts with
  | nil =>
    rw [List.map_nil, List.append_nil]
    exact .inl ⟨fts, rfl, h⟩
  | cons index tokens ih =>
    obtain ⟨hfirst, hothers⟩ := List.forall_mem_cons.mp hlanes
    have hpush := h.push hsorted (makeKeyDataSearch keyN index)
      (fromKey Pair.key (startOf keyN index keyStart) db) hfirst
    rw [pushAll]
    generalize fts.push check (makeKeyDataSearch keyN index)
      (fromKey Pair.key (startOf keyN index keyStart) db) = out at hpush
    obtain ⟨b, fts'⟩ := out
    have hsplit : start ++ (index :: tokens).map (startLane check keyN keyStart db) =
        start ++ [startLane check keyN keyStart db index] ++
          tokens.map (startLane check keyN keyStart db) := by
      rw [List.map_cons, List.append_assoc, List.singleton_append]
    rcases hpush with ⟨hb, hpushed⟩ | ⟨hb, hlost⟩
    · obtain rfl : b = true := hb
      rw [hsplit]
      refine ih hothers hpushed fun l hl => ?_
      rcases List.mem_append.mp hl with hl | hl
      · exact hsorted l hl
      · exact List.mem_singleton.mp hl ▸ hfirst
    · obtain rfl : b = false := hb
      refine .inr ⟨rfl, fun r hr => ?_⟩
      have hstart : Common start r := fun l hl => hr l (List.mem_append_left _ hl)
      have hlive : Live (startLane check keyN keyStart db index) r :=
        hr _ (List.mem_append_right _ (List.mem_map_of_mem List.mem_cons_self))
      have hle : budget ≤ total start r + upTo (startLane check keyN keyStart db index) r :=
        hlost r hstart hlive
      rw [hsplit, total_append, total_append, total_cons]
      omega

/-- A search with the cursors of all tokens is ready. -/
theorem Pushed.ready (h : Pushed check budget start fts) (hstart : start ≠ []) :
    Ready budget start check 0 none fts := by
  refine ⟨h.active, h.max_eq, h.stands, fun _ _ => after_none _, h.cuts, ?_, ?_⟩
  · rw [Nat.mul_zero, Nat.add_zero]
    exact h.price
  · rw [Nat.zero_min, Nat.mul_zero, Nat.add_zero]
    exact h.fresh.resolve_right hstart

end Start

end HM4.MIndex2
