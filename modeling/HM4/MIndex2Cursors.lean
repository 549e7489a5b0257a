import HM4.MIndex2
import HM4.General.Lanes

/-!
# Cursors over lanes

The keys of a token behind the set and the token are a lane, in which the live pairs are live. The
operations of the cursors are walks over these lanes, and a search for the next key that all of
them have finds it unless it costs more than the budget.
-/

namespace HM4.MIndex2

open LexPrefix Bytes Pairs KeyedList Database IndexToken AccumulateResults Lanes
open Autocomplete (extractNth)

/-! ## One cursor -/

section One

variable (check : Key → UInt64)

/-- The keys with a prefix, behind the set and the token. -/
def entries (pre : Key) (it : List Pair) : Lane Key :=
  (it.takeWhile fun p => !StopPrefixPredicate pre p.key).map fun p =>
    (extractNth (3 - 1) separator p.key, isOK (check p.key) p)

/-- What a cursor has in front of it. -/
def lane (ip : TombstoneIteratorPair) : Lane Key :=
  if ip.valid = true then entries check ip.pre ip.it else []

/-- A cursor stands at a live pair. -/
structure Stands (ip : TombstoneIteratorPair) (r : Key) (rest : Lane Key) : Prop where
  ok_eq : ip.ok = true
  key_eq : ip.key = r
  lane_eq : lane check ip = (r, true) :: rest

/-- A walk of a cursor comes to the next live pair with a property. -/
structure Arrives (P : Key → Prop) (ip : TombstoneIteratorPair) (cstop : StopIterationPredicate)
    (out : TombstoneIteratorPair × StopIterationPredicate) (r : Key) (rest : Lane Key) : Prop where
  stands : Stands check out.1 r rest
  holds : P r
  cut : Cut P (lane check ip) (lane check out.1)
  price : out.2.iterations + (lane check out.1).length =
    cstop.iterations + (lane check ip).length
  within : (lane check out.1 = lane check ip ∧ out.2.iterations = cstop.iterations) ∨
    out.2.iterations < cstop.maxIterations

/-- A walk of a cursor ends before all live pairs with a property, which are beyond the budget. -/
structure Fails (P : Key → Prop) (ip : TombstoneIteratorPair) (cstop : StopIterationPredicate)
    (out : TombstoneIteratorPair × StopIterationPredicate) : Prop where
  ok_eq : out.1.ok = false
  beyond : ∀ r, Live (lane check ip) r → P r →
    cstop.maxIterations + 1 ≤ cstop.iterations + upTo (lane check ip) r ∧
      2 ≤ upTo (lane check ip) r

/-- What a walk of a cursor comes to. -/
structure Walks (P : Key → Prop) (ip : TombstoneIteratorPair) (cstop : StopIterationPredicate)
    (out : TombstoneIteratorPair × StopIterationPredicate) : Prop where
  max_eq : out.2.maxIterations = cstop.maxIterations
  cases : (∃ r rest, Arrives check P ip cstop out r rest) ∨ Fails check P ip cstop out

variable {check}

theorem entries_cons (pre : Key) (p : Pair) (it : List Pair) :
    entries check pre (p :: it) = if StopPrefixPredicate pre p.key = true then []
      else (extractNth (3 - 1) separator p.key, isOK (check p.key) p) ::
        entries check pre it := by
  rw [entries, List.takeWhile_cons]
  cases StopPrefixPredicate pre p.key <;> rfl

/-- Skipping goes to the first live pair, or finds none within the budget. -/
theorem skipInvalidPairs_spec (pre : Key) (it : List Pair) (cstop : StopIterationPredicate)
    (hsorted : Sorted (entries check pre it)) :
    (skipInvalidPairs_ check pre it cstop).2.maxIterations = cstop.maxIterations ∧
    ((∃ r rest, Stands check (skipInvalidPairs_ check pre it cstop).1 r rest ∧
        Cut (fun _ => True) (entries check pre it) ((r, true) :: rest) ∧
        (skipInvalidPairs_ check pre it cstop).2.iterations + ((r, true) :: rest).length =
          cstop.iterations + (entries check pre it).length + 1 ∧
        (skipInvalidPairs_ check pre it cstop).2.iterations < cstop.maxIterations) ∨
      ((skipInvalidPairs_ check pre it cstop).1.ok = false ∧
        ∀ r, Live (entries check pre it) r →
          cstop.maxIterations ≤ cstop.iterations + upTo (entries check pre it) r)) := by
  induction it generalizing cstop with
  | nil =>
    exact ⟨rfl, .inr ⟨rfl, fun r hr => absurd hr List.not_mem_nil⟩⟩
  | cons p it ih =>
    rw [entries_cons] at hsorted ⊢
    rw [skipInvalidPairs_]
    by_cases hstop : StopPrefixPredicate pre p.key = true
    · rw [if_pos hstop, if_pos hstop]
      exact ⟨rfl, .inr ⟨rfl, fun r hr => absurd hr List.not_mem_nil⟩⟩
    · rw [if_neg hstop] at hsorted
      rw [if_neg hstop, if_neg hstop]
      have htail : Sorted (entries check pre it) := (List.pairwise_cons.mp hsorted).2
      unfold StopIterationPredicate.advance
      dsimp only
      by_cases hmax : cstop.maxIterations ≤ cstop.iterations + 1
      · rw [decide_eq_true hmax]
        refine ⟨rfl, .inr ⟨?_, fun r hr => ?_⟩⟩
        · exact Bool.and_false _
        · have hpos := upTo_pos hr
          omega
      · rw [decide_eq_false hmax]
        dsimp only
        by_cases hlive : isOK (check p.key) p = true
        · rw [if_pos hlive, hlive]
          refine ⟨rfl, .inl ⟨_, entries check pre it, ⟨rfl, rfl, ?_⟩, Cut.refl _ _, ?_, ?_⟩⟩
          · rw [lane, if_pos rfl, entries_cons, if_neg hstop, hlive]
            rfl
          · exact Nat.add_right_comm _ _ _
          · exact Nat.lt_of_not_le hmax
        · rw [Bool.eq_false_iff.mpr hlive] at hsorted ⊢
          rw [if_neg Bool.false_ne_true]
          obtain ⟨hmaxEq, hcases⟩ := ih ⟨cstop.maxIterations, cstop.iterations + 1⟩ htail
          refine ⟨hmaxEq, ?_⟩
          rcases hcases with ⟨r, rest, hstands, hcut, hprice, hlt⟩ | ⟨hok, hover⟩
          · refine .inl ⟨r, rest, hstands, hcut.cons nofun, ?_, hlt⟩
            rw [hprice, List.length_cons]
            dsimp only
            omega
          · refine .inr ⟨hok, fun r hr => ?_⟩
            have hmem : Live (entries check pre it) r :=
              (List.mem_cons.mp hr).resolve_left fun heq => Bool.noConfusion (Prod.mk.inj heq).2
            have hle := hover r hmem
            rw [upTo_cons hsorted hmem]
            dsimp only at hle
            omega

/-- What a cursor at a live pair has behind it. -/
theorem Stands.exists_cons {ip : TombstoneIteratorPair} {r : Key} {rest : Lane Key}
    (h : Stands check ip r rest) :
    ∃ p it, ip = ⟨ip.pre, p :: it, true⟩ ∧ entries check ip.pre it = rest := by
  obtain ⟨pre, it, valid⟩ := ip
  obtain ⟨hit, rfl⟩ := Bool.and_eq_true_iff.mp h.ok_eq
  cases it with
  | nil => exact nomatch hit
  | cons p it =>
    have hlane := h.lane_eq
    rw [lane, if_pos rfl, entries_cons] at hlane
    by_cases hstop : StopPrefixPredicate pre p.key = true
    · rw [if_pos hstop] at hlane
      exact nomatch hlane
    · rw [if_neg hstop] at hlane
      exact ⟨p, it, rfl, (List.cons.inj hlane).2⟩

theorem Stands.live {ip : TombstoneIteratorPair} {r : Key} {rest : Lane Key}
    (h : Stands check ip r rest) : Live (lane check ip) r := h.lane_eq ▸ List.mem_cons_self

/-- A cursor goes on by one live pair. -/
theorem next_spec {ip : TombstoneIteratorPair} {r : Key} {rest : Lane Key}
    (h : Stands check ip r rest) (hsorted : Sorted (lane check ip))
    (cstop : StopIterationPredicate) : Walks check (r < ·) ip cstop (ip.next check cstop) := by
  obtain ⟨p, it, hip, hrest⟩ := h.exists_cons
  have hlane := h.lane_eq
  rw [hlane] at hsorted
  obtain ⟨hhead, htail⟩ := List.pairwise_cons.mp hsorted
  have hnext : ip.next check cstop = skipInvalidPairs_ check ip.pre it cstop := by
    rw [hip]
    rfl
  obtain ⟨hmax, hcases⟩ := @skipInvalidPairs_spec check ip.pre it cstop (hrest.symm ▸ htail)
  rw [hrest] at hcases
  rw [hnext]
  refine ⟨hmax, ?_⟩
  rcases hcases with ⟨r', rest', hstands, hcut, hprice, hlt⟩ | ⟨hok, hover⟩
  · have hmem : Live rest r' := (hcut.live_iff trivial).mp List.mem_cons_self
    refine .inl ⟨r', rest', hstands, hhead _ hmem, ?_, ?_, .inr hlt⟩
    · rw [hlane, hstands.lane_eq]
      exact Cut.cons (fun _ => lt_irrefl r) (Cut.trans (fun _ _ => trivial) hcut (Cut.refl _ _))
    · rw [hlane, hstands.lane_eq, hprice, List.length_cons]
      exact Nat.add_assoc _ _ _
  · refine .inr ⟨hok, fun r' hlive hlt => ?_⟩
    rw [hlane] at hlive ⊢
    have hmem : Live rest r' :=
      (List.mem_cons.mp hlive).resolve_left fun heq => hlt.ne (Prod.mk.inj heq).1.symm
    have hle := hover r' hmem
    have hpos := upTo_pos hmem
    rw [upTo_cons hsorted hmem]
    omega

/-- A walk behind a walk. -/
theorem Walks.trans {P Q : Key → Prop} {ip : TombstoneIteratorPair}
    {cstop : StopIterationPredicate} {out out' : TombstoneIteratorPair × StopIterationPredicate}
    {r : Key} {rest : Lane Key} (hQP : ∀ r, Q r → P r) (hsorted : Sorted (lane check ip))
    (hmax : out.2.maxIterations = cstop.maxIterations)
    (h : Arrives check P ip cstop out r rest) (h' : Walks check Q out.1 out.2 out') :
    Walks check Q ip cstop out' := by
  refine ⟨h'.max_eq.trans hmax, ?_⟩
  rcases h'.cases with ⟨r', rest', harrives⟩ | hfails
  · refine .inl ⟨r', rest', harrives.stands, harrives.holds, h.cut.trans hQP harrives.cut,
      harrives.price.trans h.price, ?_⟩
    rcases harrives.within with ⟨hlane, hiterations⟩ | hlt
    · rw [hlane, hiterations]
      exact h.within
    · exact .inr (hmax ▸ hlt)
  · refine .inr ⟨hfails.ok_eq, fun r' hlive hr' => ?_⟩
    have hadd := h.cut.upTo_add hsorted (hQP r' hr') hlive
    have hbeyond := hfails.beyond r' ((h.cut.live_iff (hQP r' hr')).mpr hlive) hr'
    have hprice := h.price
    rw [hmax] at hbeyond
    have hle := h.cut.upTo_le (r := r')
    omega

/-- A cursor seeks a target. -/
theorem seekLoop_spec {target : Key} {fuel : ℕ} {ip : TombstoneIteratorPair} {r : Key}
    {rest : Lane Key} (h : Stands check ip r rest) (hsorted : Sorted (lane check ip))
    (cstop : StopIterationPredicate) (hfuel : (lane check ip).length ≤ fuel) :
    Walks check (target ≤ ·) ip cstop (ip.seekLoop check target fuel cstop) := by
  induction fuel generalizing ip r rest cstop with
  | zero =>
    rw [h.lane_eq] at hfuel
    exact absurd hfuel (Nat.not_succ_le_zero _)
  | succ fuel ih =>
    rw [TombstoneIteratorPair.seekLoop, h.ok_eq, h.key_eq, Bool.true_and]
    by_cases hlt : r < target
    · rw [if_pos (decide_eq_true hlt)]
      dsimp only
      have hwalks := next_spec h hsorted cstop
      rcases hwalks.cases with ⟨r', rest', harrives⟩ | hfails
      · refine Walks.trans (fun r' hr' => hlt.trans_le hr') hsorted hwalks.max_eq harrives ?_
        refine ih harrives.stands (harrives.cut.sorted hsorted) _ ?_
        obtain ⟨passed, hpassed, -⟩ := harrives.cut
        have hne : passed ≠ [] := by
          rintro rfl
          rw [List.nil_append, h.lane_eq, harrives.stands.lane_eq] at hpassed
          exact harrives.holds.ne (Prod.mk.inj (List.cons.inj hpassed).1).1
        have hpos := List.length_pos_of_ne_nil hne
        rw [hpassed, List.length_append] at hfuel
        omega
      · have hstay : (ip.next check cstop).1.seekLoop check target fuel (ip.next check cstop).2 =
            ip.next check cstop := by
          cases fuel with
          | zero => rfl
          | succ fuel =>
            rw [TombstoneIteratorPair.seekLoop, hfails.ok_eq, Bool.false_and,
              if_neg Bool.false_ne_true]
        rw [hstay]
        exact ⟨hwalks.max_eq, .inr ⟨hfails.ok_eq, fun r' hlive hr' =>
          hfails.beyond r' hlive (hlt.trans_le hr')⟩⟩
    · rw [decide_eq_false hlt, if_neg Bool.false_ne_true]
      exact ⟨rfl, .inl ⟨r, rest, h, not_lt.mp hlt, Cut.refl _ _, rfl, .inl ⟨rfl, rfl⟩⟩⟩

theorem lane_length_le (ip : TombstoneIteratorPair) : (lane check ip).length ≤ ip.it.length := by
  unfold lane
  split
  · rw [entries, List.length_map]
    exact (List.takeWhile_sublist _).length_le
  · exact Nat.zero_le _

theorem seek_spec {target : Key} {ip : TombstoneIteratorPair} {r : Key} {rest : Lane Key}
    (h : Stands check ip r rest) (hsorted : Sorted (lane check ip))
    (cstop : StopIterationPredicate) :
    Walks check (target ≤ ·) ip cstop (ip.seek check target cstop) :=
  seekLoop_spec h hsorted cstop (lane_length_le ip)

end One

/-! ## All cursors -/

section All

variable (check : Key → UInt64)

/-- What the cursors have in front of them. -/
def lanes (container : List TombstoneIteratorPair) : List (Lane Key) := container.map (lane check)

/-- All cursors stand at live pairs. -/
def AllStand (container : List TombstoneIteratorPair) : Prop :=
  ∀ ip ∈ container, ∃ r rest, Stands check ip r rest

/-- Walks of all cursors to live pairs. -/
structure Moved (P : Key → Prop) (container : List TombstoneIteratorPair)
    (cstop : StopIterationPredicate) (container' : List TombstoneIteratorPair)
    (cstop' : StopIterationPredicate) : Prop where
  stands : AllStand check container'
  advanced : Advanced P cstop.maxIterations (lanes check container) cstop.iterations
    (lanes check container') cstop'.iterations
  max_eq : cstop'.maxIterations = cstop.maxIterations

/-- How a round ends. -/
inductive Ends (max : Key) (container : List TombstoneIteratorPair)
    (cstop : StopIterationPredicate) :
    Round × List TombstoneIteratorPair × StopIterationPredicate → Prop
  | exhausted {container' cstop'}
      (stuck : Stuck (max ≤ ·) cstop.maxIterations (lanes check container) cstop.iterations) :
      Ends max container cstop (.exhausted, container', cstop')
  | beyond {m container' cstop'} (moved : Moved check (max ≤ ·) container cstop container' cstop')
      (lt : max < m) (at_front : ∃ ip ∈ container', ip.key = m) :
      Ends max container cstop (.beyond m, container', cstop')
  | all {container' cstop'} (moved : Moved check (max ≤ ·) container cstop container' cstop')
      (at_front : ∀ ip ∈ container', ip.key = max) :
      Ends max container cstop (.all, container', cstop')

/-- How the rounds end. -/
inductive Found (max : Key) (container : List TombstoneIteratorPair)
    (cstop : StopIterationPredicate) :
    Option Key × List TombstoneIteratorPair × StopIterationPredicate → Prop
  | none {container' cstop'}
      (stuck : Stuck (max ≤ ·) cstop.maxIterations (lanes check container) cstop.iterations) :
      Found max container cstop (none, container', cstop')
  | some {m container' cstop'} (moved : Moved check (m ≤ ·) container cstop container' cstop')
      (le : max ≤ m) (at_front : ∀ ip ∈ container', ip.key = m)
      (least : ∀ r, Common (lanes check container) r → max ≤ r → m ≤ r) :
      Found max container cstop (some m, container', cstop')

variable {check}

theorem AllStand.cons_iff {ip : TombstoneIteratorPair} {container : List TombstoneIteratorPair} :
    AllStand check (ip :: container) ↔
      (∃ r rest, Stands check ip r rest) ∧ AllStand check container := List.forall_mem_cons

/-- A walk of the first cursor, and then walks of the others. -/
theorem Moved.cons {P : Key → Prop} {ip : TombstoneIteratorPair} {cstop : StopIterationPredicate}
    {out : TombstoneIteratorPair × StopIterationPredicate} {r : Key} {rest : Lane Key}
    {container container' : List TombstoneIteratorPair} {cstop' : StopIterationPredicate}
    (hmax : out.2.maxIterations = cstop.maxIterations)
    (h : Arrives check P ip cstop out r rest)
    (h' : Moved check P container out.2 container' cstop') :
    Moved check P (ip :: container) cstop (out.1 :: container') cstop' where
  stands := AllStand.cons_iff.mpr ⟨⟨r, rest, h.stands⟩, h'.stands⟩
  advanced := by
    have hadvanced := h'.advanced
    rw [hmax] at hadvanced
    exact Advanced.cons h.cut h.price h.within hadvanced
  max_eq := h'.max_eq.trans hmax

theorem Moved.refl (P : Key → Prop) {container : List TombstoneIteratorPair}
    (h : AllStand check container) (cstop : StopIterationPredicate) :
    Moved check P container cstop container cstop :=
  ⟨h, Advanced.refl P _ _ _, rfl⟩

/-- A walk of the first cursor that fails. -/
theorem Fails.stuck {P : Key → Prop} {ip : TombstoneIteratorPair} {cstop : StopIterationPredicate}
    {out : TombstoneIteratorPair × StopIterationPredicate} (h : Fails check P ip cstop out)
    (container : List TombstoneIteratorPair) :
    Stuck P cstop.maxIterations (lanes check (ip :: container)) cstop.iterations :=
  Stuck.of_head h.beyond

/-- A round over all cursors. -/
theorem round_spec {max : Key} {container : List TombstoneIteratorPair}
    (hstand : AllStand check container) (hsorted : ∀ l ∈ lanes check container, Sorted l)
    (cstop : StopIterationPredicate) :
    Ends check max container cstop (round check max container cstop) := by
  induction container generalizing cstop with
  | nil => exact .all (Moved.refl _ hstand cstop) fun _ h => absurd h List.not_mem_nil
  | cons ip container ih =>
    obtain ⟨⟨r, rest, hstands⟩, hothers⟩ := AllStand.cons_iff.mp hstand
    obtain ⟨hfirst, hrest⟩ := List.forall_mem_cons.mp hsorted
    have hwalks : Walks check (max ≤ ·) ip cstop (ip.seek check max cstop) :=
      seek_spec hstands hfirst cstop
    rw [round]
    dsimp only
    rcases hwalks.cases with ⟨r', rest', harrives⟩ | hfails
    · rw [harrives.stands.ok_eq, if_neg (not_not.mpr rfl), harrives.stands.key_eq]
      by_cases heq : r' = max
      · subst heq
        rw [if_neg (not_not.mpr rfl)]
        have hround := ih hothers hrest (ip.seek check r' cstop).2
        generalize round check r' container (ip.seek check r' cstop).2 = out at hround
        cases hround with
        | exhausted hstuck =>
          rw [hwalks.max_eq] at hstuck
          exact .exhausted (Stuck.cons harrives.cut hfirst harrives.price hstuck)
        | beyond hmoved hlt hfront =>
          obtain ⟨found, hmem, hkey⟩ := hfront
          exact .beyond (Moved.cons hwalks.max_eq harrives hmoved) hlt
            ⟨found, List.mem_cons_of_mem _ hmem, hkey⟩
        | all hmoved hfront =>
          exact .all (Moved.cons hwalks.max_eq harrives hmoved)
            (List.forall_mem_cons.mpr ⟨harrives.stands.key_eq, hfront⟩)
      · rw [if_pos heq]
        exact .beyond (Moved.cons hwalks.max_eq harrives (Moved.refl _ hothers _))
          (lt_of_le_of_ne harrives.holds (Ne.symm heq))
          ⟨_, List.mem_cons_self, harrives.stands.key_eq⟩
    · rw [hfails.ok_eq, if_pos Bool.false_ne_true]
      exact .exhausted (hfails.stuck container)

/-- The rounds come to the next key that all cursors have. -/
theorem rounds_spec {fuel : ℕ} {max : Key} {container : List TombstoneIteratorPair}
    (hstand : AllStand check container) (hsorted : ∀ l ∈ lanes check container, Sorted l)
    (cstop : StopIterationPredicate) (hfuel : beyond (lanes check container) max < fuel) :
    Found check max container cstop (rounds check fuel max container cstop) := by
  induction fuel generalizing max container cstop with
  | zero => exact absurd hfuel (Nat.not_lt_zero _)
  | succ fuel ih =>
    have hround : Ends check max container cstop (round check max container cstop) :=
      round_spec hstand hsorted cstop
    rw [rounds]
    generalize round check max container cstop = out at hround
    cases hround with
    | exhausted hstuck => exact .none hstuck
    | all hmoved hfront => exact .some hmoved le_rfl hfront fun _ _ hle => hle
    | @beyond m container' cstop' hmoved hlt hfront =>
      obtain ⟨ip, hmem, hkey⟩ := hfront
      obtain ⟨r, rest, hstands⟩ := hmoved.stands ip hmem
      obtain rfl : r = m := hstands.key_eq.symm.trans hkey
      have hcut := hmoved.advanced.cut
      have hsorted' := hcut.sorted hsorted
      have hlane : lane check ip ∈ lanes check container' := List.mem_map_of_mem hmem
      have hleast : ∀ r', Common (lanes check container) r' → max ≤ r' → r ≤ r' := by
        intro r' hcommon hle
        have hlive := (hcut.common_iff hle).mpr hcommon _ hlane
        have hone := hsorted' _ hlane
        rw [hstands.lane_eq] at hlive hone
        rcases List.mem_cons.mp hlive with heq | hin
        · exact (Prod.mk.inj heq).1.ge
        · exact ((List.pairwise_cons.mp hone).1 _ hin).le
      have hless : beyond (lanes check container') r < beyond (lanes check container) max :=
        (beyond_lt hlt hlane hstands.live).trans_le (hcut.beyond_le max)
      have hfound : Found check r container' cstop' (rounds check fuel r container' cstop') :=
        ih hmoved.stands hsorted' cstop' (by omega)
      dsimp only
      generalize rounds check fuel r container' cstop' = out' at hfound
      cases hfound with
      | none hstuck =>
        rw [hmoved.max_eq] at hstuck
        have hstuck' := Stuck.of_advanced (fun r' hr' => hlt.le.trans hr') hmoved.advanced hsorted
          hstuck
        exact .none fun r' hcommon hle => hstuck' r' hcommon (hleast r' hcommon hle)
      | some hmoved' hle hfront' hleast' =>
        refine .some ?_ (hlt.le.trans hle) hfront' fun r' hcommon hr' => ?_
        · have hadvanced := hmoved'.advanced
          rw [hmoved.max_eq] at hadvanced
          exact ⟨hmoved'.stands, hmoved.advanced.trans (fun r' hr' => hlt.le.trans (hle.trans hr'))
            hadvanced, hmoved'.max_eq.trans hmoved.max_eq⟩
        · exact hleast' r' ((hcut.common_iff hr').mpr hcommon) (hleast r' hcommon hr')

end All

end HM4.MIndex2
