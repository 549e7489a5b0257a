import HM4.SkipList

/-!
# Walks over the lanes of a skip list

The nodes of a list in order, with their heights. A walk down the lanes keeps to the last
nodes before the key, and the places it leaves behind are those a node of any height is
put into or taken out of.
-/

namespace HM4.SkipListLanes

open LexPrefix Bytes Pairs PairFactory MemList KeyedList HPair HPairRank ListSteps SkipLanes
  TowerMemory SkipList

/-- The rank of a node. -/
def rank (e : Entry Node) : List ℤ := HPairRank.rank e.node.hkey e.node.data.data.key

/-- The pair of a node. -/
def pair (e : Entry Node) : Pair := e.node.data.data

/-- What a list holds: nodes in the order of their ranks, all pointers right. -/
structure Valid {σ : Type} (list : State σ) (l : List (Entry Node)) : Prop where
  placed : Placed MAX_HEIGHT list.mem l
  increasing : Increasing rank l
  fits : ∀ e ∈ l, HkeyFits e.node.hkey e.node.data.data.key

theorem valid_empty {σ : Type} (alloc : σ) : Valid (State.empty alloc) [] :=
  ⟨placed_empty MAX_HEIGHT, List.Pairwise.nil, fun _ he => absurd he List.not_mem_nil⟩

/-- The node of a key, if it is the first of some that are not below the key. -/
def here (key : Key) : List (Entry Node) → Option ℕ
  | [] => none
  | e :: _ => if rank e = rankOf key then some e.tower.id else none

theorem here_eq_some {key : Key} {l : List (Entry Node)} {id : ℕ} :
    here key l = some id ↔ ∃ e rest, l = e :: rest ∧ e.tower.id = id ∧ rank e = rankOf key := by
  cases l with
  | nil => exact iff_of_false (Option.some_ne_none id).symm fun ⟨_, _, h, _⟩ =>
      List.cons_ne_nil _ _ h.symm
  | cons e rest =>
    rw [here]
    constructor
    · intro h
      by_cases hr : rank e = rankOf key
      · rw [if_pos hr] at h
        exact ⟨e, rest, rfl, Option.some.inj h, hr⟩
      · rw [if_neg hr] at h
        exact absurd h.symm (Option.some_ne_none id)
    · rintro ⟨e', rest', h, rfl, hr⟩
      obtain ⟨rfl, rfl⟩ := List.cons.inj h
      exact if_pos hr

/-- Only the first of the entries that are not below a key can have its rank. -/
theorem head_of_rank {key : Key} {l : List (Entry Node)} {e : Entry Node}
    (h : ∀ e ∈ l, rankOf key ≤ rank e) (hinc : Increasing rank l) (he : e ∈ l)
    (hr : rank e = rankOf key) : ∃ rest, l = e :: rest := by
  cases l with
  | nil => exact absurd he List.not_mem_nil
  | cons e' rest =>
    rcases List.mem_cons.mp he with rfl | he
    · exact ⟨rest, rfl⟩
    · exact absurd (hr ▸ (Increasing.cons_iff.mp hinc).1 e he)
        (not_lt.mpr (h e' List.mem_cons_self))

section Walk

variable {σ : Type} {list : State σ}

theorem cmp_eq (node : Node) (key : Key) :
    node.cmp (create key) key = lex (HPairRank.rank node.hkey node.data.data.key) (rankOf key) :=
  hpairCmp_eq_lex _ _ _ _

/-- A walk goes on behind a node exactly if it stands below the key. -/
theorem passes_eq {e : Entry Node}
    (he : list.mem.nodes e.tower.id = some e.node) (key : Key) :
    passes list (create key) key e.tower.id = some (decide (rank e < rankOf key)) := by
  simp only [passes, he, Option.bind_eq_bind, Option.bind_some, Option.pure_def, cmp_eq, Ne,
    lex_eq_lt]
  refine congrArg some (decide_eq_decide.mpr ?_)
  rw [not_and_not_right]
  refine ⟨fun h => ?_, fun h _ => h⟩
  by_cases hle : create key ≤ e.node.hkey
  · exact h hle
  · exact rank_lt_of_lt (not_le.mp hle) _ _

theorem isAt_eq {e : Entry Node}
    (he : list.mem.nodes e.tower.id = some e.node) (key : Key) :
    isAt list (create key) key (some e.tower.id) = some (decide (rank e = rankOf key)) := by
  simp only [isAt, he, Option.bind_eq_bind, Option.bind_some, Option.pure_def, cmp_eq, lex_eq_eq]
  rfl

variable {l1 l2 : List (Entry Node)} (hv : Valid list (l1 ++ l2)) {key : Key}
  (h1 : ∀ e ∈ l1, rank e < rankOf key) (h2 : ∀ e ∈ l2, rankOf key ≤ rank e)

include hv h1 h2

/-- The walk along one lane. -/
theorem walk_lane {a b : List (Entry Node)} (hab : l1 = a ++ b) {h : ℕ} (hh : h < MAX_HEIGHT) :
    walk list.mem.next (passes list (create key) key) h list.mem.fuel (last h (towers a)) =
      some (last h (towers l1), first h (towers l2)) := by
  refine hv.placed.walk hab hh (fun x hx => ?_) fun x hx _ => ?_
  · have hmem : x ∈ l1 := hab ▸ List.mem_append_right a hx
    rw [passes_eq (hv.placed.holds x (List.mem_append_left l2 hmem)), decide_eq_true (h1 x hmem)]
  · rw [passes_eq (hv.placed.holds x (List.mem_append_right l1 hx)),
      decide_eq_false (not_lt.mpr (h2 x hx))]

omit h1 in
/-- The walk along a lane has stopped at the node of the key. -/
theorem isAt_first (h : ℕ) : isAt list (create key) key (first h (towers l2)) =
    some (decide (first h (towers l2) ≠ none ∧ first h (towers l2) = here key l2)) := by
  cases hf : first h (towers l2) with
  | none => exact congrArg some (decide_eq_false fun hc => hc.1 rfl).symm
  | some id =>
    obtain ⟨t, ht, _, rfl⟩ := mem_lane.mp (mem_of_first hf)
    obtain ⟨e, he, rfl⟩ := List.mem_map.mp ht
    have hinc := (Increasing.append_iff.mp hv.increasing).2.1
    rw [isAt_eq (hv.placed.holds e (List.mem_append_right l1 he))]
    refine congrArg some (decide_eq_decide.mpr ⟨fun hr => ⟨Option.some_ne_none _, ?_⟩, fun hr => ?_⟩)
    · obtain ⟨rest, rfl⟩ := head_of_rank h2 hinc he hr
      exact (if_pos hr).symm
    · obtain ⟨e', rest, rfl, hid, hr'⟩ := here_eq_some.mp hr.2.symm
      have hsame : e'.node = e.node := by
        have hh := hv.placed.holds e' (mem_mid l1 e' rest)
        rw [hid, hv.placed.holds e (List.mem_append_right l1 he)] at hh
        exact (Option.some.inj hh).symm
      rw [rank, ← hsame]
      exact hr'

/-- The loop of `locate_` leaves the places before the key, and finds its node. -/
theorem locateLanes_spec (shortcut : Bool) {h : ℕ} (hh : h ≤ MAX_HEIGHT) {loc : Option ℕ}
    (hloc : ∀ g, h = g + 1 → ∃ a b, l1 = a ++ b ∧ loc = last g (towers a)) (nl : NodeLocator)
    (hnode : nl.node = none ∨ nl.node = here key l2) (hdone : h = 0 → nl.node = here key l2) :
    ∃ prev, locateLanes list shortcut (create key) key h loc nl = some ⟨prev, here key l2⟩ ∧
      (shortcut = false ∨ here key l2 = none → prev = places (towers l1) 0 h ++ nl.prev) := by
  induction h generalizing loc nl with
  | zero => exact ⟨nl.prev, by rw [← hdone rfl]; rfl, fun _ => rfl⟩
  | succ h ih =>
    obtain ⟨a, b, hab, rfl⟩ := hloc h rfl
    have hnext : ∀ g, h = g + 1 → ∃ a b, l1 = a ++ b ∧
        last h (towers l1) = last g (towers a) := fun g hg => hg ▸ exists_last_towers g l1
    have hplaces : places (towers l1) 0 h ++ (last h (towers l1) :: nl.prev) =
        places (towers l1) 0 (h + 1) ++ nl.prev := by
      rw [places_concat, List.append_assoc]
      rfl
    simp only [locateLanes, walk_lane hv h1 h2 hab hh, isAt_first hv h2 h, Option.bind_eq_bind,
      Option.bind_some, Option.pure_def]
    by_cases hat : first h (towers l2) ≠ none ∧ first h (towers l2) = here key l2
    · rw [if_pos (decide_eq_true hat)]
      cases shortcut with
      | true =>
        refine ⟨nl.prev, ?_, fun hc => ?_⟩
        · rw [if_pos rfl, hat.2]
        · rcases hc with hc | hc
          · exact absurd hc.symm Bool.false_ne_true
          · exact absurd (hat.2.trans hc) hat.1
      | false =>
        rw [if_neg Bool.false_ne_true, hat.2]
        obtain ⟨prev, e, hprev⟩ := ih (Nat.le_of_succ_le hh) hnext
          ⟨last h (towers l1) :: nl.prev, here key l2⟩ (.inr rfl) fun _ => rfl
        exact ⟨prev, e, fun hc => (hprev hc).trans hplaces⟩
    · rw [if_neg fun hc => hat (of_decide_eq_true hc)]
      obtain ⟨prev, e, hprev⟩ := ih (Nat.le_of_succ_le hh) hnext
        { nl with prev := last h (towers l1) :: nl.prev } hnode fun hz => by
          -- the lowest lane shows the first node
          subst hz
          refine hnode.elim (fun hn => hn.trans ?_) id
          by_contra hc
          obtain ⟨id, hid⟩ := Option.ne_none_iff_exists'.mp (Ne.symm hc)
          obtain ⟨e, rest, rfl, rfl, _⟩ := here_eq_some.mp hid
          have hfirst := first_zero_cons hv.placed
          exact hat ⟨hfirst ▸ Option.some_ne_none _, hfirst.trans hid.symm⟩
      exact ⟨prev, e, fun hc => (hprev hc).trans hplaces⟩

end Walk

end HM4.SkipListLanes
