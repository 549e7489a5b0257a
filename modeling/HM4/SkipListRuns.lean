import HM4.SkipListContents
import HM4.ListRuns

/-!
# Runs of the skip list

As long as the first octets of all keys in use decide between them, the skip list goes
along with a plain map, whatever its random heights are. Keys that are padded to the same
number are taken for one key.
-/

namespace HM4.SkipListRuns

open LexPrefix Bytes Pairs PairFactory MemList KeyedList HPair ListSteps ListRuns SkipLanes
  TowerMemory SkipList SkipListLanes SkipListContents
open HPairRank hiding rank

variable {σ : Type}

/-- One operation; the random numbers that are still to come are part of the state. -/
def drawStep (allocator : Allocator σ) (op : Op) (s : State σ × (ℕ → ℕ)) :
    Option (Option InsertResult × State σ × (ℕ → ℕ)) := do
  let (r, list) ← step allocator s.1 (s.2 0) op
  return (r, list, fun n => s.2 (n + 1))

/-- What the allocator of a list says to an operation. -/
def answers (allocator : Allocator σ) (s : State σ × (ℕ → ℕ)) (op : Op) (a : Answer) : Prop :=
  Answers (Owns allocator s.1.alloc) (refuses allocator (s.2 0) s.1.alloc op) a

/-- A lane in order: its nodes are those of the lane below that are high enough, and their
keys increase. -/
structure LaneRight (list : State σ) (m : List Pair) (h : ℕ) (ids : List ℕ) (ps : List Pair) :
    Prop where
  follows : follow list.mem.next h list.mem.fuel none = some ids
  shows : pairsOf list ids = some ps
  sorted : Increasing Pair.key ps
  lowest : h = 0 → ps = m
  above : ∀ g, h = g + 1 → ∃ lower, follow list.mem.next g list.mem.fuel none = some lower ∧
    ids.Sublist lower
  numbers : ∀ id ∈ ids, ∃ node, list.mem.nodes id = some node ∧
    node.hkey = create node.data.data.key

/-- The entries on a lane. -/
def onLane (h : ℕ) (l : List (Entry Node)) : List (Entry Node) := l.filter fun e => h < e.tower.height

theorem lane_towers (h : ℕ) (l : List (Entry Node)) :
    lane h (towers l) = (towers (onLane h l)).map Tower.id := by
  rw [lane, towers, towers, onLane, List.filter_map]
  rfl

section Lanes

variable {list : State σ} {l : List (Entry Node)} {keys : Set Key}

/-- What a list holds, with known keys only. -/
structure Represents (keys : Set Key) (list : State σ) (l : List (Entry Node)) : Prop where
  valid : Valid list l
  known : Known (fun e => e.node.hkey) pair keys l

/-- Every lane is in order. -/
theorem Represents.laneRight (hr : Represents keys list l) (hkeys : Decided keys) {h : ℕ}
    (hh : h < MAX_HEIGHT) :
    LaneRight list (l.map pair) h (lane h (towers l)) ((onLane h l).map pair) := by
  have hv := hr.valid
  have hsub : (onLane h l).Sublist l := List.filter_sublist
  have hplaced : Placed MAX_HEIGHT list.mem ([] ++ l) := hv.placed
  have hfollow : ∀ g < MAX_HEIGHT,
      follow list.mem.next g list.mem.fuel none = some (lane g (towers l)) :=
    fun g hg => hplaced.follow hg
  refine ⟨hfollow h hh, ?_, ?_, fun hz => ?_, fun g hg => ?_, fun id hid => ?_⟩
  · rw [lane_towers]
    exact pairsOf_spec fun e he => hv.placed.holds e (hsub.subset he)
  · have hknown : Known (fun e => e.node.hkey) pair keys (onLane h l) := fun e he =>
      hr.known e (hsub.subset he)
    exact hknown.increasing hkeys (List.Pairwise.sublist hsub hv.increasing)
  · subst hz
    rw [onLane, List.filter_eq_self.mpr fun e he =>
      decide_eq_true (hv.placed.pos he)]
  · subst hg
    exact ⟨_, hfollow g ((Nat.lt_succ_self g).trans hh), lane_sublist g (towers l)⟩
  · obtain ⟨t, ht, _, rfl⟩ := mem_lane.mp hid
    obtain ⟨e, he, rfl⟩ := List.mem_map.mp ht
    exact ⟨e.node, hv.placed.holds e he, (hr.known e he).1⟩

variable (hr : Represents keys list l) (hkeys : Decided keys) {key : Key} (hne : key ≠ [])
  (hk : key ∈ keys)

include hr hkeys hne hk

/-- `find` shows the pairs from the first one that is not below the key. -/
theorem Represents.find : find list key = some (fromKey Pair.key key (l.map pair)) := by
  obtain ⟨l1, l2, rfl, h1, h2⟩ := hr.valid.increasing.exists_cut (rankOf key)
  rw [find_valid hr.valid hne h1 h2, hr.known.fromKey hkeys hk h1 h2]

/-- `getPair___` shows the pair of the key. -/
theorem Represents.getPair : getPair list key = some (get key (l.map pair)) := by
  obtain ⟨l1, l2, rfl, h1, h2⟩ := hr.valid.increasing.exists_cut (rankOf key)
  have hinc2 := (Increasing.append_iff.mp hr.valid.increasing).2.1
  cases hhere : here key l2 with
  | some id =>
    obtain ⟨e, rest, rfl, rfl, he⟩ := here_eq_some.mp hhere
    rw [getPair_here hr.valid hne h1 h2 he, hr.known.get_at hkeys hk h1 he]
  | none =>
    have habove := above_of_here h2 hinc2 hhere
    rw [getPair_none hr.valid hne h1 h2 hhere, hr.known.get_none hkeys hk fun x hx => ?_]
    exact (List.mem_append.mp hx).elim (fun hx => (h1 x hx).ne) fun hx => (habove x hx).ne'

end Lanes

/-- In every run on keys between which the first octets decide the list goes along with a
plain map: every lane is a part of the one below and in order, the lowest one shows the pairs
of the map, the numbers are those of the keys, and a search ends at the first key that is not
below. -/
theorem lanes_refine (allocator : Allocator σ) (alloc : σ) (random : ℕ → ℕ) {keys : Set Key}
    (hkeys : Decided keys) (ops : List Op) (hops : ∀ op ∈ ops, On keys op) :
    ∃ list rest m, Together (drawStep allocator) (answers allocator)
        (State.empty alloc, random) [] ops (list, rest) m ∧
      (∀ h < MAX_HEIGHT, ∃ ids ps, LaneRight list m h ids ps) ∧
      pairs list = some m ∧ Increasing Pair.key m ∧
      (∀ key ∈ keys, key ≠ [] → find list key = some (fromKey Pair.key key m) ∧
        getPair list key = some (get key m)) := by
  have hstep : ∀ op (s : State σ × (ℕ → ℕ)) m, On keys op →
      (∃ l, Represents keys s.1 l ∧ l.map pair = m) → ∃ r s' m' a, answers allocator s op a ∧
        drawStep allocator op s = some (r, s') ∧ plainStep op a m = (r, m') ∧
        ∃ l, Represents keys s'.1 l ∧ l.map pair = m' := by
    rintro op ⟨list, rest⟩ m hop ⟨l, hr, rfl⟩
    obtain ⟨r, list', l', e, hst, hv'⟩ := step_spec allocator (rest 0) hr.valid hop.keyed
    obtain ⟨a, ha, hplain, hknown⟩ := hr.known.stepped hkeys hst ⟨_, 0, rfl⟩ hop
    refine ⟨r, (list', fun n => rest (n + 1)), l'.map pair, a, ha, ?_, hplain, l',
      ⟨hv', hknown⟩, rfl⟩
    simp only [drawStep, e, Option.bind_eq_bind, Option.bind_some, Option.pure_def]
  obtain ⟨⟨list, rest⟩, m, hrun, l, hr, rfl⟩ := Together.exists_of_steps hstep hops
    (s := (State.empty alloc, random)) ⟨[], ⟨valid_empty alloc, fun _ hx =>
      absurd hx List.not_mem_nil⟩, rfl⟩
  exact ⟨list, rest, l.map pair, hrun, fun h hh => ⟨_, _, hr.laneRight hkeys hh⟩,
    pairs_valid hr.valid, hr.known.increasing hkeys hr.valid.increasing,
    fun key hk hne => ⟨hr.find hkeys hne hk, hr.getPair hkeys hne hk⟩⟩

/-- Two keys of one letter are written and one of them is erased. -/
theorem lanes_refine_letters : ∃ list rest m, Together (drawStep growing) (answers growing)
    (State.empty 0, fun n => n) [] [insertOf [97] 1, insertOf [98] 2, .erase [97]] (list, rest) m ∧
    pairs list = some m := by
  have hkeys : Decided {[97], [98]} := by
    rintro a (rfl | rfl) b (rfl | rfl) <;> decide +kernel
  have hops : ∀ op ∈ [insertOf [97] 1, insertOf [98] 2, .erase [97]], On {[97], [98]} op := by
    intro op hop key hk
    rcases List.mem_cons.mp hop with rfl | hop
    · obtain rfl := Option.some.inj hk
      exact ⟨by decide, .inl rfl⟩
    · rcases List.mem_cons.mp hop with rfl | hop
      · obtain rfl := Option.some.inj hk
        exact ⟨by decide, .inr rfl⟩
      · obtain rfl := List.mem_singleton.mp hop
        obtain rfl := Option.some.inj hk
        exact ⟨by decide, .inl rfl⟩
  obtain ⟨list, rest, m, hrun, _, hpairs, _⟩ := lanes_refine growing 0 (fun n => n) hkeys _ hops
  exact ⟨list, rest, m, hrun, hpairs⟩

/-- A key and the same key with a zero octet behind it are taken for one key: the second write
replaces the pair of the first. -/
theorem lanes_not_refine : ¬∀ ops : List Op, (∀ op ∈ ops, ∀ key, keyOf op = some key → key ≠ []) →
    ∃ list rest m, Together (drawStep growing) (answers growing)
      (State.empty 0, fun n => n) [] ops (list, rest) m ∧ pairs list = some m := by
  intro h
  obtain ⟨list, rest, m, hrun, _⟩ := h [insertOf [97] 1, insertOf [97, 0] 2] (by
    intro op hop key hk
    rcases List.mem_cons.mp hop with rfl | hop
    · obtain rfl := Option.some.inj hk
      decide
    · obtain rfl := List.mem_singleton.mp hop
      obtain rfl := Option.some.inj hk
      decide)
  exact not_together_of_replaced (by decide) (by decide +kernel) hrun

end HM4.SkipListRuns
