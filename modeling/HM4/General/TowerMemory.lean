import HM4.General.SkipLanes

/-!
# Memory of nodes with towers

Nodes are numbered as they are allocated, and a number is never used again. Besides its
pointers a node has contents, which may change while it stands in its place.
-/

namespace HM4.TowerMemory

open SkipLanes

variable {ν : Type}

/-- The nodes, their pointers and those of the heads, and the number of the next node. -/
structure Memory (ν : Type) where
  /-- The contents of the nodes. -/
  nodes : ℕ → Option ν
  /-- The pointers. -/
  next : Cells
  /-- The number of the next node. -/
  count : ℕ

namespace Memory

/-- No nodes below so many lanes. -/
def empty (lanes : ℕ) : Memory ν := ⟨fun _ => none, heads lanes, 0⟩

variable (m : Memory ν)

/-- No walk visits more nodes than were ever allocated. -/
def fuel : ℕ := m.count + 1

/-- A new node with so many pointers, which are not set. -/
def new (height : ℕ) (node : ν) : Memory ν where
  nodes := Function.update m.nodes m.count (some node)
  next := alloc m.next m.count height
  count := m.count + 1

/-- Other contents of a node. -/
def set (id : ℕ) (node : ν) : Memory ν := { m with nodes := Function.update m.nodes id (some node) }

/-- A node goes. -/
def drop (id : ℕ) : Memory ν :=
  { m with nodes := Function.update m.nodes id none, next := free m.next id }

/-- A node is put behind some places. -/
def insert (id : ℕ) (locs : List (Option ℕ)) : Option (Memory ν) := do
  let next ← connect id locs 0 m.next
  return { m with next := next }

/-- A node is passed over. -/
def remove (id : ℕ) (locs : List (Option ℕ)) : Option (Memory ν) := do
  let next ← unlink m.next id locs
  return { m with next := next }

/-- The heads point to nothing. -/
def clearHeads (lanes : ℕ) : Memory ν :=
  { m with next := fun loc h => if loc = none then heads lanes none h else m.next loc h }

end Memory

/-- A node in its place. -/
structure Entry (ν : Type) where
  /-- Its number and height. -/
  tower : Tower
  /-- Its contents. -/
  node : ν

/-- The towers of entries. -/
def towers (l : List (Entry ν)) : List Tower := l.map Entry.tower

/-- Nodes in their order, with all pointers right on so many lanes. -/
structure Placed (lanes : ℕ) (m : Memory ν) (l : List (Entry ν)) : Prop where
  stands : Stands lanes m.next (towers l)
  holds : ∀ e ∈ l, m.nodes e.tower.id = some e.node
  fresh : ∀ e ∈ l, e.tower.id < m.count

theorem towers_append (l1 l2 : List (Entry ν)) : towers (l1 ++ l2) = towers l1 ++ towers l2 :=
  List.map_append

theorem towers_cons (e : Entry ν) (l : List (Entry ν)) : towers (e :: l) = e.tower :: towers l :=
  rfl

theorem mem_others {l1 l2 : List (Entry ν)} {e x : Entry ν} (hx : x ∈ l1 ++ e :: l2) :
    x = e ∨ x ∈ l1 ++ l2 := by
  rcases List.mem_append.mp hx with hx | hx
  · exact .inr (List.mem_append_left l2 hx)
  · exact (List.mem_cons.mp hx).imp id (List.mem_append_right l1)

theorem mem_of_others {l1 l2 : List (Entry ν)} {e x : Entry ν} (hx : x ∈ l1 ++ l2) :
    x ∈ l1 ++ e :: l2 := by
  rcases List.mem_append.mp hx with hx | hx
  · exact List.mem_append_left _ hx
  · exact List.mem_append_right l1 (List.mem_cons_of_mem e hx)

theorem mem_mid (l1 : List (Entry ν)) (e : Entry ν) (l2 : List (Entry ν)) : e ∈ l1 ++ e :: l2 :=
  List.mem_append_right l1 List.mem_cons_self

variable {lanes : ℕ} {m : Memory ν} {l l1 l2 : List (Entry ν)} {e : Entry ν}

theorem placed_empty (lanes : ℕ) : Placed lanes (Memory.empty lanes : Memory ν) [] where
  stands := stands_heads lanes
  holds _ he := absurd he List.not_mem_nil
  fresh _ he := absurd he List.not_mem_nil

theorem placed_clearHeads (lanes : ℕ) (m : Memory ν) : Placed lanes (m.clearHeads lanes) [] where
  stands :=
    { links := fun t1 t2 heq g hg => by
        obtain ⟨rfl, rfl⟩ := List.append_eq_nil_iff.mp heq.symm
        exact if_pos hg
      nodup := List.nodup_nil
      height := fun _ ht => absurd ht List.not_mem_nil }
  holds _ he := absurd he List.not_mem_nil
  fresh _ he := absurd he List.not_mem_nil

theorem Placed.pos (hp : Placed lanes m l) (he : e ∈ l) : 0 < e.tower.height :=
  (hp.stands.height e.tower (List.mem_map_of_mem he)).1

/-- There are no more nodes than were allocated. -/
theorem Placed.length_le (hp : Placed lanes m l) : l.length ≤ m.count := by
  have hnd := hp.stands.nodup
  have hsub : (towers l).map Tower.id ⊆ List.range m.count := fun i hi => by
    obtain ⟨t, ht, rfl⟩ := List.mem_map.mp hi
    obtain ⟨e, he, rfl⟩ := List.mem_map.mp ht
    exact List.mem_range.mpr (hp.fresh e he)
  have hlen := hnd.length_le_of_subset hsub
  rw [List.length_map, towers, List.length_map, List.length_range] at hlen
  exact hlen

/-- The numbers of the other nodes. -/
theorem Placed.ids_ne (hp : Placed lanes m (l1 ++ e :: l2)) :
    ∀ x ∈ l1 ++ l2, x.tower.id ≠ e.tower.id := by
  have hnd := hp.stands.nodup
  rw [towers_append, towers_cons, List.map_append, List.map_cons] at hnd
  have hid := (List.nodup_cons.mp (List.nodup_middle.mp hnd)).1
  intro x hx hc
  refine hid ?_
  rw [← List.map_append, ← towers_append, ← hc]
  exact List.mem_map_of_mem (List.mem_map_of_mem hx)

/-- A number under which no node stands. -/
theorem Placed.count_ne (hp : Placed lanes m l) : ∀ x ∈ l, x.tower.id ≠ m.count := fun x hx =>
  (hp.fresh x hx).ne

/-! ## Contents -/

/-- The contents of a node change. -/
theorem Placed.set (hp : Placed lanes m (l1 ++ e :: l2)) (node : ν) :
    Placed lanes (m.set e.tower.id node) (l1 ++ { e with node := node } :: l2) where
  stands := by
    have ht : towers (l1 ++ { e with node := node } :: l2) = towers (l1 ++ e :: l2) := by
      rw [towers_append, towers_append, towers_cons, towers_cons]
    rw [ht]
    exact hp.stands
  holds x hx := by
    rcases mem_others hx with rfl | hx
    · exact Function.update_self _ _ _
    · exact (Function.update_of_ne (hp.ids_ne x hx) _ _).trans (hp.holds x (mem_of_others hx))
  fresh x hx := by
    rcases mem_others hx with rfl | hx
    · exact hp.fresh e (mem_mid l1 e l2)
    · exact hp.fresh x (mem_of_others hx)

theorem not_mem_ids {id : ℕ} (hid : ∀ x ∈ l, x.tower.id ≠ id) : id ∉ (towers l).map Tower.id :=
  fun hc => by
    obtain ⟨t, ht, rfl⟩ := List.mem_map.mp hc
    obtain ⟨x, hx, rfl⟩ := List.mem_map.mp ht
    exact hid x hx rfl

/-! ## Places -/

/-- A new node is put at a cut. -/
theorem Placed.insert (hp : Placed lanes m (l1 ++ l2)) {height : ℕ} (hpos : 0 < height)
    (hle : height ≤ lanes) (node0 node : ν) :
    ∃ m', ((m.new height node0).set m.count node).insert m.count
        ((places (towers l1) 0 lanes).take height) = some m' ∧
      Placed lanes m' (l1 ++ ⟨⟨m.count, height⟩, node⟩ :: l2) := by
  have hst := hp.stands
  have hid := not_mem_ids hp.count_ne
  rw [towers_append] at hst hid
  have hconn := connect_spec hst hid hle (h := 0) (n := height) (Nat.zero_add _)
  rw [connected_zero] at hconn
  refine ⟨⟨Function.update (Function.update m.nodes m.count (some node0)) m.count (some node),
    connected (alloc m.next m.count height) m.count (towers l1) (towers l2) height,
    m.count + 1⟩, ?_, ?_, fun x hx => ?_, fun x hx => ?_⟩
  · simp only [Memory.insert, Memory.set, Memory.new, places_take _ hle, hconn,
      Option.bind_eq_bind, Option.bind_some, Option.pure_def]
  · rw [towers_append, towers_cons]
    exact stands_connected hst hid hpos hle
  · rcases mem_others hx with rfl | hx
    · exact Function.update_self _ _ _
    · have hne := hp.count_ne x hx
      exact (Function.update_of_ne hne _ _).trans
        ((Function.update_of_ne hne _ _).trans (hp.holds x hx))
  · rcases mem_others hx with rfl | hx
    · exact Nat.lt_succ_self _
    · exact (hp.fresh x hx).trans (Nat.lt_succ_self _)

/-- A new node is put at a cut with its contents. -/
theorem Placed.insert_new (hp : Placed lanes m (l1 ++ l2)) {height : ℕ} (hpos : 0 < height)
    (hle : height ≤ lanes) (node : ν) :
    ∃ m', (m.new height node).insert m.count ((places (towers l1) 0 lanes).take height) =
        some m' ∧ Placed lanes m' (l1 ++ ⟨⟨m.count, height⟩, node⟩ :: l2) := by
  have hset : (m.new height node).set m.count node = m.new height node := by
    simp only [Memory.set, Memory.new, Function.update_idem]
  have hins := hp.insert hpos hle node node
  rw [hset] at hins
  exact hins

/-- A node is taken out of its place and goes. -/
theorem Placed.remove (hp : Placed lanes m (l1 ++ e :: l2)) :
    ∃ m', m.remove e.tower.id (places (towers l1) 0 lanes) = some m' ∧
      m'.nodes = m.nodes ∧ Placed lanes (m'.drop e.tower.id) (l1 ++ l2) := by
  have hst := hp.stands
  rw [towers_append, towers_cons] at hst
  have hunlink := unlink_spec hst
  refine ⟨⟨m.nodes, disconnected m.next (towers l1) (towers l2) e.tower.height, m.count⟩, ?_, rfl,
    ?_, fun x hx => ?_, fun x hx => hp.fresh x (mem_of_others hx)⟩
  · simp only [Memory.remove, hunlink, Option.bind_eq_bind, Option.bind_some, Option.pure_def]
  · rw [towers_append]
    exact stands_disconnected hst
  · exact (Function.update_of_ne (hp.ids_ne x hx) _ _).trans (hp.holds x (mem_of_others hx))

/-! ## Walks -/

/-- The walk along one lane. -/
theorem Placed.walk (hp : Placed lanes m (l1 ++ l2)) {pass : ℕ → Option Bool}
    {a b : List (Entry ν)} (hab : l1 = a ++ b) {h : ℕ} (hh : h < lanes)
    (hpass : ∀ x ∈ b, pass x.tower.id = some true)
    (hstop : ∀ x ∈ l2, first h (towers l2) = some x.tower.id → pass x.tower.id = some false) :
    walk m.next pass h m.fuel (last h (towers a)) =
      some (last h (towers l1), first h (towers l2)) := by
  have hlen := hp.length_le
  have hl : towers (l1 ++ l2) = towers a ++ (towers b ++ towers l2) := by
    rw [hab, towers_append, towers_append, List.append_assoc]
  have hwalk := walk_spec hp.stands hl pass hh
    (fun t ht => ?_) (fun id hid => ?_) (k := m.fuel) ?_
  · rw [hwalk, hab, towers_append]
  · obtain ⟨x, hx, rfl⟩ := List.mem_map.mp ht
    exact hpass x hx
  · obtain ⟨t, ht, _, rfl⟩ := mem_lane.mp (mem_of_first hid)
    obtain ⟨x, hx, rfl⟩ := List.mem_map.mp ht
    exact hstop x hx hid
  · rw [hab, List.length_append, List.length_append] at hlen
    rw [towers, List.length_map, Memory.fuel]
    omega

/-- The place at which a walk ends is one from which the walk along the lane below starts. -/
theorem exists_last_towers (g : ℕ) (l : List (Entry ν)) :
    ∃ a b, l = a ++ b ∧ last (g + 1) (towers l) = last g (towers a) := by
  obtain ⟨t1, t2, heq, hlast⟩ := exists_last g (towers l)
  obtain ⟨a, b, rfl, rfl, rfl⟩ := List.map_eq_append_iff.mp heq
  exact ⟨a, b, rfl, hlast⟩

/-- A lane shows the nodes that are high enough. -/
theorem Placed.follow (hp : Placed lanes m (l1 ++ l2)) {h : ℕ} (hh : h < lanes) :
    follow m.next h m.fuel (last h (towers l1)) = some (lane h (towers l2)) := by
  have hlen := hp.length_le
  rw [List.length_append] at hlen
  refine follow_spec hp.stands (towers_append l1 l2) hh ?_
  rw [towers, List.length_map, Memory.fuel]
  omega

/-- The lowest lane shows all nodes. -/
theorem Placed.follow_zero (hp : Placed lanes m (l1 ++ l2)) (hlanes : 0 < lanes) :
    SkipLanes.follow m.next 0 m.fuel (last 0 (towers l1)) = some ((towers l2).map Tower.id) := by
  rw [hp.follow hlanes, lane_zero fun t ht => ?_]
  obtain ⟨x, hx, rfl⟩ := List.mem_map.mp ht
  exact hp.pos (List.mem_append_right l1 hx)

/-- What a node points to on the lowest lane. -/
theorem Placed.next_zero (hp : Placed lanes m (l1 ++ e :: l2)) (hlanes : 0 < lanes) :
    m.next (some e.tower.id) 0 = some (first 0 (towers l2)) := by
  have hst := hp.stands
  rw [towers_append, towers_cons] at hst
  have hl := hst.links (towers l1 ++ [e.tower]) (towers l2) (List.append_cons _ _ _) 0 hlanes
  rw [last_concat_of_lt (hp.pos (mem_mid l1 e l2))] at hl
  exact hl

theorem first_zero_cons (hp : Placed lanes m (l1 ++ e :: l2)) :
    first 0 (towers (e :: l2)) = some e.tower.id := first_cons_of_lt (hp.pos (mem_mid l1 e l2)) _

/-! ## One node after the other goes -/

/-- Nodes that are still there, each pointing to the next one. -/
def Chain (m : Memory ν) : List (Entry ν) → Prop
  | [] => True
  | e :: l => m.nodes e.tower.id = some e.node ∧
      m.next (some e.tower.id) 0 = some (first 0 (towers l)) ∧ Chain m l

/-- The nodes of a list are a chain. -/
theorem Placed.chain (hp : Placed lanes m (l1 ++ l2)) (hlanes : 0 < lanes) : Chain m l2 := by
  induction l2 generalizing l1 with
  | nil => exact trivial
  | cons e l2 ih =>
    exact ⟨hp.holds e (mem_mid l1 e l2), hp.next_zero hlanes, ih (List.append_cons l1 e l2 ▸ hp)⟩

/-- A node that goes leaves the others in their chain. -/
theorem Chain.drop {id : ℕ} (h : Chain m l) (hid : ∀ x ∈ l, x.tower.id ≠ id) :
    Chain (m.drop id) l := by
  induction l with
  | nil => exact trivial
  | cons e l ih =>
    obtain ⟨hn, hl, hrest⟩ := h
    have hne := hid e List.mem_cons_self
    refine ⟨(Function.update_of_ne hne _ _).trans hn, ?_,
      ih hrest fun x hx => hid x (List.mem_cons_of_mem e hx)⟩
    exact (congrFun (Function.update_of_ne (fun hc => hne (Option.some.inj hc)) _ m.next) 0).trans hl

end HM4.TowerMemory
