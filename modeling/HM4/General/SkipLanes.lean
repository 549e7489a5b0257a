import Mathlib.Data.List.Nodup
import Mathlib.Data.List.Range
import Mathlib.Logic.Function.Basic
import Mathlib.Order.Lattice

/-!
# Linked lists with lanes

Nodes of different heights stand in one order, and on every lane below its height a
node points to the next one that is as high. Heights are not stored, and neither are
ends of towers: where a node has no pointer there is no memory. All pointers are right
if for every cut of the order the last tower before it points, on each lane, to the
first one behind it.
-/

namespace HM4.SkipLanes

/-- A node and its height. -/
structure Tower where
  /-- The number of the node. -/
  id : ℕ
  /-- How many pointers it has. -/
  height : ℕ

/-- The pointers of the heads and of the nodes, by lane. -/
abbrev Cells := Option ℕ → ℕ → Option (Option ℕ)

/-! ## Towers -/

/-- The nodes on a lane. -/
def lane (h : ℕ) (l : List Tower) : List ℕ := (l.filter fun t => h < t.height).map Tower.id

/-- The first node on a lane. -/
def first (h : ℕ) (l : List Tower) : Option ℕ := (lane h l).head?

/-- The last node on a lane; without one the heads stand there. -/
def last (h : ℕ) (l : List Tower) : Option ℕ := (lane h l).getLast?

variable {h i : ℕ} {t : Tower} {l l1 l2 l3 : List Tower}

theorem lane_append (h : ℕ) (l1 l2 : List Tower) : lane h (l1 ++ l2) = lane h l1 ++ lane h l2 := by
  rw [lane, List.filter_append, List.map_append]
  rfl

theorem lane_cons_of_lt (ht : h < t.height) (l : List Tower) :
    lane h (t :: l) = t.id :: lane h l := by
  rw [lane, List.filter_cons, if_pos (decide_eq_true ht), List.map_cons]
  rfl

theorem lane_cons_of_le (ht : t.height ≤ h) (l : List Tower) : lane h (t :: l) = lane h l := by
  rw [lane, List.filter_cons, if_neg fun hc => absurd (of_decide_eq_true hc) (not_lt.mpr ht)]
  rfl

/-- Every lane is a part of the one below. -/
theorem lane_sublist (h : ℕ) (l : List Tower) : (lane (h + 1) l).Sublist (lane h l) :=
  (List.monotone_filter_right l fun _ ht =>
    decide_eq_true ((Nat.lt_succ_self h).trans (of_decide_eq_true ht))).map Tower.id

/-- The lowest lane has all nodes. -/
theorem lane_zero (hl : ∀ t ∈ l, 0 < t.height) : lane 0 l = l.map Tower.id := by
  rw [lane, List.filter_eq_self.mpr fun t ht => decide_eq_true (hl t ht)]

theorem mem_lane : i ∈ lane h l ↔ ∃ t ∈ l, h < t.height ∧ t.id = i := by
  rw [lane, List.mem_map]
  constructor
  · rintro ⟨t, ht, rfl⟩
    obtain ⟨hm, hd⟩ := List.mem_filter.mp ht
    exact ⟨t, hm, of_decide_eq_true hd, rfl⟩
  · rintro ⟨t, hm, hd, rfl⟩
    exact ⟨t, List.mem_filter.mpr ⟨hm, decide_eq_true hd⟩, rfl⟩

theorem lane_subset (h : ℕ) (l : List Tower) : lane h l ⊆ l.map Tower.id := fun i hi => by
  obtain ⟨t, ht, _, rfl⟩ := mem_lane.mp hi
  exact List.mem_map_of_mem ht

theorem first_append (h : ℕ) (l1 l2 : List Tower) :
    first h (l1 ++ l2) = (first h l1).or (first h l2) := by
  rw [first, lane_append, List.head?_append]
  rfl

theorem first_cons_of_lt (ht : h < t.height) (l : List Tower) : first h (t :: l) = some t.id := by
  rw [first, lane_cons_of_lt ht]
  rfl

theorem first_cons_of_le (ht : t.height ≤ h) (l : List Tower) : first h (t :: l) = first h l := by
  rw [first, lane_cons_of_le ht]
  rfl

theorem last_append (h : ℕ) (l1 l2 : List Tower) :
    last h (l1 ++ l2) = (last h l2).or (last h l1) := by
  rw [last, lane_append, List.getLast?_append]
  rfl

theorem last_concat_of_lt (ht : h < t.height) (l : List Tower) :
    last h (l ++ [t]) = some t.id := by
  rw [last_append, last, lane_cons_of_lt ht]
  rfl

theorem last_concat_of_le (ht : t.height ≤ h) (l : List Tower) : last h (l ++ [t]) = last h l := by
  rw [last_append, last, lane_cons_of_le ht]
  rfl

/-- The first node behind a cut that is before a tower. -/
theorem first_mid (h : ℕ) (l1 : List Tower) (t : Tower) (l2 : List Tower) :
    first h (l1 ++ t :: l2) =
      (first h l1).or (if h < t.height then some t.id else first h l2) := by
  rw [first_append]
  by_cases ht : h < t.height
  · rw [first_cons_of_lt ht, if_pos ht]
  · rw [first_cons_of_le (not_lt.mp ht), if_neg ht]

/-- The last node before a cut that is behind a tower. -/
theorem last_mid (h : ℕ) (l1 : List Tower) (t : Tower) (l2 : List Tower) :
    last h (l1 ++ t :: l2) =
      (last h l2).or (if h < t.height then some t.id else last h l1) := by
  rw [List.append_cons, last_append]
  by_cases ht : h < t.height
  · rw [last_concat_of_lt ht, if_pos ht]
  · rw [last_concat_of_le (not_lt.mp ht), if_neg ht]

theorem mem_of_first (hf : first h l = some i) : i ∈ lane h l := List.mem_of_head? hf

theorem mem_of_last (hf : last h l = some i) : i ∈ lane h l := List.mem_of_getLast? hf

/-- A lane without a last node has no first one. -/
theorem last_eq_none : last h l = none ↔ first h l = none :=
  List.getLast?_eq_none_iff.trans List.head?_eq_none_iff.symm

/-- The last nodes before two cuts are different if there is one between them. -/
theorem last_ne (hnd : ((l1 ++ l2).map Tower.id).Nodup) (hl : last h l2 = some i) :
    last h l1 ≠ some i := fun hc => by
  rw [List.map_append, List.nodup_append] at hnd
  exact hnd.2.2 i (lane_subset h l1 (mem_of_last hc)) i (lane_subset h l2 (mem_of_last hl)) rfl

theorem last_mem (hl : last h l = some i) : i ∈ l.map Tower.id := lane_subset h l (mem_of_last hl)

/-- A cut of an order is before a tower of it or behind it. -/
theorem cut_cases (heq : l1 ++ t :: l2 = l ++ l3) :
    (∃ m, l1 = l ++ m ∧ l3 = m ++ t :: l2) ∨ ∃ m, l = l1 ++ t :: m ∧ l2 = m ++ l3 := by
  rcases List.append_eq_append_iff.mp heq with ⟨m, hm, hb⟩ | ⟨m, hm, hb⟩
  · cases m with
    | nil =>
      rw [List.append_nil] at hm
      exact .inl ⟨[], by rw [hm, List.append_nil], hb.symm⟩
    | cons u m =>
      obtain ⟨rfl, rfl⟩ := List.cons.inj hb
      exact .inr ⟨m, hm, rfl⟩
  · exact .inl ⟨m, hm, hb⟩

/-- The place at which a walk along a lane ends is one from which a walk along the lane
below starts. -/
theorem exists_last (h : ℕ) (l : List Tower) :
    ∃ l1 l2, l = l1 ++ l2 ∧ last (h + 1) l = last h l1 := by
  induction l using List.reverseRecOn with
  | nil => exact ⟨[], [], rfl, rfl⟩
  | append_singleton l t ih =>
    by_cases ht : h + 1 < t.height
    · refine ⟨l ++ [t], [], (List.append_nil _).symm, ?_⟩
      rw [last_concat_of_lt ht, last_concat_of_lt ((Nat.lt_succ_self h).trans ht)]
    · obtain ⟨l1, l2, heq, hlast⟩ := ih
      refine ⟨l1, l2 ++ [t], by rw [heq, List.append_assoc], ?_⟩
      rw [last_concat_of_le (not_lt.mp ht), hlast]

/-! ## Pointers -/

/-- A pointer that is there is set. -/
def write (c : Cells) (loc : Option ℕ) (h : ℕ) (v : Option ℕ) : Option Cells := do
  let _ ← c loc h
  return Function.update c loc (Function.update (c loc) h (some v))

/-- The memory of a new node; its pointers are not set. -/
def alloc (c : Cells) (id height : ℕ) : Cells :=
  Function.update c (some id) fun h => if h < height then some none else none

/-- The memory of a node goes. -/
def free (c : Cells) (id : ℕ) : Cells := Function.update c (some id) fun _ => none

/-- Heads of so many lanes and no nodes. -/
def heads (lanes : ℕ) : Cells
  | none, h => if h < lanes then some none else none
  | some _, _ => none

/-- The walk along a lane as far as nodes are passed: the place of the last pointer that was
followed to a node that is passed, and the node at which the walk stopped. -/
def walk (c : Cells) (pass : ℕ → Option Bool) (h : ℕ) :
    ℕ → Option ℕ → Option (Option ℕ × Option ℕ)
  | 0, _ => none
  | k + 1, loc => do
    match ← c loc h with
    | none => some (loc, none)
    | some id => if ← pass id then walk c pass h k (some id) else some (loc, some id)

/-- The nodes along a lane from a place on. -/
def follow (c : Cells) (h : ℕ) : ℕ → Option ℕ → Option (List ℕ)
  | 0, _ => none
  | k + 1, loc => do
    match ← c loc h with
    | none => some []
    | some id =>
      let rest ← follow c h k (some id)
      return id :: rest

/-- A node takes, from a lane on, the pointers of the places into which it is put. -/
def connect (id : ℕ) : List (Option ℕ) → ℕ → Cells → Option Cells
  | [], _, c => some c
  | loc :: locs, h, c => do
    let next ← c loc h
    let c ← write c loc h (some id)
    let c ← write c (some id) h next
    connect id locs (h + 1) c

/-- A node is passed over, from a lane on, as long as the places point to it. -/
def disconnect (id : ℕ) : List (Option ℕ) → ℕ → Cells → Option Cells
  | [], _, c => some c
  | loc :: locs, h, c => do
    if (← c loc h) = some id then
      let next ← c (some id) h
      let c ← write c loc h next
      disconnect id locs (h + 1) c
    else some c

/-- A node is passed over on the lowest lane, where a place is known to point to it, and on
the lanes above. -/
def unlink (c : Cells) (id : ℕ) : List (Option ℕ) → Option Cells
  | [] => none
  | loc :: locs => do
    let next ← c (some id) 0
    let c ← write c loc 0 next
    disconnect id locs 1 c

/-- All pointers are right, on so many lanes. -/
structure Stands (lanes : ℕ) (c : Cells) (l : List Tower) : Prop where
  links : ∀ l1 l2, l = l1 ++ l2 → ∀ h < lanes, c (last h l1) h = some (first h l2)
  nodup : (l.map Tower.id).Nodup
  height : ∀ t ∈ l, 0 < t.height ∧ t.height ≤ lanes

variable {lanes : ℕ} {c : Cells}

theorem stands_heads (lanes : ℕ) : Stands lanes (heads lanes) [] where
  links l1 l2 heq h hh := by
    obtain ⟨rfl, rfl⟩ := List.append_eq_nil_iff.mp heq.symm
    exact if_pos hh
  nodup := List.nodup_nil
  height _ ht := absurd ht List.not_mem_nil

/-- A walk passes the nodes that are to be passed. -/
theorem walk_spec (hs : Stands lanes c l) (hl : l = l1 ++ (l2 ++ l3)) (pass : ℕ → Option Bool)
    (hh : h < lanes) (hpass : ∀ t ∈ l2, pass t.id = some true)
    (hstop : ∀ id, first h l3 = some id → pass id = some false) {k : ℕ} (hk : l2.length < k) :
    walk c pass h k (last h l1) = some (last h (l1 ++ l2), first h l3) := by
  induction l2 generalizing l1 k with
  | nil =>
    obtain ⟨k, rfl⟩ := Nat.exists_eq_add_one_of_ne_zero (Nat.ne_zero_of_lt hk)
    have hc := hs.links l1 l3 hl h hh
    rw [List.append_nil, walk, hc]
    simp only [Option.bind_eq_bind, Option.bind_some]
    cases hf : first h l3 with
    | none => rfl
    | some id => simp only [hstop id hf, Option.bind_some, if_neg Bool.false_ne_true]
  | cons t l2 ih =>
    have hl' : l = (l1 ++ [t]) ++ (l2 ++ l3) := by rw [hl, List.append_assoc]; rfl
    have hrest := fun x hx => hpass x (List.mem_cons_of_mem t hx)
    rw [List.append_cons]
    by_cases ht : h < t.height
    · obtain ⟨k, rfl⟩ := Nat.exists_eq_add_one_of_ne_zero (Nat.ne_zero_of_lt hk)
      have hc := hs.links l1 _ hl h hh
      rw [List.cons_append, first_cons_of_lt ht] at hc
      have hgo := ih hl' hrest (Nat.lt_of_succ_lt_succ hk)
      rw [last_concat_of_lt ht] at hgo
      rw [walk, hc]
      simp only [Option.bind_eq_bind, Option.bind_some, hpass t List.mem_cons_self, if_true, hgo]
    · have hgo := ih hl' hrest ((Nat.lt_succ_self _).trans hk)
      rw [last_concat_of_le (not_lt.mp ht)] at hgo
      exact hgo

/-- Following a lane shows its nodes. -/
theorem follow_spec (hs : Stands lanes c l) (hl : l = l1 ++ l2) (hh : h < lanes) {k : ℕ}
    (hk : l2.length < k) : follow c h k (last h l1) = some (lane h l2) := by
  induction l2 generalizing l1 k with
  | nil =>
    obtain ⟨k, rfl⟩ := Nat.exists_eq_add_one_of_ne_zero (Nat.ne_zero_of_lt hk)
    rw [follow, hs.links l1 [] hl h hh]
    rfl
  | cons t l2 ih =>
    have hl' : l = (l1 ++ [t]) ++ l2 := by rw [hl, List.append_assoc]; rfl
    by_cases ht : h < t.height
    · obtain ⟨k, rfl⟩ := Nat.exists_eq_add_one_of_ne_zero (Nat.ne_zero_of_lt hk)
      have hc := hs.links l1 _ hl h hh
      rw [first_cons_of_lt ht] at hc
      have hgo := ih hl' (Nat.lt_of_succ_lt_succ hk)
      rw [last_concat_of_lt ht] at hgo
      rw [follow, hc, lane_cons_of_lt ht]
      simp only [Option.bind_eq_bind, Option.bind_some, hgo, Option.pure_def]
    · have hgo := ih hl' ((Nat.lt_succ_self _).trans hk)
      rw [last_concat_of_le (not_lt.mp ht)] at hgo
      rw [lane_cons_of_le (not_lt.mp ht)]
      exact hgo

/-! ## A node more -/

/-- The places before a cut, from a lane on. -/
def places (l1 : List Tower) (h n : ℕ) : List (Option ℕ) :=
  (List.range' h n).map fun h => last h l1

theorem places_succ (l1 : List Tower) (h n : ℕ) :
    places l1 h (n + 1) = last h l1 :: places l1 (h + 1) n := rfl

theorem places_concat (l1 : List Tower) (n : ℕ) :
    places l1 0 (n + 1) = places l1 0 n ++ [last n l1] := by
  rw [places, List.range'_1_concat, List.map_append, Nat.zero_add]
  rfl

/-- The places below a lane. -/
theorem places_take (l1 : List Tower) {m n : ℕ} (h : m ≤ n) :
    (places l1 0 n).take m = places l1 0 m := by
  induction n with
  | zero =>
    obtain rfl := Nat.le_zero.mp h
    rfl
  | succ n ih =>
    rcases Nat.lt_or_ge n m with hm | hm
    · obtain rfl : m = n + 1 := by omega
      rw [List.take_of_length_le]
      rw [places, List.length_map, List.length_range']
    · rw [places_concat, List.take_append_of_le_length, ih hm]
      rw [places, List.length_map, List.length_range']
      exact hm

/-- The pointers when a node stands at a cut on so many lanes. -/
def connected (c : Cells) (id : ℕ) (l1 l2 : List Tower) (n : ℕ) : Cells := fun loc h =>
  if h < n ∧ loc = some id then some (first h l2)
  else if h < n ∧ loc = last h l1 then some (some id)
  else c loc h

/-- What a pointer holds after it is set. -/
theorem write_eq {loc : Option ℕ} (hc : (c loc h).isSome = true) (v : Option ℕ) :
    write c loc h v = some fun loc' h' => if loc' = loc ∧ h' = h then some v else c loc' h' := by
  obtain ⟨w, hw⟩ := Option.isSome_iff_exists.mp hc
  rw [write, hw]
  refine congrArg some (funext fun loc' => funext fun h' => ?_)
  by_cases hl : loc' = loc
  · subst hl
    rw [Function.update_self]
    by_cases hh : h' = h
    · rw [hh, Function.update_self, if_pos ⟨rfl, rfl⟩]
    · rw [Function.update_of_ne hh, if_neg fun hc => hh hc.2]
  · rw [Function.update_of_ne hl, if_neg fun hc => hl hc.1]

/-- One lane more. -/
theorem connected_succ (c : Cells) (id : ℕ) (l1 l2 : List Tower) (h : ℕ) :
    connected c id l1 l2 (h + 1) = fun loc h' =>
      if loc = some id ∧ h' = h then some (first h l2)
      else if loc = last h l1 ∧ h' = h then some (some id)
      else connected c id l1 l2 h loc h' := by
  funext loc h'
  unfold connected
  by_cases hh : h' = h
  · subst hh
    simp only [Nat.lt_succ_self, true_and, and_true, lt_irrefl, false_and, if_false]
  · have hiff : h' < h + 1 ↔ h' < h := by omega
    simp only [hiff, hh, and_false, if_false]

theorem connected_zero (c : Cells) (id : ℕ) (l1 l2 : List Tower) : connected c id l1 l2 0 = c := by
  funext loc h
  rw [connected, if_neg fun hc => Nat.not_lt_zero h hc.1, if_neg fun hc => Nat.not_lt_zero h hc.1]

/-- Connecting a node lane by lane. -/
theorem connect_spec (hs : Stands lanes c (l1 ++ l2)) {id height : ℕ}
    (hid : id ∉ (l1 ++ l2).map Tower.id) (hheight : height ≤ lanes) {n : ℕ} (hn : h + n = height) :
    connect id (places l1 h n) h (connected (alloc c id height) id l1 l2 h) =
      some (connected (alloc c id height) id l1 l2 height) := by
  have hlast : ∀ h, last h l1 ≠ some id := fun h hc => by
    refine hid ?_
    rw [List.map_append]
    exact List.mem_append_left _ (last_mem hc)
  induction n generalizing h with
  | zero =>
    rw [← hn]
    rfl
  | succ n ih =>
    have hlt : h < height := by omega
    have h1 : connected (alloc c id height) id l1 l2 h (last h l1) h = some (first h l2) := by
      rw [connected, if_neg fun hc => lt_irrefl h hc.1, if_neg fun hc => lt_irrefl h hc.1, alloc,
        Function.update_of_ne (hlast h)]
      exact hs.links l1 l2 rfl h (hlt.trans_le hheight)
    have h2 : connected (alloc c id height) id l1 l2 h (some id) h = some none := by
      rw [connected, if_neg fun hc => lt_irrefl h hc.1, if_neg fun hc => lt_irrefl h hc.1, alloc,
        Function.update_self, if_pos hlt]
    rw [places_succ, connect, h1]
    simp only [Option.bind_eq_bind, Option.bind_some]
    rw [write_eq (by rw [h1]; rfl)]
    simp only [Option.bind_some]
    rw [write_eq (by rw [if_neg fun hc => hlast h hc.1.symm, h2]; rfl)]
    simp only [Option.bind_some]
    rw [← connected_succ]
    exact ih (by omega)

/-- A node that was connected stands in the order. -/
theorem stands_connected (hs : Stands lanes c (l1 ++ l2)) {id height : ℕ}
    (hid : id ∉ (l1 ++ l2).map Tower.id) (hpos : 0 < height) (hheight : height ≤ lanes) :
    Stands lanes (connected (alloc c id height) id l1 l2 height) (l1 ++ ⟨id, height⟩ :: l2) where
  links a b hab h hh := by
    have hne : ∀ {loc}, (∀ i, loc = some i → i ∈ (l1 ++ l2).map Tower.id) → loc ≠ some id :=
      fun hloc hc => hid (hloc id hc)
    -- away from the new node and from the places before it nothing changes
    have hold : ∀ loc, loc ≠ some id → (h < height → loc ≠ last h l1) →
        connected (alloc c id height) id l1 l2 height loc h = c loc h := fun loc h1 h2 => by
      rw [connected, if_neg fun hc => h1 hc.2, if_neg fun hc => h2 hc.1 hc.2, alloc,
        Function.update_of_ne h1]
    rcases cut_cases hab with ⟨m, rfl, rfl⟩ | ⟨m, rfl, rfl⟩
    · have hloc : last h a ≠ some id := hne fun i hi => by
        rw [List.append_assoc, List.map_append]
        exact List.mem_append_left _ (last_mem hi)
      have hcut := hs.links a (m ++ l2) (List.append_assoc a m l2) h hh
      rw [first_append] at hcut
      rw [first_mid]
      cases hm : last h m with
      | some j =>
        obtain ⟨k, hk⟩ := Option.ne_none_iff_exists'.mp fun hc =>
          Option.some_ne_none j (hm.symm.trans (last_eq_none.mpr hc))
        have hnd := hs.nodup
        rw [List.append_assoc, ← List.append_assoc, List.map_append] at hnd
        have hdiff : last h a ≠ last h (a ++ m) := by
          rw [last_append, hm]
          exact last_ne (List.nodup_append.mp hnd).1 hm
        rw [hold _ hloc fun _ => hdiff, hcut, hk]
        rfl
      | none =>
        have hfirst := last_eq_none.mp hm
        have hsame : last h (a ++ m) = last h a := by rw [last_append, hm, Option.none_or]
        rw [hfirst, Option.none_or] at hcut ⊢
        by_cases hlt : h < height
        · rw [connected, if_neg fun hc => hloc hc.2, if_pos ⟨hlt, hsame.symm⟩, if_pos hlt]
        · rw [hold _ hloc fun hc => absurd hc hlt, hcut, if_neg hlt]
    · rw [last_mid]
      have hcut := hs.links (l1 ++ m) b (List.append_assoc l1 m b).symm h hh
      rw [last_append] at hcut
      have hmem : ∀ i, (last h m).or (last h l1) = some i →
          i ∈ (l1 ++ (m ++ b)).map Tower.id := fun i hi => by
        rw [← last_append] at hi
        rw [← List.append_assoc, List.map_append]
        exact List.mem_append_left _ (last_mem hi)
      cases hm : last h m with
      | some j =>
        have hnd := hs.nodup
        rw [← List.append_assoc, List.map_append] at hnd
        rw [hm, Option.some_or] at hcut hmem
        rw [Option.some_or, hold _ (hne hmem) fun _ hc =>
          last_ne (List.nodup_append.mp hnd).1 hm hc.symm, hcut]
      | none =>
        have hfirst : first h (m ++ b) = first h b := by
          rw [first_append, last_eq_none.mp hm, Option.none_or]
        rw [hm, Option.none_or] at hcut hmem
        rw [Option.none_or]
        by_cases hlt : h < height
        · rw [if_pos hlt, connected, if_pos ⟨hlt, rfl⟩, hfirst]
        · rw [if_neg hlt, hold _ (hne hmem) fun hc => absurd hc hlt, hcut]
  nodup := by
    rw [List.map_append, List.map_cons]
    have hnd := hs.nodup
    rw [List.map_append] at hnd hid
    exact List.nodup_middle.mpr (List.nodup_cons.mpr ⟨hid, hnd⟩)
  height t ht := by
    rcases List.mem_append.mp ht with ht | ht
    · exact hs.height t (List.mem_append_left _ ht)
    · rcases List.mem_cons.mp ht with rfl | ht
      · exact ⟨hpos, hheight⟩
      · exact hs.height t (List.mem_append_right _ ht)

/-! ## A node less -/

/-- The pointers when a node is passed over on so many lanes. -/
def disconnected (c : Cells) (l1 l2 : List Tower) (n : ℕ) : Cells := fun loc h =>
  if h < n ∧ loc = last h l1 then some (first h l2) else c loc h

/-- One lane more. -/
theorem disconnected_succ (c : Cells) (l1 l2 : List Tower) (h : ℕ) :
    disconnected c l1 l2 (h + 1) = fun loc h' =>
      if loc = last h l1 ∧ h' = h then some (first h l2) else disconnected c l1 l2 h loc h' := by
  funext loc h'
  unfold disconnected
  by_cases hh : h' = h
  · subst hh
    simp only [Nat.lt_succ_self, true_and, and_true, lt_irrefl, false_and, if_false]
  · have hiff : h' < h + 1 ↔ h' < h := by omega
    simp only [hiff, hh, and_false, if_false]

/-- Passing over a node lane by lane, until a place does not point to it. -/
theorem disconnect_spec (hs : Stands lanes c (l1 ++ t :: l2)) {n : ℕ} (hh : h ≤ t.height)
    (hn : h + n = lanes) :
    disconnect t.id (places l1 h n) h (disconnected c l1 l2 h) =
      some (disconnected c l1 l2 t.height) := by
  have hnd := hs.nodup
  rw [List.map_append, List.map_cons] at hnd
  have hid := (List.nodup_cons.mp (List.nodup_middle.mp hnd)).1
  have hheight := (hs.height t (List.mem_append_right _ List.mem_cons_self)).2
  induction n generalizing h with
  | zero =>
    have he : h = t.height := by omega
    rw [he]
    rfl
  | succ n ih =>
    have hlt : h < lanes := by omega
    have h1 : disconnected c l1 l2 h (last h l1) h = some (first h (t :: l2)) := by
      rw [disconnected, if_neg fun hc => lt_irrefl h hc.1]
      exact hs.links l1 _ rfl h hlt
    rw [places_succ, disconnect, h1]
    simp only [Option.bind_eq_bind, Option.bind_some]
    by_cases ht : h < t.height
    · have hlast : last h (l1 ++ [t]) = some t.id := last_concat_of_lt ht l1
      have h2 : disconnected c l1 l2 h (some t.id) h = some (first h l2) := by
        rw [disconnected, if_neg fun hc => lt_irrefl h hc.1, ← hlast]
        exact hs.links _ l2 (List.append_cons _ _ _) h hlt
      rw [if_pos (first_cons_of_lt ht l2), h2]
      simp only [Option.bind_some]
      rw [write_eq (by rw [h1]; rfl)]
      simp only [Option.bind_some]
      rw [← disconnected_succ]
      exact ih ht (by omega)
    · have he : h = t.height := by omega
      have hne : first h (t :: l2) ≠ some t.id := fun hc => by
        rw [first_cons_of_le (not_lt.mp ht)] at hc
        exact hid (List.mem_append_right _ (lane_subset h l2 (mem_of_first hc)))
      rw [if_neg hne, ← he]

/-- Passing over a node on all lanes it is on. -/
theorem unlink_spec (hs : Stands lanes c (l1 ++ t :: l2)) :
    unlink c t.id (places l1 0 lanes) = some (disconnected c l1 l2 t.height) := by
  obtain ⟨hpos, hle⟩ := hs.height t (List.mem_append_right _ List.mem_cons_self)
  have hlanes : 0 < lanes := hpos.trans_le hle
  have hfirst : c (some t.id) 0 = some (first 0 l2) := by
    have hl := hs.links (l1 ++ [t]) l2 (List.append_cons _ _ _) 0 hlanes
    rw [last_concat_of_lt hpos] at hl
    exact hl
  have hplace : (c (last 0 l1) 0).isSome = true := by
    rw [hs.links l1 _ rfl 0 hlanes]
    rfl
  have hone : disconnected c l1 l2 1 = fun loc g =>
      if loc = last 0 l1 ∧ g = 0 then some (first 0 l2) else c loc g := by
    rw [disconnected_succ]
    funext loc g
    rw [disconnected, if_neg fun hc : g < 0 ∧ _ => Nat.not_lt_zero g hc.1]
  obtain ⟨n, rfl⟩ := Nat.exists_eq_add_one_of_ne_zero hlanes.ne'
  rw [places_succ, unlink, hfirst]
  simp only [Option.bind_eq_bind, Option.bind_some]
  rw [write_eq hplace]
  simp only [Option.bind_some]
  rw [← hone]
  exact disconnect_spec hs hpos (Nat.add_comm 1 n)

/-- Without a node that was passed over the pointers are right. -/
theorem stands_disconnected (hs : Stands lanes c (l1 ++ t :: l2)) :
    Stands lanes (free (disconnected c l1 l2 t.height) t.id) (l1 ++ l2) where
  links a b hab h hh := by
    have hnd := hs.nodup
    rw [List.map_append, List.map_cons] at hnd
    obtain ⟨hid, hnd'⟩ := List.nodup_cons.mp (List.nodup_middle.mp hnd)
    rw [← List.map_append] at hid hnd'
    have hloc : last h a ≠ some t.id := fun hc => by
      refine hid ?_
      rw [hab, List.map_append]
      exact List.mem_append_left _ (last_mem hc)
    rw [free, Function.update_of_ne hloc, disconnected]
    rcases List.append_eq_append_iff.mp hab with ⟨m, rfl, rfl⟩ | ⟨m, rfl, rfl⟩
    · -- the cut is behind the node
      have hcut := hs.links (l1 ++ t :: m) b (by rw [List.append_assoc, List.cons_append]) h hh
      rw [last_mid] at hcut
      rw [last_append]
      cases hm : last h m with
      | some j =>
        rw [hm, Option.some_or] at hcut
        rw [Option.some_or]
        have hdiff : ¬(h < t.height ∧ some j = last h l1) := fun hc => by
          rw [← List.append_assoc, List.map_append] at hnd'
          exact last_ne (List.nodup_append.mp hnd').1 hm hc.2.symm
        rw [if_neg hdiff, hcut]
      | none =>
        rw [hm, Option.none_or] at hcut
        rw [Option.none_or, first_append, last_eq_none.mp hm, Option.none_or]
        by_cases ht : h < t.height
        · rw [if_pos ⟨ht, rfl⟩]
        · rw [if_neg ht] at hcut
          rw [if_neg fun hc => ht hc.1, hcut]
    · -- the cut is before the node
      have hcut := hs.links a (m ++ t :: l2) (List.append_assoc a m _) h hh
      rw [first_mid] at hcut
      rw [last_append, first_append]
      cases hm : last h m with
      | some j =>
        obtain ⟨k, hk⟩ := Option.ne_none_iff_exists'.mp fun hc =>
          Option.some_ne_none j (hm.symm.trans (last_eq_none.mpr hc))
        have hdiff : ¬(h < t.height ∧ last h a = (some j).or (last h a)) := fun hc => by
          rw [List.append_assoc, ← List.append_assoc, List.map_append] at hnd'
          exact last_ne (List.nodup_append.mp hnd').1 hm hc.2
        rw [if_neg hdiff, hcut, hk]
        rfl
      | none =>
        rw [last_eq_none.mp hm, Option.none_or] at hcut ⊢
        rw [Option.none_or]
        by_cases ht : h < t.height
        · rw [if_pos ⟨ht, rfl⟩]
        · rw [if_neg ht] at hcut
          rw [if_neg fun hc => ht hc.1, hcut]
  nodup := by
    have hnd := hs.nodup
    rw [List.map_append, List.map_cons] at hnd
    rw [List.map_append]
    exact (List.nodup_cons.mp (List.nodup_middle.mp hnd)).2
  height u hu := by
    rcases List.mem_append.mp hu with hu | hu
    · exact hs.height u (List.mem_append_left _ hu)
    · exact hs.height u (List.mem_append_right _ (List.mem_cons_of_mem t hu))

end HM4.SkipLanes
