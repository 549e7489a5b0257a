import HM4.AVLOrder

/-!
# Searching the AVL list

A search goes down to the hole where the key belongs, or to the node of the key.
What it knows on the way is what a binary search knows about an open range of a
table: the pairs of the subtree are such a range of all pairs.
-/

namespace HM4.AVLSearch

open LexPrefix Bytes Pairs DiskTable BoundedSearch KeyedList LinkedTree LinkedTree.LTree
  LinkedTree.Ctx LinkedTree.Links AVLList AVLBalance AVLOrder

/-- The pairs of a tree in order. -/
def pairsOf (t : LTree Item) : List Pair := (cells t).map Prod.snd

/-- The pairs before a hole. -/
def pairsBefore (c : Ctx Item) : List Pair := (before c).map fun e => e.2.data

/-- The pairs behind a hole. -/
def pairsAfter (c : Ctx Item) : List Pair := (after c).map fun e => e.2.data

theorem pairsOf_nil : pairsOf nil = [] := rfl

theorem pairsOf_node (i : ℕ) (v : Item) (l r : LTree Item) :
    pairsOf (node i v l r) = pairsOf l ++ v.data :: pairsOf r := by
  rw [pairsOf, cells_node, List.map_append, List.map_cons]
  rfl

theorem pairsOf_plug (c : Ctx Item) (t : LTree Item) :
    pairsOf (plug c t) = pairsBefore c ++ (pairsOf t ++ pairsAfter c) := by
  rw [pairsOf, cells_plug, List.map_append, List.map_append, List.map_map, List.map_map]
  rfl

theorem pairsBefore_left (i : ℕ) (v : Item) (sib : LTree Item) (c : Ctx Item) :
    pairsBefore (⟨.left, i, v, sib⟩ :: c) = pairsBefore c := rfl

theorem pairsBefore_right (i : ℕ) (v : Item) (sib : LTree Item) (c : Ctx Item) :
    pairsBefore (⟨.right, i, v, sib⟩ :: c) = pairsBefore c ++ (pairsOf sib ++ [v.data]) := by
  simp only [pairsBefore, before, pairsOf, cells, List.map_append, List.map_map, List.map_cons,
    List.map_nil]
  rfl

theorem pairsAfter_left (i : ℕ) (v : Item) (sib : LTree Item) (c : Ctx Item) :
    pairsAfter (⟨.left, i, v, sib⟩ :: c) = v.data :: pairsOf sib ++ pairsAfter c := by
  simp only [pairsAfter, after, pairsOf, cells, List.map_append, List.map_map, List.map_cons]
  rfl

/-- The comparator of a search over a table is the one on its pairs. -/
theorem pairLCPCompare_of_getElem? {T : Table} {key : Key} {cs : PrefixState} {i : ℕ} {p : Pair}
    (h : T.pairs[i]? = some p) : pairLCPCompare T key cs i = pairCompare key cs p := by
  rw [pairLCPCompare, h]
  rfl

/-- What a search for a key knows about a subtree: the pairs before it are below the key,
the pairs behind it are above, and the comparator is right inside. -/
structure Between (key : Key) (c : Ctx Item) (t : LTree Item) (cs : PrefixState) : Prop where
  sorted : Increasing Pair.key (pairsOf (plug c t))
  below : ∀ p ∈ pairsBefore c, p.key < key
  above : ∀ p ∈ pairsAfter c, key < p.key
  prefixes : PrefixesHold ⟨pairsOf (plug c t), sorted⟩ key cs (pairsBefore c).length
    ((pairsBefore c).length + (pairsOf t).length)

/-- A search starts at the root with nothing remembered. -/
theorem between_root {key : Key} {t : LTree Item} (hk : key ≠ [])
    (h : Increasing Pair.key (pairsOf t)) : Between key [] t ⟨0, 0⟩ where
  sorted := h
  below _ hp := absurd hp List.not_mem_nil
  above _ hp := absurd hp List.not_mem_nil
  prefixes := prefixesHold_zero hk (Nat.zero_add _).le

section Step

variable {key : Key} {c : Ctx Item} {i : ℕ} {v : Item} {l r : LTree Item} {cs : PrefixState}

/-- The pairs around a node. -/
theorem pairsOf_focus (c : Ctx Item) (i : ℕ) (v : Item) (l r : LTree Item) :
    pairsOf (plug c (node i v l r)) =
      (pairsBefore c ++ pairsOf l) ++ v.data :: (pairsOf r ++ pairsAfter c) := by
  rw [pairsOf_plug, pairsOf_node]
  simp only [List.append_assoc, List.cons_append]

/-- The comparator tells the order of the key at a node, and the search goes on in one of
its subtrees knowing as much. -/
theorem Between.step (h : Between key c (node i v l r) cs) :
    ∃ cs', pairCompare key cs v.data = some (lex v.data.key key, cs') ∧
      (lex v.data.key key = .gt → Between key (⟨.left, i, v, r⟩ :: c) l cs') ∧
      (lex v.data.key key = .lt → Between key (⟨.right, i, v, l⟩ :: c) r cs') := by
  have hfocus := pairsOf_focus c i v l r
  have hlen : (pairsBefore c ++ pairsOf l).length = (pairsBefore c).length + (pairsOf l).length :=
    List.length_append
  have hnode : (pairsOf (node i v l r)).length = (pairsOf l).length + 1 + (pairsOf r).length := by
    rw [pairsOf_node, List.length_append, List.length_cons]
    omega
  have hget : (pairsOf (plug c (node i v l r)))[(pairsBefore c).length + (pairsOf l).length]? =
      some v.data := by
    rw [hfocus, ← hlen, List.getElem?_append_right le_rfl, Nat.sub_self]
    rfl
  have hsize : (pairsBefore c).length + (pairsOf (node i v l r)).length ≤
      (pairsOf (plug c (node i v l r))).length := by
    rw [pairsOf_plug, List.length_append, List.length_append]
    omega
  have hat : (⟨_, h.sorted⟩ : Table).keyAt ((pairsBefore c).length + (pairsOf l).length) =
      v.data.key := Table.keyAt_of_getElem? hget
  obtain ⟨cs', he, hlt, hgt⟩ := (tells_pairLCPCompare ⟨_, h.sorted⟩ key).step cs _ _
    ((pairsBefore c).length + (pairsOf l).length) ⟨hsize, h.prefixes⟩ (Nat.le_add_right _ _)
    (by omega)
  have hord : (⟨_, h.sorted⟩ : Table).order key ((pairsBefore c).length + (pairsOf l).length) =
      lex v.data.key key := congrArg (lex · key) hat
  have hs := h.sorted
  rw [hfocus] at hs
  obtain ⟨_, hs2, hs12⟩ := Increasing.append_iff.mp hs
  rw [pairLCPCompare_of_getElem? hget] at he
  rw [hord] at he hlt hgt
  refine ⟨cs', he, fun ho => ?_, fun ho => ?_⟩
  · have hkey : key < v.data.key := lex_eq_gt.mp ho
    refine ⟨h.sorted, h.below, fun p hp => ?_, (hgt ho).2⟩
    rw [pairsAfter_left] at hp
    rcases List.mem_cons.mp hp with rfl | hp
    · exact hkey
    · exact hkey.trans ((Increasing.cons_iff.mp hs2).1 p hp)
  · have hkey : v.data.key < key := lex_eq_lt.mp ho
    refine ⟨h.sorted, fun p hp => ?_, h.above, ?_⟩
    · rw [pairsBefore_right, ← List.append_assoc] at hp
      rcases List.mem_append.mp hp with hp | hp
      · exact (hs12 p hp _ List.mem_cons_self).trans hkey
      · rw [List.mem_singleton.mp hp]
        exact hkey
    · have hb : (pairsBefore (⟨.right, i, v, l⟩ :: c)).length =
          (pairsBefore c).length + (pairsOf l).length + 1 := by
        rw [pairsBefore_right, List.length_append, List.length_append, List.length_singleton]
        omega
      have he' : (pairsBefore c).length + (pairsOf (node i v l r)).length =
          (pairsBefore c).length + (pairsOf l).length + 1 + (pairsOf r).length := by omega
      have hp := (hlt ho).2
      rw [he'] at hp
      rw [hb]
      exact hp

end Step

/-! ## Where a search ends -/

/-- What is known at a hole where the key would be: all pairs are below or above. -/
theorem Between.parts {key : Key} {c : Ctx Item} {cs : PrefixState} (h : Between key c nil cs) :
    pairsOf (plug c nil) = pairsBefore c ++ pairsAfter c ∧ (∀ p ∈ pairsBefore c, p.key < key) ∧
      ∀ p ∈ pairsAfter c, key < p.key := by
  refine ⟨?_, h.below, h.above⟩
  rw [pairsOf_plug, pairsOf_nil, List.nil_append]

/-- The pairs around the node of a key. -/
theorem around_node {key : Key} {c : Ctx Item} {i : ℕ} {v : Item} {l r : LTree Item}
    (h : Increasing Pair.key (pairsOf (plug c (node i v l r)))) (hk : v.data.key = key) :
    (∀ p ∈ pairsBefore c ++ pairsOf l, p.key < key) ∧
      ∀ p ∈ pairsOf r ++ pairsAfter c, key < p.key := by
  rw [pairsOf_focus] at h
  obtain ⟨_, hs2, hs12⟩ := Increasing.append_iff.mp h
  refine ⟨fun p hp => hk ▸ hs12 p hp _ List.mem_cons_self, fun p hp => ?_⟩
  exact hk ▸ (Increasing.cons_iff.mp hs2).1 p hp

/-- The loop of an insert ends below a node at a free place for the key, or at the node of
the key. -/
def Located (key : Key) (t : LTree Item) : Place → Prop
  | .below i d => ∃ c v x cs, t = plug c (join d i v nil x) ∧ Between key (⟨d, i, v, x⟩ :: c) nil cs
  | .here i => ∃ c v l r, t = plug c (node i v l r) ∧ v.data.key = key

theorem locate_spec {key : Key} {s : Links Item} {c : Ctx Item} {t : LTree Item}
    {cs : PrefixState} {i fuel : ℕ} (hs : s.Stands (plug c t)) (h : Between key c t cs)
    (ha : t.addr = some i) (hf : t.height < fuel) :
    ∃ place, locate s key fuel cs i = some place ∧ Located key (plug c t) place := by
  induction t generalizing c cs i fuel with
  | nil => exact absurd ha.symm (Option.some_ne_none i)
  | node j v l r ihl ihr =>
    obtain rfl := Option.some_inj.mp ha
    obtain ⟨fuel, rfl⟩ : ∃ m, fuel = m + 1 := ⟨fuel - 1, by omega⟩
    rw [height] at hf
    have hstands : s.Stands (plug c (join .left j v l r)) := hs
    have hget : s.get (some j) = some ⟨l.addr, r.addr, parent none c, v⟩ := hstands.get_eq
    obtain ⟨cs', he, hgt, hlt⟩ := h.step
    simp only [locate, hget, he, Option.bind_eq_bind, Option.bind_some]
    cases ho : lex v.data.key key with
    | lt =>
      have hr := hlt ho
      cases har : r.addr with
      | none =>
        obtain rfl : r = nil := addr_eq_none.mp har
        exact ⟨.below j .right, rfl, c, v, l, cs', rfl, hr⟩
      | some k => exact ihr hs hr har (by omega)
    | gt =>
      have hl := hgt ho
      cases hal : l.addr with
      | none =>
        obtain rfl : l = nil := addr_eq_none.mp hal
        exact ⟨.below j .left, rfl, c, v, r, cs', rfl, hl⟩
      | some k => exact ihl hs hl hal (by omega)
    | eq => exact ⟨.here j, rfl, c, v, l, r, rfl, lex_eq_eq.mp ho⟩

/-- The loop of an erase or a lookup ends at the node of the key, or at none if no pair has
the key. -/
def Searched (key : Key) (t : LTree Item) : Option ℕ → Prop
  | none => ∀ p ∈ pairsOf t, p.key ≠ key
  | some i => ∃ c v l r, t = plug c (node i v l r) ∧ v.data.key = key

theorem search_spec {key : Key} {s : Links Item} {c : Ctx Item} {t : LTree Item}
    {cs : PrefixState} {fuel : ℕ} (hs : s.Stands (plug c t)) (h : Between key c t cs)
    (hf : t.height < fuel) :
    ∃ x, search s key fuel cs t.addr = some x ∧ Searched key (plug c t) x := by
  induction t generalizing c cs fuel with
  | nil =>
    obtain ⟨fuel, rfl⟩ : ∃ m, fuel = m + 1 := ⟨fuel - 1, by omega⟩
    obtain ⟨he, hb, ha⟩ := h.parts
    refine ⟨none, rfl, fun p hp => ?_⟩
    rw [he] at hp
    rcases List.mem_append.mp hp with hp | hp
    · exact (hb p hp).ne
    · exact (ha p hp).ne'
  | node j v l r ihl ihr =>
    obtain ⟨fuel, rfl⟩ : ∃ m, fuel = m + 1 := ⟨fuel - 1, by omega⟩
    rw [height] at hf
    have hstands : s.Stands (plug c (join .left j v l r)) := hs
    have hget : s.get (some j) = some ⟨l.addr, r.addr, parent none c, v⟩ := hstands.get_eq
    obtain ⟨cs', he, hgt, hlt⟩ := h.step
    simp only [search, addr, hget, he, Option.bind_eq_bind, Option.bind_some]
    cases ho : lex v.data.key key with
    | lt => exact ihr hs (hlt ho) (by omega)
    | gt => exact ihl hs (hgt ho) (by omega)
    | eq => exact ⟨some j, rfl, c, v, l, r, rfl, lex_eq_eq.mp ho⟩

/-- Nothing is compared with the empty key, and nothing has it. -/
theorem search_empty {s : Links Item} {c : Ctx Item} {t : LTree Item} {cs : PrefixState}
    {fuel : ℕ} (hs : s.Stands (plug c t)) (hf : t.height < fuel) :
    search s [] fuel cs t.addr = some none := by
  induction t generalizing c cs fuel with
  | nil =>
    obtain ⟨fuel, rfl⟩ : ∃ m, fuel = m + 1 := ⟨fuel - 1, by omega⟩
    rfl
  | node j v l r ihl ihr =>
    obtain ⟨fuel, rfl⟩ : ∃ m, fuel = m + 1 := ⟨fuel - 1, by omega⟩
    rw [height] at hf
    have hstands : s.Stands (plug c (join .left j v l r)) := hs
    have hget : s.get (some j) = some ⟨l.addr, r.addr, parent none c, v⟩ := hstands.get_eq
    have hright : s.Stands (plug (⟨.right, j, v, l⟩ :: c) r) := hs
    simp only [search, addr, hget, Option.bind_eq_bind, Option.bind_some]
    exact ihr hright (by omega)

/-- Where an iterator starts: at the first pair that is not below the key. -/
def StartsAt (key : Key) (t : LTree Item) (x : Option ℕ) : Prop :=
  ∃ l1 l2, cells t = l1 ++ l2 ∧ x = l2.head?.map Prod.fst ∧
    (∀ p ∈ l1.map Prod.snd, p.key < key) ∧ ∀ p ∈ l2.map Prod.snd, key ≤ p.key

theorem cells_focus (c : Ctx Item) (i : ℕ) (v : Item) (l r : LTree Item) :
    cells (plug c (node i v l r)) =
      ((before c).map shown ++ cells l) ++ (i, v.data) :: (cells r ++ (after c).map shown) := by
  rw [cells_plug, cells_node]
  simp only [List.append_assoc, List.cons_append]
  rfl

theorem map_shown (l : List (ℕ × Item)) :
    (l.map shown).map Prod.snd = l.map fun e => e.2.data := List.map_map

theorem findNode_spec {key : Key} {s : Links Item} {c : Ctx Item} {t : LTree Item}
    {cs : PrefixState} {i fuel k : ℕ} (hs : s.Stands (plug c t)) (h : Between key c t cs)
    (ha : t.addr = some i) (hf : (plug c t).ids.length < fuel) (hk : t.height < k) :
    ∃ x, findNode s key fuel k cs (some i) = some x ∧ StartsAt key (plug c t) x := by
  induction t generalizing c cs i k with
  | nil => exact absurd ha.symm (Option.some_ne_none i)
  | node j v l r ihl ihr =>
    obtain rfl := Option.some_inj.mp ha
    obtain ⟨k, rfl⟩ : ∃ m, k = m + 1 := ⟨k - 1, by omega⟩
    rw [height] at hk
    have hstands : s.Stands (plug c (join .left j v l r)) := hs
    have hget : s.get (some j) = some ⟨l.addr, r.addr, parent none c, v⟩ := hstands.get_eq
    have hcells := cells_focus c j v l r
    obtain ⟨cs', he, hgt, hlt⟩ := h.step
    simp only [findNode, hget, he, Option.bind_eq_bind, Option.bind_some]
    cases ho : lex v.data.key key with
    | lt =>
      have hr := hlt ho
      cases har : r.addr with
      | none =>
        obtain rfl : r = nil := addr_eq_none.mp har
        have hright : s.Stands (plug c (join .right j v nil l)) := hs
        have hways : c.length ≤ _ ∧ (node j v l nil).height ≤ _ := ways_le le_rfl
        have hnext : getNextNode .right s fuel j = some ((run .right nil ++ ahead .right c).head?.map
          Prod.fst) := getNextNode_spec hright (Nat.zero_lt_of_lt hf) (hways.1.trans_lt hf)
        refine ⟨_, hnext, (before c).map shown ++ cells l ++ [(j, v.data)], (after c).map shown, ?_,
          rfl, ?_, ?_⟩
        · rw [hcells, List.append_assoc (_ ++ cells l)]
          rfl
        · intro p hp
          refine hr.below p ?_
          rw [pairsBefore_right, ← List.append_assoc]
          simp only [List.map_append, map_shown] at hp
          exact hp
        · intro p hp
          rw [map_shown] at hp
          exact (hr.above p hp).le
      | some m => exact ihr hs hr har hf (by omega)
    | gt =>
      have hl := hgt ho
      cases hal : l.addr with
      | none =>
        obtain rfl : l = nil := addr_eq_none.mp hal
        refine ⟨some j, rfl, (before c).map shown ++ cells nil, _, hcells, rfl, ?_, ?_⟩
        · intro p hp
          refine hl.below p ?_
          simp only [List.map_append, map_shown] at hp
          rw [pairsBefore_left]
          exact (List.append_nil (pairsBefore c)) ▸ hp
        · intro p hp
          refine (hl.above p ?_).le
          rw [pairsAfter_left]
          simp only [List.map_cons, List.map_append, map_shown] at hp
          exact hp
      | some m => exact ihl hs hl hal hf (by omega)
    | eq =>
      obtain ⟨hb, ha⟩ := around_node h.sorted (lex_eq_eq.mp ho)
      refine ⟨some j, rfl, _, _, hcells, rfl, ?_, ?_⟩
      · intro p hp
        simp only [List.map_append, map_shown] at hp
        exact hb p hp
      · intro p hp
        simp only [List.map_cons, List.map_append, map_shown] at hp
        rcases List.mem_cons.mp hp with rfl | hp
        · exact (lex_eq_eq.mp ho).ge
        · exact (ha p hp).le

end HM4.AVLSearch
