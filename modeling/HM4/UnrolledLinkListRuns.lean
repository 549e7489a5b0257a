import HM4.UnrolledLinkList
import HM4.ListRuns

/-!
# Runs of the unrolled link list

An iterator stands at a pair in a node and goes on over the ends of the nodes. As long as
the first octets of all keys in use decide between them, the list goes along with a plain
map, unless its memory is given back as a whole while it still has nodes: that is what an
arena does at an erase that empties one node of several.
-/

namespace HM4.UnrolledLinkListRuns

open LexPrefix Bytes Pairs PairFactory MemList KeyedList HPair ListSteps ListRuns PairVector
  UnrolledLinkList
open HPairRank hiding rank

/-! ## Iterators -/

/-- `UnrolledLinkList::iterator`: the nodes from `node_` on, and the place in `node_`. -/
structure Iterator where
  /-- The node and the ones behind it. -/
  nodes : List Node
  /-- `it_`. -/
  it : ℕ

/-- `end`. -/
def endIterator : Iterator := ⟨[], 0⟩

/-- `operator *`. -/
def Iterator.deref (i : Iterator) : Option Pair := do
  let node ← i.nodes.head?
  let d ← node.data[i.it]?
  return d.data

/-- `operator ++`. -/
def Iterator.next (i : Iterator) : Option Iterator :=
  match i.nodes with
  | [] => none
  | node :: nodes =>
    if i.it + 1 ≠ node.data.length then some ⟨node :: nodes, i.it + 1⟩ else some ⟨nodes, 0⟩

/-- The pairs from an iterator to `end()`, of which there have to be less than so many. -/
def Iterator.pairs : ℕ → Iterator → Option (List Pair)
  | 0, _ => none
  | n + 1, i =>
    if i.nodes.isEmpty then some []
    else do
      let p ← i.deref
      let i ← i.next
      let ps ← Iterator.pairs n i
      return p :: ps

/-- `begin`. -/
def begin (nodes : List Node) : Iterator := ⟨nodes, 0⟩

/-- `fix_iterator_`. -/
def fix_iterator (node : Node) (next : List Node) (it : ℕ) : Iterator :=
  if it ≠ node.data.length then ⟨node :: next, it⟩
  else if next.isEmpty then endIterator
  else ⟨next, 0⟩

/-- The loop of `find_`, in which the last node is compared as well: the nodes from the one
on at which it ends, and whether the last pair of this one has the key. -/
def findNode (hkey : ℕ) (key : Key) : List Node → Option (List Node × Bool)
  | [] => some ([], false)
  | node :: nodes => do
    if hkey ≤ (← node.hkey) ∧ (← node.cmp hkey key) ≠ .lt then
      return (node :: nodes, (← node.cmp hkey key) = .eq)
    else findNode hkey key nodes

/-- `find_`, which asserts that there is a key. -/
def find_ (exactMatch : Bool) (nodes : List Node) (key : Key) : Option Iterator :=
  if key = [] then none
  else do
    match ← findNode (create key) key nodes with
    | ([], _) => return endIterator
    | (node :: next, true) => return ⟨node :: next, node.data.length - 1⟩
    | (node :: next, false) =>
      let r ← PairVector.locate node.data (create key) key
      if exactMatch then return if r.found then ⟨node :: next, r.pos⟩ else endIterator
      else return fix_iterator node next r.pos

/-- `find`. -/
def find (nodes : List Node) (key : Key) : Option Iterator := find_ false nodes key

/-- `getPair___`. -/
def getPair (nodes : List Node) (key : Key) : Option (Option Pair) := do
  let it ← find_ true nodes key
  if it.nodes.isEmpty then return none
  else
    let p ← it.deref
    return some p

/-- The entries from an iterator on. -/
def Iterator.rest (i : Iterator) : List Data :=
  match i.nodes with
  | [] => []
  | node :: nodes => node.data.drop i.it ++ entries nodes

/-- No node is empty, and the place is one in its node. -/
structure Iterator.Valid (i : Iterator) : Prop where
  nonempty : ∀ node ∈ i.nodes, node.data ≠ []
  inside : ∀ node ∈ i.nodes.head?, i.it < node.data.length

/-- The beginning of nodes that are not empty. -/
theorem begin_valid {nodes : List Node} (hne : ∀ node ∈ nodes, node.data ≠ []) :
    (begin nodes).Valid := by
  refine ⟨hne, fun node hnode => ?_⟩
  have hmem : node ∈ nodes := List.mem_of_mem_head? hnode
  exact List.length_pos_iff.mpr (hne node hmem)

theorem begin_rest (nodes : List Node) : (begin nodes).rest = entries nodes := by
  cases nodes with
  | nil => rfl
  | cons node nodes =>
    simp only [begin, Iterator.rest, List.drop_zero]
    rw [entries_cons]

/-- An iterator that is not at the end stands at the first of its entries, and the next one is
there for the others. -/
theorem Iterator.Valid.step {i : Iterator} (h : i.Valid) (hend : i.nodes.isEmpty = false) :
    ∃ d j, i.deref = some d.data ∧ i.next = some j ∧ j.Valid ∧ i.rest = d :: j.rest := by
  obtain ⟨nodes, it⟩ := i
  cases nodes with
  | nil => exact absurd hend (by simp)
  | cons node nodes =>
    have hit : it < node.data.length := h.inside node (by simp)
    have hdrop : node.data.drop it = node.data[it] :: node.data.drop (it + 1) :=
      List.drop_eq_getElem_cons hit
    have hderef : Iterator.deref ⟨node :: nodes, it⟩ = some node.data[it].data := by
      simp [Iterator.deref, hit]
    have hbehind : ∀ n ∈ nodes, n.data ≠ [] := fun n hn =>
      h.nonempty n (List.mem_cons_of_mem node hn)
    by_cases hlast : it + 1 = node.data.length
    · have hnext : Iterator.next ⟨node :: nodes, it⟩ = some (begin nodes) := by
        simp [Iterator.next, hlast, begin]
      refine ⟨node.data[it], begin nodes, hderef, hnext, begin_valid hbehind, ?_⟩
      rw [begin_rest]
      simp only [Iterator.rest, hdrop]
      rw [hlast, List.drop_length]
      simp
    · have hnext : Iterator.next ⟨node :: nodes, it⟩ = some ⟨node :: nodes, it + 1⟩ := by
        simp [Iterator.next, hlast]
      refine ⟨node.data[it], ⟨node :: nodes, it + 1⟩, hderef, hnext, ⟨h.nonempty, ?_⟩, ?_⟩
      · intro n hn
        have hn' : node = n := by simpa using hn
        have hlt : it + 1 < node.data.length := by omega
        exact hn' ▸ hlt
      · simp only [Iterator.rest, hdrop, List.cons_append]

/-- An iterator visits its entries once each. -/
theorem Iterator.Valid.pairs {i : Iterator} (h : i.Valid) {n : ℕ} (hn : i.rest.length < n) :
    i.pairs n = some (i.rest.map Data.data) := by
  induction n generalizing i with
  | zero => omega
  | succ n ih =>
    cases hend : i.nodes.isEmpty with
    | true =>
      have hnil : i.nodes = [] := List.isEmpty_iff.mp hend
      have hrest : i.rest = [] := by simp only [Iterator.rest, hnil]
      simp only [Iterator.pairs, hend, hrest, if_true, List.map_nil]
    | false =>
      obtain ⟨d, j, hderef, hnext, hj, hrest⟩ := h.step hend
      have hlen : j.rest.length < n := by
        rw [hrest, List.length_cons] at hn
        omega
      have hps := ih hj hlen
      simp only [Iterator.pairs, hend, hderef, hnext, hps, hrest, Bool.false_eq_true, if_false,
        Option.bind_eq_bind, Option.bind_some, Option.pure_def, List.map_cons]

/-! ## Searches -/

/-- Where the loop of a search ends: all entries before are below the key, and the last one of
the node is not. -/
structure Stop (k : List ℤ) (nodes passed rest : List Node) (found : Bool) : Prop where
  eq : nodes = passed ++ rest
  below : ∀ x ∈ entries passed, x.rank < k
  last : ∀ node ∈ rest.head?, ∃ d, node.data.getLast? = some d ∧ k ≤ d.rank ∧
    (found = true ↔ d.rank = k)

/-- The loop ends where the key belongs. -/
theorem findNode_spec {nodes : List Node} (h : Increasing Data.rank (entries nodes))
    (hne : ∀ node ∈ nodes, node.data ≠ []) (key : Key) :
    ∃ passed rest found, findNode (create key) key nodes = some (rest, found) ∧
      Stop (rankOf key) nodes passed rest found := by
  induction nodes with
  | nil => exact ⟨[], [], false, rfl, rfl, fun _ hx => absurd hx List.not_mem_nil,
      fun _ hn => absurd hn (by simp)⟩
  | cons node nodes ih =>
    rw [entries_cons] at h
    obtain ⟨d, hd, hlast, hle, _⟩ := last_spec node h (hne node List.mem_cons_self)
    have hhkey : node.hkey = some d.hkey := by rw [Node.hkey, hlast, Option.map_some]
    have hcmp : node.cmp (create key) key = some (lex d.rank (rankOf key)) := by
      rw [Node.cmp, hlast, Option.map_some, cmp_eq]
    have hstop : (create key ≤ d.hkey ∧ lex d.rank (rankOf key) ≠ .lt) ↔
        rankOf key ≤ d.rank := by
      rw [Ne, lex_eq_lt, not_lt]
      refine ⟨fun h => h.2, fun h => ⟨?_, h⟩⟩
      by_contra hlt
      exact absurd h (not_le.mpr (rank_lt_of_lt (not_le.mp hlt) _ _))
    by_cases hc : rankOf key ≤ d.rank
    · have hrun : findNode (create key) key (node :: nodes) =
          some (node :: nodes, decide (lex d.rank (rankOf key) = .eq)) := by
        simp only [findNode, hhkey, hcmp, Option.bind_eq_bind, Option.bind_some, Option.pure_def,
          if_pos (hstop.mpr hc)]
      refine ⟨[], _, _, hrun, rfl, fun _ hx => absurd hx List.not_mem_nil, fun n hn => ?_⟩
      have hn' : node = n := by simpa using hn
      subst hn'
      refine ⟨d, hlast, hc, ?_⟩
      rw [decide_eq_true_eq, lex_eq_eq]
    · obtain ⟨passed, rest, found, e, hst⟩ := ih (Increasing.append_iff.mp h).2.1
        fun n hn => hne n (List.mem_cons_of_mem node hn)
      have hrun : findNode (create key) key (node :: nodes) = some (rest, found) := by
        simp only [findNode, hhkey, hcmp, e, Option.bind_eq_bind, Option.bind_some,
          Option.pure_def, if_neg fun hp => hc (hstop.mp hp)]
      refine ⟨node :: passed, rest, found, hrun, by rw [hst.eq, List.cons_append],
        fun x hx => ?_, hst.last⟩
      rw [entries_cons] at hx
      rcases List.mem_append.mp hx with hx | hx
      · exact (hle x hx).trans_lt (not_le.mp hc)
      · exact hst.below x hx

/-- What a search finds: the entries before its place are below the key, the ones from it on are
not. -/
structure Lands (k : List ℤ) (nodes : List Node) (l1 : List Data) (i : Iterator) : Prop where
  eq : entries nodes = l1 ++ i.rest
  below : ∀ x ∈ l1, x.rank < k
  above : ∀ x ∈ i.rest, k ≤ x.rank
  valid : i.Valid

variable {nodes : List Node} {key : Key}

/-- The entries that are not below a key come last. -/
theorem above_of_increasing {l1 l2 : List Data} {k : List ℤ}
    (h : Increasing Data.rank (l1 ++ l2)) (hhead : ∀ x ∈ l2.head?, k ≤ x.rank) :
    ∀ x ∈ l2, k ≤ x.rank := by
  cases l2 with
  | nil => simp
  | cons d l2 =>
    have hd : k ≤ d.rank := hhead d (by simp)
    have hcons := (Increasing.append_iff.mp h).2.1
    intro x hx
    rcases List.mem_cons.mp hx with rfl | hx
    · exact hd
    · exact hd.trans (List.rel_of_pairwise_cons hcons hx).le

/-- Both searches, told by the place of the key. -/
def Searches (nodes : List Node) (key : Key) : Prop :=
  ∃ l1 i, find_ false nodes key = some i ∧ Lands (rankOf key) nodes l1 i ∧
    ((∃ d ∈ i.rest, d.rank = rankOf key) → find_ true nodes key = some i) ∧
    ((∀ d ∈ i.rest, d.rank ≠ rankOf key) → find_ true nodes key = some endIterator)

/-- All entries are below the key. -/
theorem searches_end {passed : List Node} {found : Bool} (hk : key ≠ [])
    (e : findNode (create key) key nodes = some ([], found))
    (hst : Stop (rankOf key) nodes passed [] found) : Searches nodes key := by
  have hrun : ∀ exactMatch, find_ exactMatch nodes key = some endIterator := fun exactMatch => by
    simp only [find_, if_neg hk, e, Option.bind_eq_bind, Option.bind_some, Option.pure_def]
  have hrest : endIterator.rest = [] := rfl
  have hlands : Lands (rankOf key) nodes (entries passed) endIterator := by
    refine ⟨?_, hst.below, by simp [hrest], ⟨by simp [endIterator], by simp [endIterator]⟩⟩
    rw [hrest, List.append_nil, hst.eq, List.append_nil]
  exact ⟨entries passed, endIterator, hrun false, hlands, fun _ => hrun true, fun _ => hrun true⟩

section Inside

variable {passed next : List Node} {node : Node}
  (h : Increasing Data.rank (entries passed ++ (node.data ++ entries next)))
  (hne : ∀ n ∈ node :: next, n.data ≠ []) (hk : key ≠ [])

include h hne hk

/-- The last pair of a node has the key. -/
theorem searches_last (e : findNode (create key) key nodes = some (node :: next, true))
    (hst : Stop (rankOf key) nodes passed (node :: next) true) : Searches nodes key := by
  obtain ⟨d, hlast, hle, hfound⟩ := hst.last node (by simp)
  have hd : d.rank = rankOf key := hfound.mp rfl
  have hrun : ∀ exactMatch, find_ exactMatch nodes key =
      some ⟨node :: next, node.data.length - 1⟩ := fun exactMatch => by
    simp only [find_, if_neg hk, e, Option.bind_eq_bind, Option.bind_some, Option.pure_def]
  have hsplit : node.data.dropLast ++ [d] = node.data :=
    List.dropLast_append_getLast? d (by simp [hlast])
  have hdrop : node.data.drop (node.data.length - 1) = [d] := by
    have hd' : (node.data.dropLast ++ [d]).drop node.data.dropLast.length = [d] := List.drop_left
    rwa [hsplit, List.length_dropLast] at hd'
  have hrest : Iterator.rest ⟨node :: next, node.data.length - 1⟩ = d :: entries next := by
    simp only [Iterator.rest, hdrop, List.cons_append, List.nil_append]
  have heq : entries passed ++ (node.data ++ entries next) =
      (entries passed ++ node.data.dropLast) ++ d :: entries next := by
    rw [← hsplit, List.dropLast_concat]
    simp only [List.append_assoc, List.singleton_append]
  have hpos := List.length_pos_iff.mpr (hne node List.mem_cons_self)
  rw [heq] at h
  have hlands : Lands (rankOf key) nodes (entries passed ++ node.data.dropLast)
      ⟨node :: next, node.data.length - 1⟩ := by
    refine ⟨?_, fun x hx => ?_, ?_, ⟨hne, fun n hn => ?_⟩⟩
    · rw [hrest, hst.eq, entries_around, heq]
    · exact hd ▸ (Increasing.append_iff.mp h).2.2 x hx d List.mem_cons_self
    · rw [hrest]
      refine above_of_increasing h fun x hx => ?_
      have hx' : d = x := by simpa using hx
      exact hx' ▸ hle
    · have hn' : node = n := by simpa using hn
      subst hn'
      exact Nat.sub_lt hpos Nat.one_pos
  refine ⟨_, _, hrun false, hlands, fun _ => hrun true, fun hnot => ?_⟩
  have hmem : d ∈ Iterator.rest ⟨node :: next, node.data.length - 1⟩ := by
    rw [hrest]
    exact List.mem_cons_self
  exact absurd hd (hnot d hmem)

/-- The key belongs into a node before its last pair. -/
theorem searches_within (e : findNode (create key) key nodes = some (node :: next, false))
    (hst : Stop (rankOf key) nodes passed (node :: next) false) : Searches nodes key := by
  obtain ⟨d, hlast, hle, hfound⟩ := hst.last node (by simp)
  have hdmem : d ∈ node.data := List.mem_of_getLast? hlast
  have hd : d.rank ≠ rankOf key := fun hc => Bool.false_ne_true (hfound.mpr hc)
  obtain ⟨hnode, _, hbehind⟩ := Increasing.append_iff.mp (Increasing.append_iff.mp h).2.1
  obtain ⟨l1, l2, found, eloc, hcut⟩ := PairVector.locate_spec hnode key
  have hd2 : d ∈ l2 := by
    rw [hcut.eq] at hdmem
    exact (List.mem_append.mp hdmem).resolve_left fun hx => absurd hle (not_le.mpr (hcut.below d hx))
  have hinside : l1.length < node.data.length := by
    have hlen := congrArg List.length hcut.eq
    rw [List.length_append] at hlen
    have hpos := List.length_pos_of_mem hd2
    omega
  have hfix : fix_iterator node next l1.length = ⟨node :: next, l1.length⟩ := if_pos hinside.ne
  have hrest : Iterator.rest ⟨node :: next, l1.length⟩ = l2 ++ entries next := by
    simp only [Iterator.rest]
    rw [hcut.eq, List.drop_left]
  have hcross : ∀ x ∈ entries next, rankOf key < x.rank := fun x hx =>
    hle.trans_lt (hbehind d (List.mem_of_getLast? hlast) x hx)
  have hrun : find_ false nodes key = some ⟨node :: next, l1.length⟩ := by
    simp only [find_, if_neg hk, e, eloc, Option.bind_eq_bind, Option.bind_some, Option.pure_def,
      Bool.false_eq_true, if_false]
    rw [hfix]
  have hexact : find_ true nodes key =
      some (if found then ⟨node :: next, l1.length⟩ else endIterator) := by
    simp only [find_, if_neg hk, e, eloc, Option.bind_eq_bind, Option.bind_some, Option.pure_def,
      if_true]
  have habove : ∀ x ∈ l2, rankOf key ≤ x.rank := by
    cases hf : found with
    | true =>
      obtain ⟨y, l3, rfl, hy, hl3⟩ := hcut.here hf
      exact List.forall_mem_cons.mpr ⟨hy.ge, fun x hx => (hl3 x hx).le⟩
    | false => exact fun x hx => (hcut.above hf x hx).le
  have hlands : Lands (rankOf key) nodes (entries passed ++ l1) ⟨node :: next, l1.length⟩ := by
    refine ⟨?_, fun x hx => ?_, fun x hx => ?_, ⟨hne, fun n hn => ?_⟩⟩
    · rw [hrest, hst.eq, entries_around, hcut.eq]
      simp only [List.append_assoc]
    · exact (List.mem_append.mp hx).elim (hst.below x) (hcut.below x)
    · rw [hrest] at hx
      exact (List.mem_append.mp hx).elim (habove x) fun hx => (hcross x hx).le
    · have hn' : node = n := by simpa using hn
      exact hn' ▸ hinside
  refine ⟨_, _, hrun, hlands, fun hhere => ?_, fun hnot => ?_⟩
  · cases hf : found with
    | true => rw [hexact, hf, if_pos rfl]
    | false =>
      obtain ⟨x, hx, hr⟩ := hhere
      rw [hrest] at hx
      rcases List.mem_append.mp hx with hx | hx
      · exact absurd hr (hcut.above hf x hx).ne'
      · exact absurd hr (hcross x hx).ne'
  · cases hf : found with
    | true =>
      obtain ⟨y, l3, rfl, hy, _⟩ := hcut.here hf
      have hmem : y ∈ Iterator.rest ⟨node :: next, l1.length⟩ := by
        rw [hrest]
        exact List.mem_append_left _ List.mem_cons_self
      exact absurd hy (hnot y hmem)
    | false => rw [hexact, hf, if_neg Bool.false_ne_true]

end Inside

/-- A search lands where the key belongs. -/
theorem find_spec (h : Increasing Data.rank (entries nodes))
    (hne : ∀ node ∈ nodes, node.data ≠ []) (hk : key ≠ []) : Searches nodes key := by
  obtain ⟨passed, rest, found, e, hst⟩ := findNode_spec h hne key
  have hmem : ∀ node ∈ rest, node.data ≠ [] := fun node hnode =>
    hne node (hst.eq ▸ List.mem_append_right passed hnode)
  cases rest with
  | nil => exact searches_end hk e hst
  | cons node next =>
    rw [hst.eq, entries_around] at h
    cases found with
    | true => exact searches_last h hmem hk e hst
    | false => exact searches_within h hmem hk e hst

/-! ## Runs -/

variable {σ : Type}

/-- Whether an erase gives the memory of other nodes back: it takes the last pair out of one
node of several, and the allocator can only be reset as a whole. -/
def loses (allocator : Allocator σ) (list : State σ) (op : Op) : Bool :=
  match op with
  | .erase key =>
    match UnrolledLinkList.locate (create key) key list.nodes with
    | some (passed, node :: rest, _) =>
      match node.data with
      | [d] => d.cmp (create key) key = .eq && !(passed ++ rest).isEmpty &&
          (allocator.reset (allocator.xdeallocate d.pair.block.addr list.alloc)).1
      | _ => false
    | _ => false
  | _ => false

/-- One operation on a list that has to keep its memory. -/
def liveStep (allocator : Allocator σ) (capacity : ℕ) (op : Op) (list : State σ) :
    Option (Option InsertResult × State σ) :=
  if loses allocator list op then none else step allocator capacity list op

/-- The operations of a run never give the memory of other nodes back. -/
def Keeps (allocator : Allocator σ) (capacity : ℕ) : State σ → List Op → Prop
  | _, [] => True
  | list, op :: ops => loses allocator list op = false ∧
      ∀ r list', step allocator capacity list op = some (r, list') →
        Keeps allocator capacity list' ops

/-- An allocator that takes back memory piece by piece never gives back more. -/
theorem keeps_of_reset {allocator : Allocator σ} (h : ∀ s, (allocator.reset s).1 = false)
    (capacity : ℕ) (ops : List Op) (list : State σ) : Keeps allocator capacity list ops := by
  induction ops generalizing list with
  | nil => trivial
  | cons op ops ih =>
    refine ⟨?_, fun _ list' _ => ih list'⟩
    unfold loses
    split
    · split
      · split
        · rw [h, Bool.and_false]
        · rfl
      · rfl
    · rfl

/-- What the allocator of a list says to an operation. -/
def answers (allocator : Allocator σ) (capacity : ℕ) (list : State σ) (op : Op) (a : Answer) :
    Prop :=
  Answers (owns allocator capacity list.alloc) (refuses allocator capacity list.alloc op) a

/-- What a list holds, with known keys only. -/
structure Represents (keys : Set Key) (capacity : ℕ) (nodes : List Node) (m : List Pair) :
    Prop where
  good : Good capacity nodes
  known : Known Data.hkey Data.data keys (entries nodes)
  shows : (entries nodes).map Data.data = m

section Represents

variable {keys : Set Key} {capacity : ℕ} {m : List Pair}

/-- The pairs of a list are in the order of their keys. -/
theorem Represents.increasing (hr : Represents keys capacity nodes m) (hkeys : Decided keys) :
    Increasing Pair.key m := by
  rw [← hr.shows]
  exact hr.known.increasing hkeys hr.good.ordered.increasing

/-- `find` is at the first pair that is not below the key and goes on to the last one. -/
theorem Represents.find (hr : Represents keys capacity nodes m) (hkeys : Decided keys)
    (hne : key ≠ []) (hk : key ∈ keys) : ∃ i, find nodes key = some i ∧
      i.pairs (m.length + 1) = some (fromKey Pair.key key m) := by
  obtain ⟨l1, i, hrun, hlands, _⟩ := find_spec hr.good.ordered.increasing hr.good.nonempty hne
  have hknown : Known Data.hkey Data.data keys (l1 ++ i.rest) := hlands.eq ▸ hr.known
  have hfrom := hknown.fromKey hkeys hk hlands.below hlands.above
  rw [← hlands.eq, hr.shows] at hfrom
  have hlen : i.rest.length < m.length + 1 := by
    rw [← hr.shows, hlands.eq, List.length_map, List.length_append]
    omega
  exact ⟨i, hrun, hfrom ▸ hlands.valid.pairs hlen⟩

/-- `getPair___` shows the pair of the key. -/
theorem Represents.getPair (hr : Represents keys capacity nodes m) (hkeys : Decided keys)
    (hne : key ≠ []) (hk : key ∈ keys) : getPair nodes key = some (get key m) := by
  obtain ⟨l1, i, _, hlands, hhere, hnone⟩ :=
    find_spec hr.good.ordered.increasing hr.good.nonempty hne
  have hknown : Known Data.hkey Data.data keys (l1 ++ i.rest) := hlands.eq ▸ hr.known
  have hm : m = (l1 ++ i.rest).map Data.data := by rw [← hlands.eq, hr.shows]
  by_cases h : ∃ d ∈ i.rest, d.rank = rankOf key
  · cases hend : i.nodes.isEmpty with
    | true =>
      obtain ⟨d, hd, _⟩ := h
      simp only [Iterator.rest, List.isEmpty_iff.mp hend, List.not_mem_nil] at hd
    | false =>
      obtain ⟨d, j, hderef, _, _, hrest⟩ := hlands.valid.step hend
      have hinc : Increasing Data.rank (d :: j.rest) := by
        have hinc' := hr.good.ordered.increasing
        rw [hlands.eq, hrest] at hinc'
        exact (Increasing.append_iff.mp hinc').2.1
      have hd : d.rank = rankOf key := by
        obtain ⟨x, hx, hxr⟩ := h
        rw [hrest] at hx
        rcases List.mem_cons.mp hx with rfl | hx
        · exact hxr
        · have hlt := List.rel_of_pairwise_cons hinc hx
          have hle := hlands.above d (hrest ▸ List.mem_cons_self)
          exact absurd hxr (hle.trans_lt hlt).ne'
      have hget : get key m = some d.data := by
        rw [hrest] at hknown hm
        rw [hm]
        exact hknown.get_at hkeys hk hlands.below hd
      simp only [UnrolledLinkListRuns.getPair, hhere h, hend, hderef, hget, Bool.false_eq_true,
        if_false, Option.bind_eq_bind, Option.bind_some, Option.pure_def]
  · have hnot : ∀ d ∈ i.rest, d.rank ≠ rankOf key := fun d hd hc => h ⟨d, hd, hc⟩
    have hget : get key m = none := by
      rw [hm]
      refine hknown.get_none hkeys hk fun x hx => ?_
      exact (List.mem_append.mp hx).elim (fun hx => (hlands.below x hx).ne) (hnot x)
    simp only [UnrolledLinkListRuns.getPair, hnone hnot, hget, endIterator, List.isEmpty_nil,
      if_true, Option.bind_eq_bind, Option.bind_some, Option.pure_def]

variable {allocator : Allocator σ} {list : State σ}

/-- Every operation on known keys goes along with the one on a plain map. -/
theorem Represents.step (hr : Represents keys capacity list.nodes m) (hkeys : Decided keys)
    (hcap : 2 ≤ capacity) {op : Op} (hop : On keys op) :
    ∃ r list' m' a, answers allocator capacity list op a ∧
      UnrolledLinkList.step allocator capacity list op = some (r, list') ∧
      plainStep op a m = (r, m') ∧ Represents keys capacity list'.nodes m' := by
  obtain ⟨r, list', e, hst, hgood⟩ := step_spec allocator hcap hr.good hop.keyed
  have hany : ∃ b, owns allocator capacity list.alloc b := ⟨_, .inl ⟨0, rfl⟩⟩
  obtain ⟨a, ha, hplain, hknown⟩ := hr.known.stepped hkeys hst hany hop
  rw [hr.shows] at hplain
  exact ⟨r, list', _, a, ha, e, hplain, hgood, hknown, rfl⟩

/-- A run on known keys that keeps its memory goes along with one on a plain map. -/
theorem Represents.run (hkeys : Decided keys) (hcap : 2 ≤ capacity) {ops : List Op}
    (hops : ∀ op ∈ ops, On keys op) (hr : Represents keys capacity list.nodes m)
    (hkeep : Keeps allocator capacity list ops) :
    ∃ list' m', Together (liveStep allocator capacity) (answers allocator capacity)
        list m ops list' m' ∧ Represents keys capacity list'.nodes m' := by
  induction ops generalizing list m with
  | nil => exact ⟨list, m, .nil list m, hr⟩
  | cons op ops ih =>
    obtain ⟨hop, hrest⟩ := List.forall_mem_cons.mp hops
    obtain ⟨hlive, hnext⟩ := hkeep
    obtain ⟨r, list1, m1, a, ha, e, hplain, hr1⟩ := hr.step hkeys hcap hop
    have hstep : liveStep allocator capacity op list = some (r, list1) := by
      rw [liveStep, if_neg (by simp [hlive]), e]
    obtain ⟨list2, m2, hgo, hr2⟩ := ih hrest hr1 (hnext r list1 e)
    exact ⟨list2, m2, .cons a ha hstep hplain hgo, hr2⟩

end Represents

/-- In every run on keys between which the first octets decide, and in which no erase gives the
memory of other nodes back, the list goes along with a plain map: no node is empty, the pairs
of the nodes one behind the other are those of the map, and a search ends at the first key
that is not below. -/
theorem nodes_refine (allocator : Allocator σ) (alloc : σ) {capacity : ℕ} (hcap : 2 ≤ capacity)
    {keys : Set Key} (hkeys : Decided keys) (ops : List Op) (hops : ∀ op ∈ ops, On keys op)
    (hkeep : Keeps allocator capacity (State.empty alloc) ops) :
    ∃ list m, Together (liveStep allocator capacity) (answers allocator capacity)
        (State.empty alloc) [] ops list m ∧
      (∀ node ∈ list.nodes, node.data ≠ [] ∧ node.data.length ≤ capacity) ∧
      (begin list.nodes).pairs (m.length + 1) = some m ∧ Increasing Pair.key m ∧
      (∀ key ∈ keys, key ≠ [] →
        (∃ i, find list.nodes key = some i ∧
          i.pairs (m.length + 1) = some (fromKey Pair.key key m)) ∧
        getPair list.nodes key = some (get key m)) := by
  have hempty : Represents keys capacity (State.empty alloc).nodes [] :=
    ⟨good_nil, fun _ hx => absurd hx List.not_mem_nil, rfl⟩
  obtain ⟨list, m, hrun, hr⟩ := hempty.run hkeys hcap hops hkeep
  have hbegin : (begin list.nodes).pairs (m.length + 1) = some m := by
    have hlen : (begin list.nodes).rest.length < m.length + 1 := by
      rw [begin_rest, ← hr.shows, List.length_map]
      omega
    rw [(begin_valid hr.good.nonempty).pairs hlen, begin_rest, hr.shows]
  exact ⟨list, m, hrun, fun node hn => ⟨hr.good.nonempty node hn, hr.good.fits node hn⟩, hbegin,
    hr.increasing hkeys, fun key hk hne => ⟨hr.find hkeys hne hk, hr.getPair hkeys hne hk⟩⟩

/-- Three keys of one letter are written, which splits the first node, and the one in it is
erased. -/
theorem nodes_refine_letters : ∃ list m,
    Together (liveStep growing 2) (answers growing 2) (State.empty 0) []
      [insertOf [97] 1, insertOf [98] 2, insertOf [99] 3, .erase [97]] list m ∧
    (begin list.nodes).pairs (m.length + 1) = some m := by
  have hkeys : Decided {[97], [98], [99]} := by
    rintro a (rfl | rfl | rfl) b (rfl | rfl | rfl) <;> decide +kernel
  have hops : ∀ op ∈ [insertOf [97] 1, insertOf [98] 2, insertOf [99] 3, .erase [97]],
      On {[97], [98], [99]} op := by
    intro op hop key hk
    simp only [List.mem_cons, List.not_mem_nil, or_false] at hop
    rcases hop with rfl | rfl | rfl | rfl
    · obtain rfl := Option.some.inj hk
      exact ⟨by decide, .inl rfl⟩
    · obtain rfl := Option.some.inj hk
      exact ⟨by decide, .inr (.inl rfl)⟩
    · obtain rfl := Option.some.inj hk
      exact ⟨by decide, .inr (.inr rfl)⟩
    · obtain rfl := Option.some.inj hk
      exact ⟨by decide, .inl rfl⟩
  obtain ⟨list, m, hrun, _, hpairs, _⟩ := nodes_refine growing 0 (le_refl 2) hkeys _ hops
    (keeps_of_reset (fun _ => rfl) 2 _ _)
  exact ⟨list, m, hrun, hpairs⟩

/-- A key and the same key with a zero octet behind it are taken for one key: the second write
replaces the pair of the first. -/
theorem nodes_not_refine : ¬∀ ops : List Op,
    (∀ op ∈ ops, ∀ key, keyOf op = some key → key ≠ []) →
    ∃ list m, Together (liveStep growing UnrollingCapacity) (answers growing UnrollingCapacity)
      (State.empty 0) [] ops list m := by
  intro h
  obtain ⟨list, m, hrun⟩ := h [insertOf [97] 1, insertOf [97, 0] 2] (by
    intro op hop key hk
    rcases List.mem_cons.mp hop with rfl | hop
    · obtain rfl := Option.some.inj hk
      decide
    · obtain rfl := List.mem_singleton.mp hop
      obtain rfl := Option.some.inj hk
      decide)
  exact not_together_of_replaced (by decide) (by decide +kernel) hrun

end HM4.UnrolledLinkListRuns
