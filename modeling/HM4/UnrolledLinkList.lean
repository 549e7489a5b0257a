import HM4.PairVector

/-!
# The unrolled link list

Nodes with a vector of pairs each. The last node takes every key that is behind the
other ones. A full node is split into itself and a new one behind it, and a node that
an erase has emptied is unlinked.
-/

namespace HM4.UnrolledLinkList

open LexPrefix Bytes Pairs PairFactory MemList KeyedList BoundedSearch HPair HPairRank ListSteps
  PairVector

/-- The pairs in a node. -/
def UnrollingCapacity : ℕ := 2048

/-- `UnrolledLinkList::Node`. -/
structure Node where
  /-- The vector. -/
  data : List Data
  /-- The block of the node. -/
  block : Block

/-- `sizeof(Node)`. -/
def sizeofNode (capacity : ℕ) : ℕ := 16 + 16 * capacity

/-- `Node::hkey`, which reads the last entry. -/
def Node.hkey (node : Node) : Option ℕ := node.data.getLast?.map Data.hkey

/-- `Node::cmp`. -/
def Node.cmp (node : Node) (hkey : ℕ) (key : Key) : Option Ordering :=
  node.data.getLast?.map fun d => d.cmp hkey key

/-- `UnrolledLinkList` with the state of its allocator; the nodes stand in the order of
their links. -/
structure State (σ : Type) where
  /-- The nodes from `head_` on. -/
  nodes : List Node
  /-- `lc_`. -/
  lc : ListCounter
  /-- The allocator's state. -/
  alloc : σ

section Code

variable {σ : Type} (allocator : Allocator σ) (capacity : ℕ) (list : State σ)

/-- An empty list. -/
def State.empty (alloc : σ) : State σ := ⟨[], ListCounter.zero, alloc⟩

/-- `locate_`: the nodes that are passed, those from the located one on, and whether its
last pair has the key. The last node is not compared. -/
def locate (hkey : ℕ) (key : Key) : List Node → Option (List Node × List Node × Bool)
  | [] => some ([], [], false)
  | [node] => some ([], [node], false)
  | node :: next :: nodes => do
    if hkey ≤ (← node.hkey) ∧ (← node.cmp hkey key) ≠ .lt then
      return ([], node :: next :: nodes, (← node.cmp hkey key) = .eq)
    else
      let (passed, rest, found) ← locate hkey key (next :: nodes)
      return (node :: passed, rest, found)

/-- `deallocate_`. -/
def deallocate (alloc : σ) (node : Node) : σ :=
  allocator.xdeallocate node.block.addr (destruct allocator node.data alloc)

/-- `insertF` into the vector of a node. -/
def insertInto (factory : Factory) (h : factory.valid = true) (now : UInt64)
    (passed : List Node) (node : Node) (rest : List Node) :
    Option (InsertResult × State σ) := do
  let (r, data, lc, alloc) ← PairVector.insertF allocator capacity (create factory.getKey) factory h
    now node.data list.lc list.alloc
  return (r, ⟨passed ++ { node with data := data } :: rest, lc, alloc⟩)

/-- `insertF` where there is no node. -/
def insertFirst (factory : Factory) (h : factory.valid = true) (now : UInt64)
    (passed : List Node) : Option (InsertResult × State σ) :=
  match allocator.xallocate (sizeofNode capacity) list.alloc with
  | (none, alloc) => some (⟨.ERROR_NO_MEMORY, none⟩, { list with alloc := alloc })
  | (some addr, alloc) => do
    let (r, data, lc, alloc) ← PairVector.insertF allocator capacity (create factory.getKey) factory h
      now [] list.lc alloc
    let newnode : Node := ⟨data, ⟨addr, sizeofNode capacity⟩⟩
    if r.ok then return (r, ⟨passed ++ [newnode], lc, alloc⟩)
    else return (r, ⟨list.nodes, lc, deallocate allocator alloc newnode⟩)

/-- `insertF` at a full node. -/
def insertSplit (factory : Factory) (h : factory.valid = true) (now : UInt64)
    (passed : List Node) (node : Node) (rest : List Node) : Option (InsertResult × State σ) :=
  match allocator.xallocate (sizeofNode capacity) list.alloc with
  | (none, alloc) => some (⟨.ERROR_NO_MEMORY, none⟩, { list with alloc := alloc })
  | (some addr, alloc) => do
    let (data, other) ← split capacity node.data []
    let node : Node := { node with data := data }
    let newnode : Node := ⟨other, ⟨addr, sizeofNode capacity⟩⟩
    let list := { list with alloc := alloc }
    if (← node.cmp (create factory.getKey) factory.getKey) ≠ .lt then
      insertInto allocator capacity list factory h now passed node (newnode :: rest)
    else insertInto allocator capacity list factory h now (passed ++ [node]) newnode rest

/-- `insertF`. -/
def insertF (factory : Factory) (now : UInt64) : Option (InsertResult × State σ) :=
  if h : factory.valid = true then do
    let (passed, rest, found) ← locate (create factory.getKey) factory.getKey list.nodes
    match rest with
    | [] => insertFirst allocator capacity list factory h now passed
    | node :: rest =>
      if ¬found ∧ node.data.length = capacity then
        insertSplit allocator capacity list factory h now passed node rest
      else insertInto allocator capacity list factory h now passed node rest
  else some (⟨.ERROR_INVALID, none⟩, list)

/-- `erase___`, which asserts that there is a key. -/
def erase (key : Key) : Option (InsertResult × State σ) :=
  if key = [] then none
  else do
    let (passed, rest, _) ← locate (create key) key list.nodes
    match rest with
    | [] => return (⟨.SKIP_DELETED, none⟩, list)
    | node :: rest =>
      let (found, data, lc, alloc) ← PairVector.erase allocator (create key) key node.data list.lc
        list.alloc
      if ¬found then return (⟨.SKIP_DELETED, none⟩, { list with alloc := alloc })
      else if data ≠ [] then
        return (⟨.DELETED, none⟩, ⟨passed ++ { node with data := data } :: rest, lc, alloc⟩)
      else
        return (⟨.DELETED, none⟩,
          ⟨passed ++ rest, lc, deallocate allocator alloc { node with data := data }⟩)

/-- `clear`. -/
def clear : State σ :=
  match allocator.reset list.alloc with
  | (true, alloc) => ⟨[], list.lc.clr, alloc⟩
  | (false, alloc) => ⟨[], list.lc.clr, list.nodes.foldl (deallocate allocator) alloc⟩

/-- One operation on the list. -/
def step (op : Op) : Option (Option InsertResult × State σ) :=
  match op with
  | .insert factory now => do
    let (r, list) ← insertF allocator capacity list factory now
    return (some r, list)
  | .erase key => do
    let (r, list) ← erase allocator list key
    return (some r, list)
  | .clear => some (none, clear allocator list)

end Code

/-! ## Order -/

/-- The entries of all nodes. -/
def entries (nodes : List Node) : List Data := nodes.flatMap Node.data

theorem entries_append (l1 l2 : List Node) : entries (l1 ++ l2) = entries l1 ++ entries l2 :=
  List.flatMap_append

theorem entries_cons (node : Node) (l : List Node) :
    entries (node :: l) = node.data ++ entries l := List.flatMap_cons

/-- The entries around a node. -/
theorem entries_around (l1 : List Node) (node : Node) (l2 : List Node) :
    entries (l1 ++ node :: l2) = entries l1 ++ (node.data ++ entries l2) := by
  rw [entries_append, entries_cons]

/-- No node is empty or holds too much, and the entries are in order. -/
structure Good (capacity : ℕ) (nodes : List Node) : Prop where
  ordered : Ordered (entries nodes)
  nonempty : ∀ node ∈ nodes, node.data ≠ []
  fits : ∀ node ∈ nodes, node.data.length ≤ capacity

/-- The place of a rank among nodes. -/
structure Place (k : List ℤ) (nodes passed rest : List Node) (found : Bool) : Prop where
  eq : nodes = passed ++ rest
  below : ∀ x ∈ entries passed, x.rank < k
  above : ∀ node more, rest = node :: more → ∀ x ∈ entries more, k < x.rank
  here : found = true → ∃ node more, rest = node :: more ∧ ∃ d ∈ node.data, d.rank = k
  some_node : rest = [] → nodes = []

/-- The last entry of a node tells where the node stands. -/
theorem last_spec (node : Node) {l : List Data} (h : Increasing Data.rank (node.data ++ l))
    (hne : node.data ≠ []) :
    ∃ d ∈ node.data, node.data.getLast? = some d ∧ (∀ x ∈ node.data, x.rank ≤ d.rank) ∧
      ∀ x ∈ l, d.rank < x.rank := by
  have hmem := List.getLast_mem hne
  obtain ⟨hd, _, hcross⟩ := Increasing.append_iff.mp h
  refine ⟨node.data.getLast hne, hmem, List.getLast?_eq_some_getLast hne, fun x hx => ?_,
    fun x hx => hcross _ hmem x hx⟩
  rw [← List.dropLast_append_getLast hne] at hx hd
  rcases List.mem_append.mp hx with hx | hx
  · exact ((Increasing.append_iff.mp hd).2.2 x hx _ List.mem_cons_self).le
  · rw [List.mem_singleton.mp hx]

/-- The walk stops where the key belongs. -/
theorem locate_spec {nodes : List Node} (h : Increasing Data.rank (entries nodes))
    (hne : ∀ node ∈ nodes, node.data ≠ []) (key : Key) :
    ∃ passed rest found, locate (create key) key nodes = some (passed, rest, found) ∧
      Place (rankOf key) nodes passed rest found := by
  induction nodes with
  | nil =>
    refine ⟨[], [], false, rfl, rfl, fun _ hx => absurd hx List.not_mem_nil, fun _ _ hn => ?_,
      fun hf => absurd hf Bool.false_ne_true, fun _ => rfl⟩
    exact absurd hn.symm (List.cons_ne_nil _ _)
  | cons node nodes ih =>
    cases nodes with
    | nil =>
      refine ⟨[], [node], false, rfl, rfl, fun _ hx => absurd hx List.not_mem_nil,
        fun n more hn x hx => ?_, fun hf => absurd hf Bool.false_ne_true,
        fun hn => absurd hn (List.cons_ne_nil _ _)⟩
      rw [← (List.cons.inj hn).2] at hx
      exact absurd hx List.not_mem_nil
    | cons next nodes =>
      rw [entries_cons] at h
      obtain ⟨d, hd, hlast, hle, hgt⟩ := last_spec node h (hne node List.mem_cons_self)
      have hhkey : node.hkey = some d.hkey := by rw [Node.hkey, hlast, Option.map_some]
      have hcmp : node.cmp (create key) key = some (lex d.rank (rankOf key)) := by
        rw [Node.cmp, hlast, Option.map_some, cmp_eq]
      have hstop : (create key ≤ d.hkey ∧ lex d.rank (rankOf key) ≠ .lt) ↔
          rankOf key ≤ d.rank := by
        rw [Ne, lex_eq_lt, not_lt]
        refine ⟨fun h => h.2, fun h => ⟨?_, h⟩⟩
        by_contra hlt
        exact absurd h (not_le.mpr (rank_lt_of_lt (not_le.mp hlt) _ _))
      by_cases hc : rankOf key ≤ d.rank
      · refine ⟨[], node :: next :: nodes, decide (lex d.rank (rankOf key) = .eq), ?_, rfl,
          fun _ hx => absurd hx List.not_mem_nil, fun n more hn x hx => ?_, fun hf => ?_,
          fun hn => absurd hn (List.cons_ne_nil _ _)⟩
        · simp only [locate, hhkey, hcmp, Option.bind_eq_bind, Option.bind_some, Option.pure_def,
            if_pos (hstop.mpr hc)]
        · rw [← (List.cons.inj hn).2] at hx
          exact hc.trans_lt (hgt x hx)
        · rw [decide_eq_true_eq, lex_eq_eq] at hf
          exact ⟨node, next :: nodes, rfl, d, hd, hf⟩
      · obtain ⟨passed, rest, found, e, hplace⟩ := ih (Increasing.append_iff.mp h).2.1
          fun n hn => hne n (List.mem_cons_of_mem node hn)
        refine ⟨node :: passed, rest, found, ?_, by rw [hplace.eq, List.cons_append],
          fun x hx => ?_, hplace.above, hplace.here, fun hn => ?_⟩
        · simp only [locate, hhkey, hcmp, e, Option.bind_eq_bind, Option.bind_some,
            Option.pure_def, if_neg fun hp => hc (hstop.mp hp)]
        · rw [entries_cons] at hx
          rcases List.mem_append.mp hx with hx | hx
          · exact (hle x hx).trans_lt (not_le.mp hc)
          · exact hplace.below x hx
        · exact absurd (hplace.some_node hn) (List.cons_ne_nil _ _)

/-! ## Operations -/

section Steps

variable {σ : Type} (allocator : Allocator σ) {capacity : ℕ} {list : State σ}

/-- The allocations of an insert, one of which is refused: for the pair, or for a node and
the pair. -/
def refuses (capacity : ℕ) (alloc : σ) : Op → Prop
  | .insert factory _ => Refuses allocator [factory.bytes] alloc ∨
      Refuses allocator [sizeofNode capacity, factory.bytes] alloc
  | _ => False

/-- What the allocator says of an address, before or after it was asked for a node. -/
def owns (capacity : ℕ) (alloc : σ) (b : Bool) : Prop :=
  Owns allocator alloc b ∨ Owns allocator (allocator.xallocate (sizeofNode capacity) alloc).2 b

/-- What an insert has to give: the entries changed as those of a map, in nodes that are not
empty and hold no more than they may. -/
def Inserts (capacity : ℕ) (list : State σ) (factory : Factory) (now : UInt64)
    (res : Option (InsertResult × State σ)) : Prop :=
  ∃ r list', res = some (r, list') ∧
    Inserted Data.rank Data.data factory now (owns allocator capacity list.alloc)
      (NoMemory (refuses allocator capacity list.alloc (.insert factory now)))
      (rankOf factory.getKey) list.lc (entries list.nodes) r list'.lc (entries list'.nodes) ∧
    Good capacity list'.nodes

/-- Other nodes in the place of one. -/
theorem Good.change {passed rest : List Node} {node : Node}
    (hg : Good capacity (passed ++ node :: rest)) (new : List Node)
    (hnew : ∀ n ∈ new, n.data ≠ [] ∧ n.data.length ≤ capacity)
    (ho : Ordered (entries (passed ++ (new ++ rest)))) : Good capacity (passed ++ (new ++ rest)) := by
  have hall : ∀ n ∈ passed ++ (new ++ rest), n.data ≠ [] ∧ n.data.length ≤ capacity := by
    intro n hn
    rcases List.mem_append.mp hn with hn | hn
    · exact ⟨hg.nonempty n (List.mem_append_left _ hn), hg.fits n (List.mem_append_left _ hn)⟩
    · rcases List.mem_append.mp hn with hn | hn
      · exact hnew n hn
      · have hn' := List.mem_append_right passed (List.mem_cons_of_mem node hn)
        exact ⟨hg.nonempty n hn', hg.fits n hn'⟩
  exact ⟨ho, fun n hn => (hall n hn).1, fun n hn => (hall n hn).2⟩

theorem good_nil : Good capacity [] :=
  ⟨Ordered.nil, fun _ hn => absurd hn List.not_mem_nil, fun _ hn => absurd hn List.not_mem_nil⟩

variable {factory : Factory} (h : factory.valid = true) (now : UInt64)

variable (list) in
/-- An insert into one of the nodes. -/
theorem insertInto_spec {passed rest : List Node} {node : Node}
    (hg : Good capacity (passed ++ node :: rest))
    (h1 : ∀ x ∈ entries passed, x.rank < rankOf factory.getKey)
    (h2 : ∀ x ∈ entries rest, rankOf factory.getKey < x.rank)
    (hroom : node.data.length = capacity → ∃ d ∈ node.data, d.rank = rankOf factory.getKey) :
    ∃ r list', insertInto allocator capacity list factory h now passed node rest =
        some (r, list') ∧
      Inserted Data.rank Data.data factory now (Owns allocator list.alloc)
        (NoMemory (Refuses allocator [factory.bytes] list.alloc)) (rankOf factory.getKey) list.lc
        (entries (passed ++ node :: rest)) r list'.lc (entries list'.nodes) ∧
      Good capacity list'.nodes := by
  have hmem : node ∈ passed ++ node :: rest := List.mem_append_right passed List.mem_cons_self
  have hl := hg.ordered
  rw [entries_around] at hl
  obtain ⟨r, data', lc', s', e, hins, hlen, hne⟩ := insertF_within allocator hl h now list.lc
    list.alloc h1 h2 (hg.fits node hmem) hroom
  rw [← entries_around] at hins
  have hins' : Inserted Data.rank Data.data factory now (Owns allocator list.alloc)
      (NoMemory (Refuses allocator [factory.bytes] list.alloc)) (rankOf factory.getKey) list.lc
      (entries (passed ++ node :: rest)) r lc'
      (entries (passed ++ { node with data := data' } :: rest)) := by
    rw [entries_around passed { node with data := data' } rest]
    exact hins
  refine ⟨r, ⟨passed ++ { node with data := data' } :: rest, lc', s'⟩, ?_, hins',
    hg.change [{ node with data := data' }] (fun n hn => ?_)
      (hg.ordered.stepped (.insert hins'))⟩
  · simp only [insertInto, e, Option.bind_eq_bind, Option.bind_some, Option.pure_def]
  · rw [List.mem_singleton.mp hn]
    exact ⟨hne (hg.nonempty node hmem), hlen⟩

/-- The first node. -/
theorem insertFirst_spec (hcap : 2 ≤ capacity) (hnil : list.nodes = []) :
    Inserts allocator capacity list factory now
      (insertFirst allocator capacity list factory h now []) := by
  unfold insertFirst
  cases hx : allocator.xallocate (sizeofNode capacity) list.alloc with
  | mk a s1 =>
    cases a with
    | none =>
      refine ⟨⟨.ERROR_NO_MEMORY, none⟩, ⟨list.nodes, list.lc, s1⟩, rfl,
        .failed _ h ⟨rfl, .inr (.inl (congrArg Prod.fst hx))⟩, hnil ▸ good_nil⟩
    | some addr =>
      have hs1 : (allocator.xallocate (sizeofNode capacity) list.alloc).2 = s1 :=
        congrArg Prod.snd hx
      have hnil3 : Ordered ([] ++ ([] ++ [])) := Ordered.nil
      obtain ⟨r, data', lc', s', e, hins, hlen, _⟩ := insertF_within allocator hnil3 h now list.lc s1
        (fun _ hx => absurd hx List.not_mem_nil) (fun _ hx => absurd hx List.not_mem_nil)
        (Nat.zero_le capacity) (fun hc => by have hzero : 0 = capacity := hc; omega)
      simp only [List.nil_append, List.append_nil] at hins
      have hnil' := hins.of_nil rfl fun status hs => hs.1
      have hmono : Inserted Data.rank Data.data factory now (owns allocator capacity list.alloc)
          (NoMemory (refuses allocator capacity list.alloc (.insert factory now)))
          (rankOf factory.getKey) list.lc [] r lc' data' := hins.mono
        (fun b hb => .inr (hs1 ▸ hb)) (fun status hs => ⟨hs.1, .inr (.inr (hs1 ▸ hs.2))⟩)
      dsimp only
      simp only [e, Option.bind_eq_bind, Option.bind_some, Option.pure_def]
      cases hok : r.ok with
      | true =>
        have hentries : entries [⟨data', ⟨addr, sizeofNode capacity⟩⟩] = data' := by
          rw [entries_cons]
          exact List.append_nil data'
        refine ⟨r, ⟨[⟨data', ⟨addr, sizeofNode capacity⟩⟩], lc', s'⟩, if_pos rfl, ?_, ?_⟩
        · rw [hnil, hentries]
          exact hmono
        · refine ⟨?_, fun n hn => ?_, fun n hn => ?_⟩
          · rw [hentries]
            exact Ordered.nil.stepped (.insert hmono)
          · rw [List.mem_singleton.mp hn]
            exact hnil'.1 hok
          · rw [List.mem_singleton.mp hn]
            exact hlen
      | false =>
        obtain ⟨hlc, hdata⟩ := hnil'.2 hok
        refine ⟨r, ⟨list.nodes, lc', _⟩, if_neg Bool.false_ne_true, ?_, hnil ▸ good_nil⟩
        rw [hnil]
        rw [hdata] at hmono
        exact hmono

/-- A full node is split, and the pair goes to one of the parts. -/
theorem insertSplit_spec (hcap : 2 ≤ capacity) {passed rest : List Node} {node : Node}
    (hnodes : list.nodes = passed ++ node :: rest) (hg : Good capacity list.nodes)
    (h1 : ∀ x ∈ entries passed, x.rank < rankOf factory.getKey)
    (h2 : ∀ x ∈ entries rest, rankOf factory.getKey < x.rank)
    (hfull : node.data.length = capacity) :
    Inserts allocator capacity list factory now
      (insertSplit allocator capacity list factory h now passed node rest) := by
  unfold insertSplit
  cases hx : allocator.xallocate (sizeofNode capacity) list.alloc with
  | mk a s1 =>
    cases a with
    | none =>
      exact ⟨⟨.ERROR_NO_MEMORY, none⟩, ⟨list.nodes, list.lc, s1⟩, rfl,
        .failed _ h ⟨rfl, .inr (.inl (congrArg Prod.fst hx))⟩, hg⟩
    | some addr =>
      have hs1 : (allocator.xallocate (sizeofNode capacity) list.alloc).2 = s1 :=
        congrArg Prod.snd hx
      obtain ⟨d1, d2, esplit, hdata, hne1, hne2, hlt1, hlt2⟩ := split_spec hfull hcap
      -- both parts in the place of the node hold the same entries
      have hentries : entries list.nodes = entries (passed ++ { node with data := d1 } ::
          ⟨d2, ⟨addr, sizeofNode capacity⟩⟩ :: rest) := by
        rw [hnodes, entries_around, entries_around, entries_cons, hdata, List.append_assoc]
      have hg' : Good capacity (passed ++ { node with data := d1 } ::
          ⟨d2, ⟨addr, sizeofNode capacity⟩⟩ :: rest) := by
        have hold := hnodes ▸ hg
        refine hold.change [{ node with data := d1 }, ⟨d2, ⟨addr, sizeofNode capacity⟩⟩]
          (fun n hn => ?_) (hentries ▸ hg.ordered)
        rcases List.mem_cons.mp hn with rfl | hn
        · exact ⟨hne1, hlt1.le⟩
        · rw [List.mem_singleton.mp hn]
          exact ⟨hne2, hlt2.le⟩
      have hinc : Increasing Data.rank (d1 ++ (d2 ++ entries rest)) := by
        have hi := hg'.ordered.increasing
        rw [entries_around, entries_cons] at hi
        exact (Increasing.append_iff.mp hi).2.1
      obtain ⟨d, hd, hlast, hle, hgt⟩ := last_spec { node with data := d1 } hinc hne1
      have hcmp : Node.cmp { node with data := d1 } (create factory.getKey) factory.getKey =
          some (lex d.rank (rankOf factory.getKey)) := by
        rw [Node.cmp, hlast, Option.map_some, cmp_eq]
      have hdone : ∀ {r : InsertResult} {list' : State σ},
          Inserted Data.rank Data.data factory now (Owns allocator s1)
            (NoMemory (Refuses allocator [factory.bytes] s1)) (rankOf factory.getKey) list.lc
            (entries (passed ++ { node with data := d1 } ::
              ⟨d2, ⟨addr, sizeofNode capacity⟩⟩ :: rest)) r list'.lc (entries list'.nodes) →
          Inserted Data.rank Data.data factory now (owns allocator capacity list.alloc)
            (NoMemory (refuses allocator capacity list.alloc (.insert factory now)))
            (rankOf factory.getKey) list.lc (entries list.nodes) r list'.lc
            (entries list'.nodes) := fun hins => by
        rw [hentries]
        exact hins.mono (fun b hb => .inr (hs1 ▸ hb))
          (fun status hs => ⟨hs.1, .inr (.inr (hs1 ▸ hs.2))⟩)
      dsimp only
      simp only [esplit, hcmp, Option.bind_eq_bind, Option.bind_some]
      by_cases hc : lex d.rank (rankOf factory.getKey) = .lt
      · rw [if_neg (not_not.mpr hc)]
        rw [lex_eq_lt] at hc
        have hsame : passed ++ { node with data := d1 } :: ⟨d2, ⟨addr, sizeofNode capacity⟩⟩ :: rest =
            (passed ++ [{ node with data := d1 }]) ++
              ⟨d2, ⟨addr, sizeofNode capacity⟩⟩ :: rest := List.append_cons _ _ _
        obtain ⟨r, list', e, hins, hgood⟩ := insertInto_spec allocator
          ⟨list.nodes, list.lc, s1⟩ h now (hsame ▸ hg') (fun x hx => by
            rw [entries_append, entries_cons] at hx
            rcases List.mem_append.mp hx with hx | hx
            · exact h1 x hx
            · refine (hle x ?_).trans_lt hc
              exact (List.mem_append.mp hx).elim id fun hx => absurd hx List.not_mem_nil)
          h2 (fun hf => absurd hf hlt2.ne)
        rw [← hsame] at hins
        exact ⟨r, list', e, hdone hins, hgood⟩
      · rw [if_pos hc]
        rw [lex_eq_lt, not_lt] at hc
        obtain ⟨r, list', e, hins, hgood⟩ := insertInto_spec allocator
          ⟨list.nodes, list.lc, s1⟩ h now hg' h1
          (fun x hx => hc.trans_lt (hgt x (by rw [entries_cons] at hx; exact hx)))
          (fun hf => absurd hf hlt1.ne)
        exact ⟨r, list', e, hdone hins, hgood⟩

/-- An insert changes the entry of the key only. -/
theorem insertF_spec (hcap : 2 ≤ capacity) (hg : Good capacity list.nodes) (factory : Factory)
    (now : UInt64) :
    Inserts allocator capacity list factory now (insertF allocator capacity list factory now) := by
  unfold insertF
  by_cases h : factory.valid = true
  · rw [dif_pos h]
    obtain ⟨passed, rest, found, e, hplace⟩ :=
      locate_spec hg.ordered.increasing hg.nonempty factory.getKey
    simp only [e, Option.bind_eq_bind, Option.bind_some]
    cases rest with
    | nil =>
      have hnil := hplace.some_node rfl
      have hpassed : passed = [] := by
        have heq := hplace.eq
        rw [hnil, List.append_nil] at heq
        exact heq.symm
      rw [hpassed]
      exact insertFirst_spec allocator h now hcap hnil
    | cons node rest =>
      have h2 := hplace.above node rest rfl
      dsimp only
      by_cases hs : ¬found = true ∧ node.data.length = capacity
      · rw [if_pos hs]
        exact insertSplit_spec allocator h now hcap hplace.eq hg hplace.below h2 hs.2
      · rw [if_neg hs]
        have hroom : node.data.length = capacity →
            ∃ d ∈ node.data, d.rank = rankOf factory.getKey := fun hfull => by
          have hfound : found = true := by
            by_contra hf
            exact hs ⟨hf, hfull⟩
          obtain ⟨n, more, hn, d, hd, hr⟩ := hplace.here hfound
          rw [← (List.cons.inj hn).1] at hd
          exact ⟨d, hd, hr⟩
        obtain ⟨r, list', e', hins, hgood⟩ := insertInto_spec allocator list h now
          (hplace.eq ▸ hg) hplace.below h2 hroom
        rw [← hplace.eq] at hins
        exact ⟨r, list', e', hins.mono (fun b hb => .inl hb) (fun status hs => ⟨hs.1, .inl hs.2⟩),
          hgood⟩
  · rw [dif_neg h]
    exact ⟨_, _, rfl, .invalid h, hg⟩

/-- An erase takes the entry of the key out. -/
theorem erase_spec (hg : Good capacity list.nodes) {key : Key} (hk : key ≠ []) :
    ∃ r list', erase allocator list key = some (r, list') ∧
      Erased Data.rank Data.data (rankOf key) list.lc (entries list.nodes) r list'.lc
        (entries list'.nodes) ∧ Good capacity list'.nodes := by
  unfold erase
  rw [if_neg hk]
  obtain ⟨passed, rest, found, e, hplace⟩ := locate_spec hg.ordered.increasing hg.nonempty key
  simp only [e, Option.bind_eq_bind, Option.bind_some, Option.pure_def]
  cases rest with
  | nil =>
    refine ⟨_, _, rfl, .absent fun x hx => ?_, hg⟩
    rw [hplace.some_node rfl] at hx
    exact absurd hx List.not_mem_nil
  | cons node rest =>
    have hmem : node ∈ list.nodes := hplace.eq ▸ List.mem_append_right passed List.mem_cons_self
    have hgood := hplace.eq ▸ hg
    have hl := hgood.ordered
    rw [entries_around] at hl
    obtain ⟨found', data', lc', s', e', hera, hlen, hskip⟩ := erase_within allocator hl key list.lc
      list.alloc hplace.below (hplace.above node rest rfl)
    rw [← entries_around, ← hplace.eq] at hera
    dsimp only
    simp only [e', Option.bind_some]
    cases found' with
    | false =>
      obtain ⟨rfl, rfl⟩ := hskip rfl
      rw [← entries_around, ← hplace.eq] at hera
      exact ⟨_, _, if_pos Bool.false_ne_true, hera, hg⟩
    | true =>
      rw [if_neg (not_not.mpr rfl)]
      by_cases hne : data' = []
      · subst hne
        rw [List.nil_append, ← entries_append] at hera
        exact ⟨_, _, if_neg (not_not.mpr rfl), hera,
          hgood.change [] (fun _ hn => absurd hn List.not_mem_nil)
            (hg.ordered.erased hera)⟩
      · have hentries : entries passed ++ (data' ++ entries rest) =
            entries (passed ++ { node with data := data' } :: rest) :=
          (entries_around passed { node with data := data' } rest).symm
        rw [hentries] at hera
        refine ⟨_, _, if_pos hne, hera,
          hgood.change [{ node with data := data' }] (fun n hn => ?_)
            (hg.ordered.erased hera)⟩
        rw [List.mem_singleton.mp hn]
        exact ⟨hne, hlen.trans (hg.fits node hmem)⟩

/-- Every operation changes the entries as one on a map does. -/
theorem step_spec (hcap : 2 ≤ capacity) (hg : Good capacity list.nodes) {op : Op}
    (hop : Keyed op) :
    ∃ r list', step allocator capacity list op = some (r, list') ∧
      Stepped Data.rank Data.data rankOf (owns allocator capacity list.alloc)
        (NoMemory (refuses allocator capacity list.alloc op)) op list.lc (entries list.nodes) r
        list'.lc (entries list'.nodes) ∧
      Good capacity list'.nodes := by
  cases op with
  | insert factory now =>
    obtain ⟨r, list', e, hins, hgood⟩ := insertF_spec allocator hcap hg factory now
    refine ⟨some r, list', ?_, .insert hins, hgood⟩
    simp only [step, e, Option.bind_eq_bind, Option.bind_some, Option.pure_def]
  | erase key =>
    obtain ⟨r, list', e, hera, hgood⟩ := erase_spec allocator hg hop
    refine ⟨some r, list', ?_, .erase hop hera, hgood⟩
    simp only [step, e, Option.bind_eq_bind, Option.bind_some, Option.pure_def]
  | clear =>
    have hclear : (clear allocator list).lc = list.lc.clr ∧ (clear allocator list).nodes = [] := by
      unfold clear
      split <;> exact ⟨rfl, rfl⟩
    refine ⟨none, clear allocator list, rfl, ?_, ?_⟩
    · rw [hclear.1, hclear.2]
      exact .clear
    · rw [hclear.2]
      exact good_nil

end Steps

end HM4.UnrolledLinkList
