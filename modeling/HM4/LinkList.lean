import HM4.ListSteps
import HM4.HPairRank

/-!
# The link list

Nodes in the order of `HPair::cmp`, found by a walk from the head. A new node needs
memory twice: for the pair and for the node.
-/

namespace HM4.LinkList

open LexPrefix Bytes Pairs PairFactory MemList KeyedList HPair HPairRank ListSteps

/-- `LinkList::Node`. -/
structure Node where
  /-- The number of the key. -/
  hkey : ℕ
  /-- The pair. -/
  data : PairPtr
  /-- The block of the node itself. -/
  block : Block

/-- `sizeof(Node)`. -/
def sizeofNode : ℕ := 24

/-- `Node::cmp`. -/
def Node.cmp (node : Node) (hkey : ℕ) (key : Key) : Ordering :=
  hpairCmp node.hkey node.data.data.key hkey key

/-- `LinkList` with the state of its allocator; the nodes stand in the order of their
links. -/
structure State (σ : Type) where
  /-- The nodes from `head_` on. -/
  nodes : List Node
  /-- `lc_`. -/
  lc : ListCounter
  /-- The allocator's state. -/
  alloc : σ

section Code

variable {σ : Type} (allocator : Allocator σ) (list : State σ)

/-- An empty list. -/
def State.empty (alloc : σ) : State σ := ⟨[], ListCounter.zero, alloc⟩

/-- `locate_`: the nodes that are passed, those from `*prev` on, and whether the first of
these has the key. -/
def locate (hkey : ℕ) (key : Key) : List Node → List Node × List Node × Bool
  | [] => ([], [], false)
  | node :: nodes =>
    if hkey ≤ node.hkey ∧ node.cmp hkey key ≠ .lt then
      ([], node :: nodes, node.cmp hkey key = .eq)
    else
      let (passed, rest, found) := locate hkey key nodes
      (node :: passed, rest, found)

/-- A node after the change of its pair. -/
def Node.change (node : Node) (key : Key) : Change → Node
  | .keep => node
  | .inPlace ptr => { node with data := ptr }
  | .replaced ptr => { node with hkey := create key, data := ptr }

/-- `insertF`. -/
def insertF (factory : Factory) (now : UInt64) : InsertResult × State σ :=
  if h : factory.valid = true then
    let (passed, rest, found) := locate (create factory.getKey) factory.getKey list.nodes
    match found, rest with
    | true, node :: rest =>
      let (r, change, lc, alloc) :=
        updatePair allocator list.alloc factory h now list.lc node.data
      (r, ⟨passed ++ node.change factory.getKey change :: rest, lc, alloc⟩)
    | _, rest =>
      match createPair allocator list.alloc factory h now with
      | (none, alloc) => (⟨.ERROR_NO_MEMORY, none⟩, { list with alloc := alloc })
      | (some newdata, alloc) =>
        match allocator.xallocate sizeofNode alloc with
        | (none, alloc) => (⟨.ERROR_NO_MEMORY, none⟩,
            { list with alloc := allocator.xdeallocate newdata.block.addr alloc })
        | (some addr, alloc) => (⟨.INSERTED, some newdata.data⟩,
            ⟨passed ++ ⟨create factory.getKey, newdata, ⟨addr, sizeofNode⟩⟩ :: rest,
              list.lc.inc newdata.data.bytes, alloc⟩)
  else (⟨.ERROR_INVALID, none⟩, list)

/-- `deallocate_`. -/
def deallocate (alloc : σ) (node : Node) : σ :=
  allocator.xdeallocate node.block.addr (allocator.xdeallocate node.data.block.addr alloc)

/-- `erase___`, which asserts that there is a key. -/
def erase (key : Key) : Option (InsertResult × State σ) :=
  if key = [] then none
  else
    let (passed, rest, found) := locate (create key) key list.nodes
    match found, rest with
    | true, node :: rest => some (⟨.DELETED, none⟩,
        ⟨passed ++ rest, list.lc.dec node.data.data.bytes, deallocate allocator list.alloc node⟩)
    | _, _ => some (⟨.SKIP_DELETED, none⟩, list)

/-- `clear`. -/
def clear : State σ :=
  match allocator.reset list.alloc with
  | (true, alloc) => ⟨[], list.lc.clr, alloc⟩
  | (false, alloc) => ⟨[], list.lc.clr, list.nodes.foldl (deallocate allocator) alloc⟩

/-- The pairs from `begin()` to `end()`. -/
def pairs : List Pair := list.nodes.map fun node => node.data.data

/-- One operation on the list. -/
def step (op : Op) : Option (Option InsertResult × State σ) :=
  match op with
  | .insert factory now =>
    let (r, list) := insertF allocator list factory now
    some (some r, list)
  | .erase key => do
    let (r, list) ← erase allocator list key
    return (some r, list)
  | .clear => some (none, clear allocator list)

end Code

/-! ## Order -/

/-- The rank of a node. -/
def Node.rank (node : Node) : List ℤ := HPairRank.rank node.hkey node.data.data.key

/-- The pair of a node. -/
def Node.pair (node : Node) : Pair := node.data.data

/-- The ranks increase, and the numbers fit. -/
structure Ordered (nodes : List Node) : Prop where
  increasing : Increasing Node.rank nodes
  fits : ∀ node ∈ nodes, HkeyFits node.hkey node.data.data.key

theorem cmp_eq (node : Node) (key : Key) :
    node.cmp (create key) key = lex node.rank (rankOf key) := hpairCmp_eq_lex _ _ _ _

/-- A node whose number is below the one of the key is passed as if it was compared. -/
theorem passed_iff (node : Node) (key : Key) :
    (create key ≤ node.hkey ∧ node.cmp (create key) key ≠ .lt) ↔ rankOf key ≤ node.rank := by
  rw [cmp_eq, Ne, lex_eq_lt, not_lt]
  refine ⟨fun h => h.2, fun h => ⟨?_, h⟩⟩
  by_contra hlt
  exact absurd h (not_le.mpr (rank_lt_of_lt (not_le.mp hlt) _ _))

/-- The walk stops at the node of the key, or where it belongs. -/
theorem locate_spec {nodes : List Node} (h : Increasing Node.rank nodes) (key : Key) :
    ∃ passed rest found, locate (create key) key nodes = (passed, rest, found) ∧
      Cut Node.rank (rankOf key) nodes passed rest found := by
  induction nodes with
  | nil =>
    exact ⟨[], [], false, rfl, rfl, fun _ hx => absurd hx List.not_mem_nil,
      fun hf => absurd hf Bool.false_ne_true, fun _ _ hx => absurd hx List.not_mem_nil⟩
  | cons node nodes ih =>
    obtain ⟨hfirst, hrest⟩ := Increasing.cons_iff.mp h
    by_cases hc : rankOf key ≤ node.rank
    · refine ⟨[], node :: nodes, node.cmp (create key) key = .eq, ?_, rfl,
        fun _ hx => absurd hx List.not_mem_nil, fun hf => ?_, fun hf => ?_⟩
      · rw [locate, if_pos ((passed_iff node key).mpr hc)]
      · have he : node.rank = rankOf key := by
          rw [decide_eq_true_eq, cmp_eq, lex_eq_eq] at hf
          exact hf
        exact ⟨node, nodes, rfl, he, fun x hx => he ▸ hfirst x hx⟩
      · have hne : node.rank ≠ rankOf key := by
          rw [decide_eq_false_iff_not, cmp_eq, lex_eq_eq] at hf
          exact hf
        have hlt := lt_of_le_of_ne hc hne.symm
        exact List.forall_mem_cons.mpr ⟨hlt, fun x hx => hlt.trans (hfirst x hx)⟩
    · obtain ⟨passed, rest, found, e, hcut⟩ := ih hrest
      refine ⟨node :: passed, rest, found, ?_, by rw [hcut.eq, List.cons_append],
        List.forall_mem_cons.mpr ⟨not_le.mp hc, hcut.below⟩, hcut.here, hcut.above⟩
      rw [locate, if_neg fun hp => hc ((passed_iff node key).mp hp), e]

/-! ## Operations -/

section Steps

variable {σ : Type} (allocator : Allocator σ) {list : State σ}

/-- The allocations of an insert, one of which is refused. -/
def refuses (alloc : σ) : Op → Prop
  | .insert factory _ => Refuses allocator [factory.bytes, sizeofNode] alloc
  | _ => False

/-- A node that gets a pair of the key keeps its number. -/
theorem rank_change {factory : Factory} {node : Node} (h : factory.valid = true)
    (hfits : HkeyFits node.hkey node.data.data.key) (ho : node.rank = rankOf factory.getKey)
    (now : UInt64) (ptr : PairPtr) :
    (ptr.data = factory.createHint h now node.data.data →
      (node.change factory.getKey (.inPlace ptr)).rank = rankOf factory.getKey) ∧
    (ptr.data = factory.create h now →
      (node.change factory.getKey (.replaced ptr)).rank = rankOf factory.getKey) := by
  refine ⟨fun hd => ?_, fun hd => ?_⟩
  · unfold Node.rank Node.change
    dsimp only
    rw [hd]
    exact (rank_createHint h hfits ho).1
  · unfold Node.rank Node.change
    dsimp only
    rw [hd, factory.create_key]
    rfl

/-- An insert changes the node of the key only. -/
theorem insertF_spec (hl : Ordered list.nodes) (factory : Factory) (now : UInt64) :
    ∃ r list', insertF allocator list factory now = (r, list') ∧
      Inserted Node.rank Node.pair factory now (Owns allocator list.alloc)
        (NoMemory (refuses allocator list.alloc (.insert factory now))) (rankOf factory.getKey)
        list.lc list.nodes r list'.lc list'.nodes := by
  unfold insertF
  by_cases h : factory.valid = true
  · rw [dif_pos h]
    obtain ⟨passed, rest, found, e, hcut⟩ := locate_spec hl.increasing factory.getKey
    have heq := hcut.eq
    have h1 := hcut.below
    rw [e]
    cases found with
    | true =>
      obtain ⟨node, more, rfl, ho, h2⟩ := hcut.here rfl
      dsimp only
      have hfits := hl.fits node (heq ▸ List.mem_append_right passed List.mem_cons_self)
      have hchange := rank_change h hfits ho now
      obtain ⟨r, c, lc, alloc, hupd, hins⟩ := updatePair_spec Node.rank Node.pair allocator
        list.alloc h now list.lc node.data
        (NoMemory (refuses allocator list.alloc (.insert factory now)))
        (node.change factory.getKey) h1 h2 ho rfl rfl
        (fun ptr hd => ⟨(hchange ptr).1 hd, rfl⟩) (fun ptr hd => ⟨(hchange ptr).2 hd, rfl⟩)
        fun hx => ⟨rfl, .inl hx⟩
      rw [hupd, heq]
      exact ⟨_, _, rfl, hins⟩
    | false =>
      have h2 := hcut.above rfl
      unfold createPair
      cases hx : allocator.xallocate factory.bytes list.alloc with
      | mk a s1 =>
        cases a with
        | none => exact ⟨_, _, rfl, .failed _ h ⟨rfl, .inl (congrArg Prod.fst hx)⟩⟩
        | some addr =>
          dsimp only
          cases hy : allocator.xallocate sizeofNode s1 with
          | mk b s2 =>
            cases b with
            | none =>
              have hrefuse : (allocator.xallocate sizeofNode
                  (allocator.xallocate factory.bytes list.alloc).2).1 = none := by
                rw [hx]
                exact congrArg Prod.fst hy
              exact ⟨_, _, rfl, .failed _ h ⟨rfl, .inr (.inl hrefuse)⟩⟩
            | some addr2 =>
              obtain ⟨node, hnode⟩ : ∃ node : Node, node = ⟨create factory.getKey,
                ⟨factory.create h now, ⟨addr, factory.bytes⟩⟩, ⟨addr2, sizeofNode⟩⟩ := ⟨_, rfl⟩
              have hrank : node.rank = rankOf factory.getKey := by
                rw [hnode, Node.rank]
                dsimp only
                rw [factory.create_key]
                rfl
              have hdata : node.pair = factory.create h now := by
                rw [hnode]
                rfl
              refine ⟨_, _, rfl, ?_⟩
              rw [heq]
              dsimp only
              rw [← hnode, ← hdata]
              exact .new passed rest node h h1 h2 hrank hdata
  · rw [dif_neg h]
    exact ⟨_, _, rfl, .invalid h⟩

/-- An erase takes the node of the key out. -/
theorem erase_spec (hl : Ordered list.nodes) {key : Key} (hk : key ≠ []) :
    ∃ r list', erase allocator list key = some (r, list') ∧
      Erased Node.rank Node.pair (rankOf key) list.lc list.nodes r list'.lc list'.nodes := by
  unfold erase
  rw [if_neg hk]
  obtain ⟨passed, rest, found, e, hcut⟩ := locate_spec hl.increasing key
  rw [e]
  cases found with
  | true =>
    obtain ⟨node, more, rfl, ho, h2⟩ := hcut.here rfl
    refine ⟨_, _, rfl, ?_⟩
    rw [hcut.eq]
    exact .found passed more node hcut.below h2 ho
  | false => exact ⟨_, _, rfl, .absent hcut.absent⟩

/-- Every operation changes the nodes as one on a map does. -/
theorem step_spec (hl : Ordered list.nodes) {op : Op} (hop : Keyed op) :
    ∃ r list', step allocator list op = some (r, list') ∧
      Stepped Node.rank Node.pair rankOf (Owns allocator list.alloc)
        (NoMemory (refuses allocator list.alloc op)) op list.lc list.nodes r list'.lc list'.nodes ∧
      Ordered list'.nodes := by
  have hkeep : ∀ {r : Option InsertResult} {list' : State σ},
      Stepped Node.rank Node.pair rankOf (Owns allocator list.alloc)
        (NoMemory (refuses allocator list.alloc op)) op list.lc list.nodes r list'.lc list'.nodes →
      Ordered list'.nodes := fun h => ⟨h.increasing hl.increasing, h.fits hl.fits⟩
  cases op with
  | insert factory now =>
    obtain ⟨r, list', e, h⟩ := insertF_spec allocator hl factory now
    refine ⟨some r, list', ?_, .insert h, hkeep (.insert h)⟩
    simp only [step, e]
  | erase key =>
    obtain ⟨r, list', e, h⟩ := erase_spec allocator hl hop
    refine ⟨some r, list', ?_, .erase hop h, hkeep (.erase hop h)⟩
    simp only [step, e, Option.bind_eq_bind, Option.bind_some, Option.pure_def]
  | clear =>
    have hclear : (clear allocator list).lc = list.lc.clr ∧ (clear allocator list).nodes = [] := by
      unfold clear
      split <;> exact ⟨rfl, rfl⟩
    refine ⟨none, clear allocator list, rfl, ?_, ?_⟩
    · rw [hclear.1, hclear.2]
      exact .clear
    · rw [hclear.2]
      exact ⟨List.Pairwise.nil, fun _ hx => absurd hx List.not_mem_nil⟩

end Steps

end HM4.LinkList
