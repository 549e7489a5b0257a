import HM4.ListSteps
import HM4.General.TowerMemory

/-!
# The skip list

A node has as many pointers as its random height and does not know how many. A new node
takes the pointers of the places before it from the lowest lane up; an erase goes up the
lanes until a place does not point to the node.
-/

namespace HM4.SkipList

open Bytes Pairs PairFactory MemList HPair ListSteps SkipLanes TowerMemory

/-- `MAX_HEIGHT`. -/
def MAX_HEIGHT : ℕ := 64

/-- `getRandomHeight_`, from the zeros that lead a random number. -/
def getRandomHeight (clz : ℕ) : ℕ := min (max (clz + 1) 1) MAX_HEIGHT

/-- `SkipList::Node` without its pointers. -/
structure Node where
  /-- The number of the key. -/
  hkey : ℕ
  /-- The pair. -/
  data : PairPtr
  /-- The block of the node. -/
  block : Block

/-- `Node::calcSize`. -/
def calcSize (height : ℕ) : ℕ := 24 + (height - 1) * 8

/-- `Node::cmp`. -/
def Node.cmp (node : Node) (hkey : ℕ) (key : Key) : Ordering :=
  hpairCmp node.hkey node.data.data.key hkey key

/-- `SkipList` with the state of its allocator. -/
structure State (σ : Type) where
  /-- `heads_` and the nodes. -/
  mem : Memory Node
  /-- `lc_`. -/
  lc : ListCounter
  /-- The allocator's state. -/
  alloc : σ

/-- `SkipList::NodeLocator`: the places are those of the lanes from the lowest one up. -/
structure NodeLocator where
  /-- `prev`. -/
  prev : List (Option ℕ)
  /-- `node`. -/
  node : Option ℕ

section Code

variable {σ : Type}

/-- An empty list. -/
def State.empty (alloc : σ) : State σ := ⟨Memory.empty MAX_HEIGHT, ListCounter.zero, alloc⟩

variable (allocator : Allocator σ) (list : State σ)

/-- Whether a walk goes on behind a node. -/
def passes (hkey : ℕ) (key : Key) (id : ℕ) : Option Bool := do
  let node ← list.mem.nodes id
  return ¬(hkey ≤ node.hkey ∧ node.cmp hkey key ≠ .lt)

/-- Whether a walk has stopped at the node of the key. -/
def isAt (hkey : ℕ) (key : Key) : Option ℕ → Option Bool
  | none => some false
  | some id => do
    let node ← list.mem.nodes id
    return node.cmp hkey key = .eq

/-- The loop of `locate_` over so many lanes. -/
def locateLanes (shortcut : Bool) (hkey : ℕ) (key : Key) :
    ℕ → Option ℕ → NodeLocator → Option NodeLocator
  | 0, _, nl => some nl
  | h + 1, jtable, nl => do
    let (jtable, node) ← walk list.mem.next (passes list hkey key) h list.mem.fuel jtable
    if ← isAt list hkey key node then
      if shortcut then return { nl with node := node }
      else locateLanes shortcut hkey key h jtable ⟨jtable :: nl.prev, node⟩
    else locateLanes shortcut hkey key h jtable { nl with prev := jtable :: nl.prev }

/-- `locate_`, which throws on the empty key. -/
def locate (shortcut : Bool) (key : Key) : Option NodeLocator :=
  if key = [] then none
  else locateLanes list shortcut (create key) key MAX_HEIGHT none ⟨[], none⟩

/-- The loop of `find_` over so many lanes. -/
def findLanes (hkey : ℕ) (key : Key) :
    ℕ → Option ℕ → Option ℕ → Option (Bool × Option ℕ)
  | 0, _, node => some (false, node)
  | h + 1, jtable, _ => do
    let (jtable, node) ← walk list.mem.next (passes list hkey key) h list.mem.fuel jtable
    if ← isAt list hkey key node then return (true, node)
    else findLanes hkey key h jtable node

/-- `find_`, which throws on the empty key. -/
def findNode (exactMatch : Bool) (key : Key) : Option (Option ℕ) :=
  if key = [] then none
  else do
    let (found, node) ← findLanes list (create key) key MAX_HEIGHT none none
    return if exactMatch ∧ ¬found then none else node

/-- The pairs of nodes. -/
def pairsOf (ids : List ℕ) : Option (List Pair) :=
  ids.mapM fun id => (list.mem.nodes id).map fun node => node.data.data

/-- The pairs from `begin()` to `end()`. -/
def pairs : Option (List Pair) := do
  let ids ← follow list.mem.next 0 list.mem.fuel none
  pairsOf list ids

/-- The pairs from `find` to the end. -/
def find (key : Key) : Option (List Pair) := do
  match ← findNode list false key with
  | none => return []
  | some id =>
    let ids ← follow list.mem.next 0 list.mem.fuel (some id)
    pairsOf list (id :: ids)

/-- `getPair___`. -/
def getPair (key : Key) : Option (Option Pair) := do
  match ← findNode list true key with
  | none => return none
  | some id =>
    let node ← list.mem.nodes id
    return some node.data.data

/-- A node after the change of its pair. -/
def Node.change (node : Node) (key : Key) : Change → Node
  | .keep => node
  | .inPlace ptr => { node with data := ptr }
  | .replaced ptr => { node with hkey := create key, data := ptr }

/-- `insertF` at the node of the key. -/
def insertHere (factory : Factory) (h : factory.valid = true) (now : UInt64) (id : ℕ) :
    Option (InsertResult × State σ) := do
  let node ← list.mem.nodes id
  let (r, change, lc, alloc) := updatePair allocator list.alloc factory h now list.lc node.data
  return (r, ⟨list.mem.set id (node.change factory.getKey change), lc, alloc⟩)

/-- `insertF` of a new node. -/
def insertNew (clz : ℕ) (factory : Factory) (h : factory.valid = true) (now : UInt64)
    (nl : NodeLocator) : Option (InsertResult × State σ) :=
  match createPair allocator list.alloc factory h now with
  | (none, alloc) => some (⟨.ERROR_NO_MEMORY, none⟩, { list with alloc := alloc })
  | (some newdata, alloc) =>
    match allocator.xallocate (calcSize (getRandomHeight clz)) alloc with
    | (none, alloc) => some (⟨.ERROR_NO_MEMORY, none⟩,
        { list with alloc := allocator.xdeallocate newdata.block.addr alloc })
    | (some addr, alloc) => do
      let id := list.mem.count
      let node : Node :=
        ⟨create factory.getKey, newdata, ⟨addr, calcSize (getRandomHeight clz)⟩⟩
      let mem ← (list.mem.new (getRandomHeight clz) node).insert id
        (nl.prev.take (getRandomHeight clz))
      return (⟨.INSERTED, some newdata.data⟩, ⟨mem, list.lc.inc newdata.data.bytes, alloc⟩)

/-- `insertF`. -/
def insertF (clz : ℕ) (factory : Factory) (now : UInt64) : Option (InsertResult × State σ) :=
  if h : factory.valid = true then do
    let nl ← locate list true factory.getKey
    match nl.node with
    | some id => insertHere allocator list factory h now id
    | none => insertNew allocator list clz factory h now nl
  else some (⟨.ERROR_INVALID, none⟩, list)

/-- `deallocate_`. -/
def deallocate (id : ℕ) : Option (State σ) := do
  let node ← list.mem.nodes id
  return { list with
    mem := list.mem.drop id
    alloc := allocator.xdeallocate node.block.addr
      (allocator.xdeallocate node.data.block.addr list.alloc) }

/-- `erase___`. -/
def erase (key : Key) : Option (InsertResult × State σ) := do
  let nl ← locate list false key
  match nl.node with
  | none => return (⟨.SKIP_DELETED, none⟩, list)
  | some id =>
    let mem ← list.mem.remove id nl.prev
    let node ← mem.nodes id
    let list ← deallocate allocator
      { list with mem := mem, lc := list.lc.dec node.data.data.bytes } id
    return (⟨.DELETED, none⟩, list)

/-- The loop of `clear`. -/
def deallocateNodes : ℕ → State σ → Option ℕ → Option (State σ)
  | 0, _, _ => none
  | _ + 1, list, none => some list
  | k + 1, list, some id => do
    let next ← list.mem.next (some id) 0
    let list ← deallocate allocator list id
    deallocateNodes k list next

/-- `zeroing_`. -/
def zeroing : State σ :=
  { list with lc := list.lc.clr, mem := list.mem.clearHeads MAX_HEIGHT }

/-- `clear`. -/
def clear : Option (State σ) :=
  match allocator.reset list.alloc with
  | (true, alloc) => some (zeroing { list with alloc := alloc })
  | (false, alloc) => do
    let first ← list.mem.next none 0
    let list ← deallocateNodes allocator list.mem.fuel { list with alloc := alloc } first
    return zeroing list

/-- One operation on the list. -/
def step (clz : ℕ) (op : Op) : Option (Option InsertResult × State σ) :=
  match op with
  | .insert factory now => do
    let (r, list) ← insertF allocator list clz factory now
    return (some r, list)
  | .erase key => do
    let (r, list) ← erase allocator list key
    return (some r, list)
  | .clear => do
    let list ← clear allocator list
    return (none, list)

end Code

end HM4.SkipList
