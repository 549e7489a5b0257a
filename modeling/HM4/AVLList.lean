import HM4.MemList
import HM4.DiskTable
import HM4.General.LinkedTree

/-!
# The AVL list

Nodes with two children, a parent and a balance that shares the parent's word. A
pair is inserted below the node at which the search falls off the tree, and the
balances on the way up are corrected until a rotation or a zero ends it. A node
with two children swaps its links with its successor before it is unlinked.
-/

namespace HM4.AVLList

open Bytes Pairs PairFactory MemList DiskTable LinkedTree

/-- What a node holds besides its links. -/
structure Item where
  /-- The stored balance. -/
  balance : ℤ
  /-- The pair, which lies in the node. -/
  data : Pair
  /-- The address of the node in the allocator's memory. -/
  addr : ℕ

/-- `sizeof(Node) - sizeof(Pair)`. -/
def INTERNAL_NODE_SIZE : ℕ := 28

/-- The place of the pair in its node. -/
def offsetofData : ℕ := 24

/-! ## Links -/

/-- `getBalance`. -/
def getBalance (s : Links Item) (x : Option ℕ) : Option ℤ := do
  let n ← s.get x
  return n.val.balance

/-- `setBalance`. -/
def setBalance (s : Links Item) (x : Option ℕ) (balance : ℤ) : Option (Links Item) :=
  s.write x fun n => { n with val := { n.val with balance := balance } }

/-- `incBalance`. -/
def incBalance (s : Links Item) (x : Option ℕ) : Option (Links Item) := do
  let balance ← getBalance s x
  setBalance s x (balance + 1)

/-- `decBalance`. -/
def decBalance (s : Links Item) (x : Option ℕ) : Option (Links Item) := do
  let balance ← getBalance s x
  setBalance s x (balance - 1)

/-- `fixParentAndChildren_<FixP, FixL, FixR>`. -/
def fixParentAndChildren (fixP fixL fixR : Bool) (s : Links Item) (node originalParent : ℕ) :
    Option (Links Item) := do
  let n ← s.get (some node)
  let s ← if fixP then s.replaceChild n.p originalParent node else some s
  let s ← if fixL then s.setParent n.l (some node) else some s
  if fixR then s.setParent n.r (some node) else some s

/-- `rotateL_` and `rotateR_`: the child on a side comes up. -/
def rotate (d : Dir) (s : Links Item) (n : ℕ) : Option (Links Item) := do
  let node ← s.get (some n)
  let r ← node.child d
  let t := (← s.get (some r)).child d.flip
  let s ← s.write (some n) fun x => x.setChild d t
  let s ← s.setParent t (some n)
  let s ← s.write (some r) fun x => x.setChild d.flip (some n)
  let s ← s.write (some r) fun x => x.setP node.p
  fixParentAndChildren true (d = .right) (d = .left) s r n

/-- `rotateL_`. -/
def rotateL (s : Links Item) (n : ℕ) : Option (Links Item) := rotate .right s n

/-- `rotateR_`. -/
def rotateR (s : Links Item) (n : ℕ) : Option (Links Item) := rotate .left s n

/-- `rotateRL_` and `rotateLR_`. -/
def rotateTwice (d : Dir) (s : Links Item) (n : ℕ) : Option (Links Item) := do
  let c ← (← s.get (some n)).child d
  let s ← rotate d.flip s c
  rotate d s n

/-- `rotateRL_`. -/
def rotateRL (s : Links Item) (n : ℕ) : Option (Links Item) := rotateTwice .right s n

/-- `rotateLR_`. -/
def rotateLR (s : Links Item) (n : ℕ) : Option (Links Item) := rotateTwice .left s n

/-- Both nodes exchange their links, and with the parents their balances. -/
def swapWords (s : Links Item) (a b : ℕ) : Option (Links Item) := do
  let na ← s.get (some a)
  let nb ← s.get (some b)
  let s ← s.write (some a) fun x =>
    { nb with val := { x.val with balance := nb.val.balance } }
  s.write (some b) fun x => { na with val := { x.val with balance := na.val.balance } }

/-- `swapLinksRelative_`: the first node is the parent of the second. -/
def swapLinksRelative (s : Links Item) (a b : ℕ) : Option (Links Item) := do
  let s ← swapWords s a b
  let s ← fixParentAndChildren true false false s b a
  let s ← fixParentAndChildren false true true s a a
  let s ← s.write (some a) fun x => x.setP (some b)
  if (← s.get (some b)).l = some b then
    let s ← s.write (some b) fun x => x.setChild .left (some a)
    fixParentAndChildren false false true s b b
  else
    let s ← fixParentAndChildren false true false s b b
    s.write (some b) fun x => x.setChild .right (some a)

/-- `swapLinksNormal_`. -/
def swapLinksNormal (s : Links Item) (a b : ℕ) : Option (Links Item) := do
  let s ← swapWords s a b
  let s ← fixParentAndChildren true true true s a b
  fixParentAndChildren true true true s b a

/-- `swapLinks_`. -/
def swapLinks (s : Links Item) (a b : ℕ) : Option (Links Item) := do
  if (← s.get (some b)).p = some a then swapLinksRelative s a b
  else if (← s.get (some a)).p = some b then swapLinksRelative s b a
  else swapLinksNormal s a b

/-- `copyLinks_`: the second node is left without links. -/
def copyLinks (s : Links Item) (a b : ℕ) : Option (Links Item) := do
  let nb ← s.get (some b)
  let s ← s.write (some a) fun x =>
    { nb with val := { x.val with balance := nb.val.balance } }
  let s ← fixParentAndChildren true true true s a b
  s.write (some b) fun x => ⟨none, none, none, { x.val with balance := -2 }⟩

/-! ## Balance -/

/-- The sign of the balance of a node that is heavy on a side. -/
def sign : Dir → ℤ
  | .left => -1
  | .right => 1

/-- The double rotation of both rebalancing loops, with the balances it leaves. -/
def rebalanceTwice (d : Dir) (s : Links Item) (node : ℕ) : Option (Links Item) := do
  let c := (← s.get (some node)).child d
  let g := (← s.get c).child d.flip
  let gBalance ← getBalance s g
  let s ← setBalance s g 0
  let s ← setBalance s c 0
  let s ← setBalance s (some node) 0
  let s ←
    if gBalance = sign d then setBalance s (some node) (-sign d)
    else if gBalance = -sign d then setBalance s c (sign d)
    else some s
  rotateTwice d s node

/-- A node that is too heavy on a side after an insert. -/
def rebalanceHeavyInsert (d : Dir) (s : Links Item) (node : ℕ) : Option (Links Item) := do
  let c := (← s.get (some node)).child d
  if (← getBalance s c) = sign d then
    let s ← setBalance s (some node) 0
    let s ← setBalance s c 0
    rotate d s node
  else rebalanceTwice d s node

/-- `rebalanceAfterInsert_`, for at most so many nodes. -/
def rebalanceAfterInsert : ℕ → Links Item → ℕ → Option (Links Item)
  | 0, _, _ => none
  | k + 1, s, node => do
    let balance ← getBalance s (some node)
    if balance = 0 then some s
    else if balance = 2 then rebalanceHeavyInsert .right s node
    else if balance = -2 then rebalanceHeavyInsert .left s node
    else
      match (← s.get (some node)).p with
      | none => some s
      | some parent =>
        let s ←
          if (← s.get (some parent)).l = some node then decBalance s (some parent)
          else incBalance s (some parent)
        rebalanceAfterInsert k s parent

/-- A node that is too heavy on a side after an erase; whether the height of the subtree
is what it was before. -/
def rebalanceHeavyErase (d : Dir) (s : Links Item) (node : ℕ) : Option (Links Item × Bool) := do
  let c := (← s.get (some node)).child d
  let cBalance ← getBalance s c
  if cBalance = sign d then
    let s ← setBalance s (some node) 0
    let s ← setBalance s c 0
    let s ← rotate d s node
    return (s, false)
  else if cBalance = 0 then
    let s ← setBalance s (some node) (sign d)
    let s ← setBalance s c (-sign d)
    let s ← rotate d s node
    return (s, true)
  else
    let s ← rebalanceTwice d s node
    return (s, false)

/-- The part of `rebalanceAfterErase_` that looks at one node: the links, the node that
is the root of the subtree now, and whether it is done. -/
def rebalanceNodeErase (s : Links Item) (node : ℕ) : Option (Links Item × Option ℕ × Bool) := do
  let balance ← getBalance s (some node)
  if balance = 2 then
    let (s, done) ← rebalanceHeavyErase .right s node
    return (s, (← s.get (some node)).p, done)
  else if balance = -2 then
    let (s, done) ← rebalanceHeavyErase .left s node
    return (s, (← s.get (some node)).p, done)
  else return (s, some node, false)

/-- `rebalanceAfterErase_`, for at most so many nodes. -/
def rebalanceAfterErase : ℕ → Links Item → ℕ → Option (Links Item)
  | 0, _, _ => none
  | k + 1, s, node => do
    let (s, x, done) ← rebalanceNodeErase s node
    if done then some s
    else
      match (← s.get x).p with
      | none => some s
      | some parent =>
        if x = (← s.get (some parent)).l then
          let s ← incBalance s (some parent)
          if (← getBalance s (some parent)) = 1 then some s
          else rebalanceAfterErase k s parent
        else
          let s ← decBalance s (some parent)
          if (← getBalance s (some parent)) = -1 then some s
          else rebalanceAfterErase k s parent

/-! ## Search and iteration -/

/-- `PairLCPCompare` on a pair. -/
def pairCompare (key : Key) (s : PrefixState) (pair : Pair) : Option (Ordering × PrefixState) :=
  let pr := min s.prefixL s.prefixR
  match pair.cmpLCP key pr with
  | none => none
  | some ⟨comp, pref⟩ => some (comp,
      { prefixL := if comp ≠ .lt then pr + pref else s.prefixL
        prefixR := if comp ≠ .gt then pr + pref else s.prefixR })

/-- The loop of `erase___` and `getPair___`: the node of the key, or null. -/
def search (s : Links Item) (key : Key) : ℕ → PrefixState → Option ℕ → Option (Option ℕ)
  | 0, _, _ => none
  | _ + 1, _, none => some none
  | k + 1, comp, some node => do
    let n ← s.get (some node)
    match ← pairCompare key comp n.val.data with
    | (.gt, comp) => search s key k comp n.l
    | (.lt, comp) => search s key k comp n.r
    | (.eq, _) => some (some node)

/-- `getMinValueNode` and `getMaxValueNode`: as far as it goes on a side. -/
def getEndNode (d : Dir) (s : Links Item) : ℕ → ℕ → Option ℕ
  | 0, _ => none
  | k + 1, node => do
    match (← s.get (some node)).child d with
    | none => some node
    | some next => getEndNode d s k next

/-- The loop of `getSuccessorNode` and `getPredecessorNode` that goes up. -/
def goUp (d : Dir) (s : Links Item) : ℕ → ℕ → Option ℕ → Option (Option ℕ)
  | 0, _, _ => none
  | _ + 1, _, none => some none
  | k + 1, node, some parent => do
    let n ← s.get (some parent)
    if n.child d = some node then goUp d s k parent n.p else some (some parent)

/-- `getSuccessorNode` to the right and `getPredecessorNode` to the left. -/
def getNextNode (d : Dir) (s : Links Item) (fuel : ℕ) (node : ℕ) : Option (Option ℕ) := do
  let n ← s.get (some node)
  match n.child d with
  | some c =>
    let x ← getEndNode d.flip s fuel c
    return some x
  | none => goUp d s fuel node n.p

/-- The loop of `find`: the node the iterator starts at. -/
def findNode (s : Links Item) (key : Key) (fuel : ℕ) :
    ℕ → PrefixState → Option ℕ → Option (Option ℕ)
  | 0, _, _ => none
  | _ + 1, _, none => some none
  | k + 1, comp, some node => do
    let n ← s.get (some node)
    match ← pairCompare key comp n.val.data with
    | (.gt, comp) => if n.l = none then some (some node) else findNode s key fuel k comp n.l
    | (.lt, comp) =>
      if n.r = none then getNextNode .right s fuel node else findNode s key fuel k comp n.r
    | (.eq, _) => some (some node)

/-- The pairs an iterator shows from a node on, in a direction, to the end. -/
def iterate (d : Dir) (s : Links Item) (fuel : ℕ) : ℕ → Option ℕ → Option (List Pair)
  | 0, _ => none
  | _ + 1, none => some []
  | k + 1, some node => do
    let n ← s.get (some node)
    let next ← getNextNode d s fuel node
    let rest ← iterate d s fuel k next
    return n.val.data :: rest

/-! ## The list -/

/-- `AVLList` with the state of its allocator. Nodes are numbered as they are allocated,
and a number is never used again. -/
structure AVL (σ : Type) where
  /-- The nodes and `root_`. -/
  links : Links Item
  /-- The number of the next node. -/
  next : ℕ
  /-- `lc_`. -/
  lc : ListCounter
  /-- The allocator's state. -/
  alloc : σ

section List

variable {σ : Type}

/-- An empty list. -/
def AVL.empty (alloc : σ) : AVL σ := ⟨⟨fun _ => none, none⟩, 0, ListCounter.zero, alloc⟩

variable (allocator : Allocator σ) (list : AVL σ)

/-- No loop visits more nodes than were ever allocated. -/
def AVL.fuel : ℕ := list.next + 2

/-- `deallocate_`. -/
def deallocate (node : ℕ) : Option (AVL σ) := do
  let n ← list.links.get (some node)
  return { list with
    links := { list.links with heap := Function.update list.links.heap node none }
    alloc := allocator.xdeallocate n.val.addr list.alloc }

/-- `allocateNode`: the number of the new node, if there is memory. -/
def allocateNode (factory : Factory) (h : factory.valid = true) (now : UInt64)
    (parent : Option ℕ) : Option ℕ × AVL σ :=
  match allocator.xallocate (INTERNAL_NODE_SIZE + factory.bytes) list.alloc with
  | (none, alloc) => (none, { list with alloc := alloc })
  | (some addr, alloc) => (some list.next, {
      links := { list.links with
        heap := Function.update list.links.heap list.next
          (some ⟨none, none, parent, ⟨0, factory.create h now, addr⟩⟩) }
      next := list.next + 1
      lc := list.lc.inc factory.bytes
      alloc := alloc })

/-- Where the loop of `insertF` stops. -/
inductive Place where
  /-- A node without a child on the side of the key. -/
  | below (node : ℕ) (d : Dir)
  /-- The node of the key. -/
  | here (node : ℕ)

/-- The loop of `insertF`. -/
def locate (s : Links Item) (key : Key) : ℕ → PrefixState → ℕ → Option Place
  | 0, _, _ => none
  | k + 1, comp, node => do
    let n ← s.get (some node)
    match ← pairCompare key comp n.val.data with
    | (.gt, comp) =>
      match n.l with
      | none => some (.below node .left)
      | some l => locate s key k comp l
    | (.lt, comp) =>
      match n.r with
      | none => some (.below node .right)
      | some r => locate s key k comp r
    | (.eq, _) => some (.here node)

/-- `insertF` at a node without a child on the side of the key. -/
def insertBelow (factory : Factory) (h : factory.valid = true) (now : UInt64) (node : ℕ) (d : Dir) :
    Option (InsertResult × AVL σ) :=
  match allocateNode allocator list factory h now (some node) with
  | (none, list) => some (⟨.ERROR_NO_MEMORY, none⟩, list)
  | (some newnode, list) => do
    let s ← list.links.write (some node) fun x => x.setChild d (some newnode)
    let s ← if d = .left then decBalance s (some node) else incBalance s (some node)
    let s ← rebalanceAfterInsert list.fuel s node
    return (⟨.INSERTED, some (factory.create h now)⟩, { list with links := s })

/-- `insertF` at the node of the key. -/
def insertHere (factory : Factory) (h : factory.valid = true) (now : UInt64) (node : ℕ) :
    Option (InsertResult × AVL σ) := do
  let n ← list.links.get (some node)
  let olddata := n.val.data
  if ¬isValidForReplace factory.getCreated olddata then return (⟨.SKIP_INSERTED, none⟩, list)
  else
    match tryUpdateInPlaceLC allocator list.alloc (n.val.addr + offsetofData) olddata factory h now
      list.lc with
    | some (data, lc) =>
      let s ← list.links.write (some node) fun x => { x with val := { x.val with data := data } }
      return (⟨.UPDATED_IN_PLACE, some data⟩, { list with links := s, lc := lc })
    | none =>
      match allocateNode allocator list factory h now (some node) with
      | (none, list) => return (⟨.ERROR_NO_MEMORY, none⟩, list)
      | (some newnode, list) =>
        let s ← copyLinks list.links newnode node
        let list := { list with links := s, lc := list.lc.dec olddata.bytes }
        let list ← deallocate allocator list node
        return (⟨.REPLACED, some (factory.create h now)⟩, list)

/-- `insertF`. -/
def insertF (factory : Factory) (now : UInt64) : Option (InsertResult × AVL σ) :=
  if h : factory.valid = true then
    match list.links.root with
    | none =>
      match allocateNode allocator list factory h now none with
      | (none, list) => some (⟨.ERROR_NO_MEMORY, none⟩, list)
      | (some newnode, list) => some (⟨.INSERTED, some (factory.create h now)⟩,
          { list with links := { list.links with root := some newnode } })
    | some root => do
      match ← locate list.links factory.getKey list.fuel ⟨0, 0⟩ root with
      | .below node d => insertBelow allocator list factory h now node d
      | .here node => insertHere allocator list factory h now node
  else some (⟨.ERROR_INVALID, none⟩, list)

/-- `erase___` of a node that has at most one child: the child, if there is one, comes in
its place. -/
def eraseNode (node : ℕ) : Option (AVL σ) := do
  let n ← list.links.get (some node)
  let child := if n.l ≠ none then n.l else n.r
  let s ← list.links.setParent child n.p
  match n.p with
  | none =>
    let list ← deallocate allocator { list with links := s, lc := list.lc.dec n.val.data.bytes } node
    return { list with links := { list.links with root := child } }
  | some parent =>
    if some node = (← s.get (some parent)).l then
      let s ← s.write (some parent) fun x => x.setChild .left child
      let s ← incBalance s (some parent)
      let list ← deallocate allocator
        { list with links := s, lc := list.lc.dec n.val.data.bytes } node
      if (← getBalance list.links (some parent)) = 1 then return list
      else
        let s ← rebalanceAfterErase list.fuel list.links parent
        return { list with links := s }
    else
      let s ← s.write (some parent) fun x => x.setChild .right child
      let s ← decBalance s (some parent)
      let list ← deallocate allocator
        { list with links := s, lc := list.lc.dec n.val.data.bytes } node
      if (← getBalance list.links (some parent)) = -1 then return list
      else
        let s ← rebalanceAfterErase list.fuel list.links parent
        return { list with links := s }

/-- `erase___` at the node of the key. -/
def eraseFound (node : ℕ) : Option (AVL σ) := do
  let n ← list.links.get (some node)
  match n.l, n.r with
  | some _, some r =>
    let successor ← getEndNode .left list.links list.fuel r
    let s ← swapLinks list.links node successor
    eraseNode allocator { list with links := s } node
  | _, _ => eraseNode allocator list node

/-- `erase___`. -/
def erase (key : Key) : Option (InsertResult × AVL σ) := do
  match ← search list.links key list.fuel ⟨0, 0⟩ list.links.root with
  | none => return (⟨.SKIP_DELETED, none⟩, list)
  | some node =>
    let list ← eraseFound allocator list node
    return (⟨.DELETED, none⟩, list)

/-- `getPair___`. -/
def getPair (key : Key) : Option (Option Pair) := do
  match ← search list.links key list.fuel ⟨0, 0⟩ list.links.root with
  | none => return none
  | some node => return some (← list.links.get (some node)).val.data

/-- The inner loop of `deallocateTree_`: as far as it goes to the right, but not to the
node. -/
def getThreadNode (s : Links Item) (node : ℕ) : ℕ → ℕ → Option ℕ
  | 0, _ => none
  | k + 1, tmp => do
    match (← s.get (some tmp)).r with
    | none => some tmp
    | some r => if r = node then some tmp else getThreadNode s node k r

/-- The outer loop of `deallocateTree_`, which makes the right pointers of the tree a list
while it goes. -/
def deallocateNodes : ℕ → AVL σ → Option ℕ → Option (AVL σ)
  | 0, _, _ => none
  | _ + 1, list, none => some list
  | k + 1, list, some node => do
    let n ← list.links.get (some node)
    match n.l with
    | none =>
      let list ← deallocate allocator list node
      deallocateNodes k list n.r
    | some l =>
      let tmp ← getThreadNode list.links node list.fuel l
      if (← list.links.get (some tmp)).r = none then
        let s ← list.links.write (some tmp) fun x => x.setChild .right (some node)
        let s ← s.write (some node) fun x => x.setChild .left none
        deallocateNodes k { list with links := s } (some l)
      else deallocateNodes k list (some node)

/-- `deallocateTree_`. -/
def deallocateTree : Option (AVL σ) :=
  match allocator.reset list.alloc with
  | (true, alloc) =>
    some { list with links := { list.links with heap := fun _ => none }, alloc := alloc }
  | (false, alloc) =>
    deallocateNodes allocator (2 * list.fuel) { list with alloc := alloc } list.links.root

/-- `clear`. -/
def clear : Option (AVL σ) := do
  let list ← deallocateTree allocator list
  return { list with links := { list.links with root := none }, lc := list.lc.clr }

/-- One operation on the list. -/
def step (op : Op) : Option (Option InsertResult × AVL σ) :=
  match op with
  | .insert factory now => do
    let (r, list) ← insertF allocator list factory now
    return (some r, list)
  | .erase key => do
    let (r, list) ← erase allocator list key
    return (some r, list)
  | .clear => do
    let list ← clear allocator list
    return (none, list)

/-- The pairs from `find` to the end. -/
def find (key : Key) : Option (List Pair) := do
  let x ← findNode list.links key list.fuel list.fuel ⟨0, 0⟩ list.links.root
  iterate .right list.links list.fuel list.fuel x

/-- The pairs from `begin()` to `end()`. -/
def forward : Option (List Pair) :=
  match list.links.root with
  | none => some []
  | some root => do
    let x ← getEndNode .left list.links list.fuel root
    iterate .right list.links list.fuel list.fuel (some x)

/-- The pairs from the one before `end()` back to `begin()`. -/
def backward : Option (List Pair) :=
  match list.links.root with
  | none => some []
  | some root => do
    let x ← getEndNode .right list.links list.fuel root
    iterate .left list.links list.fuel list.fuel (some x)

end List

end HM4.AVLList
