import HM4.AVLAddresses
import HM4.AVLContents

/-!
# The AVL list in an arena

The list that takes writes lives in an arena: memory is handed out upwards, never
taken back piece by piece, and given back as a whole when the list is cleared. So
it depends on nothing but the position of the arena whether an insert finds room.
-/

namespace HM4.ArenaList

open Bytes Pairs PairFactory MemList KeyedList LinkedTree AVLList AVLSearch AVLContents

/-- `ArenaAllocator` without its position. -/
structure Arena where
  /-- The address of its first octet. -/
  data : ℕ
  /-- Its octets. -/
  size : ℕ

/-- `align__`. -/
def align (n : ℕ) : ℕ := (n + 7) / 8 * 8

/-- `ArenaAllocator`, whose state is `pos`. -/
def Arena.allocator (arena : Arena) : Allocator ℕ where
  xallocate size pos :=
    if align pos + size > arena.size then (none, align pos)
    else (some (arena.data + align pos), align pos + size)
  xdeallocate _ pos := pos
  owns p _ := p ≠ 0 && arena.data ≤ p && p < arena.data + arena.size
  reset _ := (true, 0)

/-- `getFreeMemory`. -/
def Arena.getFreeMemory (arena : Arena) (pos : ℕ) : ℕ := arena.size - pos

/-- `AVLList<ArenaAllocator>`, with its arena. -/
structure MemList where
  arena : Arena
  list : AVL ℕ

/-- An empty list in an unused arena. -/
def MemList.new (arena : Arena) : MemList := ⟨arena, AVL.empty 0⟩

variable (l : MemList)

/-- `insertF`. -/
def MemList.insertF (factory : Factory) (now : UInt64) : Option (InsertResult × MemList) :=
  (AVLList.insertF l.arena.allocator l.list factory now).map fun y => (y.1, { l with list := y.2 })

/-- `erase___`. -/
def MemList.erase (key : Key) : Option (InsertResult × MemList) :=
  (AVLList.erase l.arena.allocator l.list key).map fun y => (y.1, { l with list := y.2 })

/-- `clear`. -/
def MemList.clear : Option MemList :=
  (AVLList.clear l.arena.allocator l.list).map fun list => { l with list := list }

/-- `getPair___`. -/
def MemList.getPair (key : Key) : Option (Option Pair) := AVLList.getPair l.list key

/-- `empty`. -/
def MemList.empty : Bool := l.list.lc.size == 0

/-- The pairs from `begin()` to `end()`. -/
def MemList.pairs : List Pair := (forward l.list).getD []

/-- A node for a pair of so many octets fits behind the position of the arena. -/
def MemList.fits (bytes : ℕ) : Bool :=
  align l.list.alloc + (INTERNAL_NODE_SIZE + bytes) ≤ l.arena.size

/-! ## Every pair lies in the arena -/

/-- The allocator says of every node that its pair is its own. -/
def Arena.Holds (arena : Arena) (addr : ℕ) : Prop :=
  ∀ pos, arena.allocator.owns (addr + offsetofData) pos = true

theorem Arena.holds_of_xallocate (arena : Arena) (bytes pos addr : ℕ)
    (h : (arena.allocator.xallocate (INTERNAL_NODE_SIZE + bytes) pos).1 = some addr) :
    arena.Holds addr := by
  intro pos'
  have hn : INTERNAL_NODE_SIZE = 28 := rfl
  have ho : offsetofData = 24 := rfl
  unfold Arena.allocator at h ⊢
  dsimp only at h ⊢
  split at h
  · exact absurd h (Option.some_ne_none _).symm
  · have haddr := Option.some.inj h
    simp only [Bool.and_eq_true, decide_eq_true_eq]
    omega

/-- An allocator that says of every address that it is its own. -/
def owning (allocator : Allocator ℕ) : Allocator ℕ := { allocator with owns := fun _ _ => true }

/-- While every pair lies in the arena, only the addresses of the list's own nodes are asked
about. -/
theorem insertF_owning (allocator : Allocator ℕ) (list : AVL ℕ) (factory : Factory)
    (now : UInt64)
    (h : ∀ i n, list.links.heap i = some n →
      allocator.owns (n.val.addr + offsetofData) list.alloc = true) :
    AVLList.insertF allocator list factory now =
      AVLList.insertF (owning allocator) list factory now := by
  unfold AVLList.insertF
  split
  · next hv =>
    cases list.links.root with
    | none => rfl
    | some root =>
      refine Option.bind_congr fun place _ => ?_
      cases place with
      | below node d => rfl
      | here node =>
        refine Option.bind_congr fun n hn => ?_
        have hown := h node n hn
        have hother : (owning allocator).owns (n.val.addr + offsetofData) list.alloc = true := rfl
        dsimp only
        rw [tryUpdateInPlaceLC, tryUpdateInPlaceLC, hown, hother]
        rfl
  · rfl

/-! ## The list shows a plain map -/

/-- The list holds the pairs of a map, all of them in its arena. -/
structure Shows (l : MemList) (m : List Pair) : Prop where
  represents : Represents l.list m
  owned : Owned l.arena.Holds l.list.links

theorem shows_new (arena : Arena) : Shows (MemList.new arena) [] where
  represents := ⟨.nil, valid_empty 0, rfl⟩
  owned _ _ h := absurd h (Option.some_ne_none _).symm

variable {l} {m : List Pair} (h : Shows l m)

include h

theorem Shows.pairs_eq : l.pairs = m := by
  obtain ⟨t, hv, rfl⟩ := h.represents
  rw [MemList.pairs, forward_valid hv, Option.getD_some]

theorem Shows.empty_iff : l.empty = true ↔ m = [] := by
  obtain ⟨t, hv, rfl⟩ := h.represents
  have hc : Counts l.list.lc (pairsOf t) := hv.fits.counts
  rw [MemList.empty, hc, beq_iff_eq, List.length_eq_zero_iff]

theorem Shows.increasing : Increasing Pair.key m := by
  obtain ⟨t, hv, rfl⟩ := h.represents
  exact hv.fits.sorted

theorem Shows.getPair (key : Key) : l.getPair key = some (get key m) := by
  obtain ⟨t, hv, rfl⟩ := h.represents
  exact getPair_valid hv key

/-- An insert is that of a plain map whose pairs may all be changed in place, with room as the
arena has it. -/
theorem Shows.insertF (factory : Factory) (now : UInt64) :
    ∃ r l' m', l.insertF factory now = some (r, l') ∧
      plainInsert factory now true (l.fits factory.bytes) m = (r, m') ∧ Shows l' m' ∧
      l'.arena = l.arena := by
  obtain ⟨t, hv, rfl⟩ := h.represents
  have heq := insertF_owning l.arena.allocator l.list factory now
    fun i n hi => h.owned i n hi l.list.alloc
  have hspec : Inserts (owning l.arena.allocator) l.list factory now t _ :=
    insertF_spec (owning l.arena.allocator) now hv
  obtain ⟨r, list', t', a, e, ⟨hmem, ⟨addr, ho⟩, -⟩, hplain, hv'⟩ := hspec
  have howned : a.owned = true := ho
  have hroom : a.memory = l.fits factory.bytes := by
    rw [hmem, MemList.fits]
    unfold owning Arena.allocator
    dsimp only
    split
    · next hlarge => exact (decide_eq_false (Nat.not_le.mpr hlarge)).symm
    · next hsmall => exact (decide_eq_true (Nat.not_lt.mp hsmall)).symm
  rw [howned, hroom] at hplain
  rw [← heq] at e
  refine ⟨r, { l with list := list' }, pairsOf t', ?_, hplain, ⟨⟨t', hv', rfl⟩, ?_⟩, rfl⟩
  · rw [MemList.insertF, e]
    rfl
  · exact insertF_owned l.arena.allocator l.list factory now
      (fun bytes pos addr => l.arena.holds_of_xallocate bytes pos addr) h.owned e

/-- An erase is that of a plain map. -/
theorem Shows.erase (key : Key) :
    ∃ r l' m', l.erase key = some (r, l') ∧ plainErase key m = (r, m') ∧ Shows l' m' ∧
      l'.arena = l.arena := by
  obtain ⟨t, hv, rfl⟩ := h.represents
  obtain ⟨r, list', t', e, hplain, hv'⟩ := erase_spec l.arena.allocator hv key
  refine ⟨r, { l with list := list' }, pairsOf t', ?_, hplain, ⟨⟨t', hv', rfl⟩, ?_⟩, rfl⟩
  · rw [MemList.erase, e]
    rfl
  · exact h.owned.kept (erase_keeps l.arena.allocator l.list key _ e)

/-- A clear gives all the memory back. -/
theorem Shows.clear :
    ∃ l', l.clear = some l' ∧ Shows l' [] ∧ l'.arena = l.arena ∧ l'.list.alloc = 0 := by
  obtain ⟨t, hv, rfl⟩ := h.represents
  have hc : Counts l.list.lc (pairsOf t) := hv.fits.counts
  refine ⟨{ l with list := ⟨⟨fun _ => none, none⟩, l.list.next, l.list.lc.clr, 0⟩ }, rfl,
    ⟨⟨.nil, ⟨stands_nil rfl, trivial, ?_⟩, rfl⟩, ?_⟩, rfl, rfl⟩
  · exact ⟨List.Pairwise.nil, fun _ he => absurd he List.not_mem_nil, hc.clr⟩
  · exact fun _ _ hi => absurd hi (Option.some_ne_none _).symm

end HM4.ArenaList
