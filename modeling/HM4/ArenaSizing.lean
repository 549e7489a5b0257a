import HM4.ConcurrentFlushList

/-!
# The size of the arenas

A write that finds no room has the lists flushed, and is made again into the
list that a flush leaves in front. Nothing is checked then. The server takes
the size of its arenas from the options, but no less than the megabytes that a
pair of the largest size asks for with its node, and these are rounded down.
-/

namespace HM4.ArenaSizing

open Bytes Pairs PairFactory MemList KeyedList AVLList ArenaList
open ConcurrentFlushList hiding insertF erase step run flush createFlushCloneInsert

/-- `config::MAX_INTERNAL_NODE_SIZE`. -/
def MAX_INTERNAL_NODE_SIZE : ℕ := 528

/-- `Pair::maxBytes`. -/
def maxBytes : ℕ := sizeofPair + maxKeySize + maxValSize

/-- `MIN_ARENA_SIZE_BYTES`. -/
def MIN_ARENA_SIZE_BYTES : ℕ := 1024 + maxBytes + MAX_INTERNAL_NODE_SIZE

/-- `MIN_ARENA_SIZE`, in megabytes. -/
def MIN_ARENA_SIZE : ℕ := MIN_ARENA_SIZE_BYTES / 1024 / 1024

/-- `calcAllocatorSize`, of the megabytes in the options. -/
def calcAllocatorSize (max_memlist_arena : UInt64) : UInt64 :=
  max (UInt64.ofNat MIN_ARENA_SIZE) max_memlist_arena * (1024 * 1024)

/-- An unused arena of the size the server takes. -/
def createAllocator (max_memlist_arena : UInt64) (data : ℕ) : Arena :=
  ⟨data, (calcAllocatorSize max_memlist_arena).toNat⟩

/-- `FlushList`, with a list that takes writes over the tables that the loader has loaded. -/
structure FlushList where
  list : MemList
  tables : List Table

namespace FlushList

/-- `FlushList::flush`: the list is cleared, and then the loader finds these tables. -/
def flush (found : List Table) (s : FlushList) : Option FlushList := do
  let l ← s.list.clear
  return ⟨l, found⟩

/-- `insertF_create_flush_clone_insert`. -/
def createFlushCloneInsert (factory : Factory) (h : factory.valid = true) (now : UInt64)
    (found : List Table) (s : FlushList) : Option (InsertResult × FlushList) := do
  let pair := factory.create h now
  let s ← flush found s
  let (result, l) ← s.list.insertF (clone pair) now
  return (result, { s with list := l })

/-- `flushlist_impl_::insertF`. -/
def insertF (factory : Factory) (now : UInt64) (found : List Table) (s : FlushList) :
    Option (InsertResult × FlushList) :=
  if h : factory.valid = true then
    if predicate s.list factory.bytes then createFlushCloneInsert factory h now found s
    else do
      let (result, l) ← s.list.insertF factory now
      if result.status ≠ .ERROR_NO_MEMORY then return (result, { s with list := l })
      else createFlushCloneInsert factory h now found { s with list := l }
  else some (⟨.ERROR_INVALID, none⟩, s)

/-- `DualList::erase___` over the list and the tables. -/
def erase (et : DualListEraseType) (key : Key) (now : UInt64) (found : List Table)
    (s : FlushList) : Option (InsertResult × FlushList) :=
  let erase := (s.list.erase key).map fun y => (y.1, { s with list := y.2 })
  let insertTS := insertF (tombstone key 0) now found s
  match et with
  | .NONE => some (⟨.SKIP_DELETED, none⟩, s)
  | .NORMAL => erase
  | .TOMBSTONE => insertTS
  | .SMART_TOMBSTONE => if s.tables = [] then erase else insertTS

/-- One event. -/
def step (et : DualListEraseType) (s : FlushList) : Event → Option FlushList
  | .insert factory now found => (insertF factory now found s).map Prod.snd
  | .erase key now found => (erase et key now found s).map Prod.snd
  | .flush found => flush found s
  | .reload found => some { s with tables := found }

/-- Events one after another. -/
def run (et : DualListEraseType) (s : FlushList) (events : List Event) : Option FlushList :=
  events.foldlM (step et) s

end FlushList

/-! ## Room for a pair -/

/-- Where there is room, no insert is refused for it. -/
theorem plainInsert_room (factory : Factory) (now : UInt64) (owned : Bool) (m : List Pair) :
    (plainInsert factory now owned true m).1.status ≠ .ERROR_NO_MEMORY := by
  unfold plainInsert
  split
  · split
    · simp
    · split
      · simp
      · split <;> simp
  · simp

/-- A pair copied to an empty list is refused exactly if there is no room. -/
theorem plainInsert_clone_iff (p : Pair) (now : UInt64) (fits : Bool) :
    (plainInsert (clone p) now true fits []).1.status ≠ .ERROR_NO_MEMORY ↔ fits = true := by
  have hv : (clone p).valid = true := rfl
  have hnone : get (clone p).getKey ([] : List Pair) = none := rfl
  unfold plainInsert
  rw [dif_pos hv, hnone]
  cases fits <;> simp

/-- In an unused arena there is room for what is not larger than the arena. -/
theorem fits_unused_iff {l : MemList} (h0 : l.list.alloc = 0) (bytes : ℕ) :
    l.fits bytes = true ↔ INTERNAL_NODE_SIZE + bytes ≤ l.arena.size := by
  rw [MemList.fits, h0, align_zero, Nat.zero_add, decide_eq_true_iff]

theorem le_of_fits {l : MemList} {bytes : ℕ} (h : l.fits bytes = true) :
    INTERNAL_NODE_SIZE + bytes ≤ l.arena.size := by
  have hfits := of_decide_eq_true h
  omega

section Inserts

variable {l : MemList} {m : List Pair} {factory : Factory} (hv : factory.valid = true)
  (now : UInt64)

/-- A list with room takes every write. -/
theorem insertF_room (h : Shows l m) (hfits : l.fits factory.bytes = true) :
    ∃ r l' m', l.insertF factory now = some (r, l') ∧ Shows l' m' ∧ l'.arena = l.arena ∧
      r.status ≠ .ERROR_NO_MEMORY := by
  obtain ⟨r, l', m', e, hplain, hl, ha⟩ := h.insertF factory now
  have hstatus := plainInsert_room factory now true m
  rw [hfits] at hplain
  rw [hplain] at hstatus
  exact ⟨r, l', m', e, hl, ha, hstatus⟩

/-- An empty list takes the copy of a pair exactly if it has room. -/
theorem insertF_clone_iff (h : Shows l []) :
    ∃ r l' m', l.insertF (clone (factory.create hv now)) now = some (r, l') ∧ Shows l' m' ∧
      l'.arena = l.arena ∧
      (r.status ≠ .ERROR_NO_MEMORY ↔ l.fits factory.bytes = true) := by
  obtain ⟨r, l', m', e, hplain, hl, ha⟩ := h.insertF (clone (factory.create hv now)) now
  have hbytes : (clone (factory.create hv now)).bytes = factory.bytes :=
    factory.create_bytes hv now
  have hstatus := plainInsert_clone_iff (factory.create hv now) now (l.fits factory.bytes)
  rw [hbytes] at hplain
  rw [hplain] at hstatus
  exact ⟨r, l', m', e, hl, ha, hstatus⟩

end Inserts

/-! ## The list over one arena -/

namespace FlushList

/-- The list holds the pairs of a map, in an arena of this size. -/
structure Held (size : ℕ) (s : FlushList) (m : List Pair) : Prop where
  shows : Shows s.list m
  size_eq : s.list.arena.size = size

variable {size : ℕ} {s : FlushList} {m : List Pair}

theorem Held.with (h : Held size s m) {l : MemList} {m' : List Pair} (hl : Shows l m')
    (ha : l.arena = s.list.arena) : Held size { s with list := l } m' :=
  ⟨hl, by rw [ha]; exact h.size_eq⟩

/-- A flush leaves an empty list in an unused arena. -/
theorem Held.flush (h : Held size s m) (found : List Table) :
    ∃ s', flush found s = some s' ∧ Held size s' [] ∧ s'.list.list.alloc = 0 := by
  obtain ⟨l, e, hl, ha, hpos⟩ := h.shows.clear
  refine ⟨⟨l, found⟩, ?_, ⟨hl, by rw [ha]; exact h.size_eq⟩, hpos⟩
  simp only [FlushList.flush, e, Option.bind_eq_bind, Option.bind_some, Option.pure_def]

/-- After a flush a pair is refused exactly if it is larger than the arena. -/
theorem Held.createFlushCloneInsert_iff (h : Held size s m) {factory : Factory}
    (hv : factory.valid = true) (now : UInt64) (found : List Table) :
    ∃ y m', createFlushCloneInsert factory hv now found s = some y ∧ Held size y.2 m' ∧
      (y.1.status ≠ .ERROR_NO_MEMORY ↔ INTERNAL_NODE_SIZE + factory.bytes ≤ size) := by
  obtain ⟨s', e, hs, hpos⟩ := h.flush found
  obtain ⟨r, l, m', el, hl, ha, hiff⟩ := insertF_clone_iff hv now hs.shows
  refine ⟨(r, { s' with list := l }), m', ?_, hs.with hl ha, ?_⟩
  · simp only [createFlushCloneInsert, e, el, Option.bind_eq_bind, Option.bind_some,
      Option.pure_def]
  · rw [hiff, fits_unused_iff hpos, hs.size_eq]

/-- An insert is refused exactly if the pair is larger than the arena. -/
theorem Held.insertF_iff (h : Held size s m) {factory : Factory} (hv : factory.valid = true)
    (now : UInt64) (found : List Table) :
    ∃ y m', insertF factory now found s = some y ∧ Held size y.2 m' ∧
      (y.1.status ≠ .ERROR_NO_MEMORY ↔ INTERNAL_NODE_SIZE + factory.bytes ≤ size) := by
  unfold insertF
  rw [dif_pos hv]
  cases hp : predicate s.list factory.bytes with
  | true => exact h.createFlushCloneInsert_iff hv now found
  | false =>
    have hfits := fits_of_predicate hp
    have hle := le_of_fits hfits
    rw [h.size_eq] at hle
    obtain ⟨r, l, m', e, hl, ha, hstatus⟩ := insertF_room now h.shows hfits
    refine ⟨(r, { s with list := l }), m', ?_, h.with hl ha, iff_of_true hstatus hle⟩
    rw [if_neg Bool.false_ne_true]
    simp only [e, Option.bind_eq_bind, Option.bind_some, if_pos hstatus, Option.pure_def]

theorem Held.exists_insertF (h : Held size s m) (factory : Factory) (now : UInt64)
    (found : List Table) : ∃ y m', insertF factory now found s = some y ∧ Held size y.2 m' := by
  by_cases hv : factory.valid = true
  · obtain ⟨y, m', e, hs, -⟩ := h.insertF_iff hv now found
    exact ⟨y, m', e, hs⟩
  · exact ⟨_, m, dif_neg hv, h⟩

theorem Held.exists_erase (h : Held size s m) (et : DualListEraseType) (key : Key) (now : UInt64)
    (found : List Table) :
    ∃ y m', erase et key now found s = some y ∧ Held size y.2 m' := by
  have hinsert := h.exists_insertF (tombstone key 0) now found
  obtain ⟨r, l, m', e, -, hl, ha⟩ := h.shows.erase key
  have herase : ∃ y m', (s.list.erase key).map (fun y => (y.1, { s with list := y.2 })) =
      some y ∧ Held size y.2 m' := ⟨_, m', by rw [e]; rfl, h.with hl ha⟩
  cases et with
  | NONE => exact ⟨_, m, rfl, h⟩
  | NORMAL => exact herase
  | TOMBSTONE => exact hinsert
  | SMART_TOMBSTONE =>
    by_cases ht : s.tables = []
    · simpa only [erase, if_pos ht] using herase
    · simpa only [erase, if_neg ht] using hinsert

/-- Every event keeps the arena. -/
theorem Held.exists_step (h : Held size s m) (et : DualListEraseType) (event : Event) :
    ∃ s' m', step et s event = some s' ∧ Held size s' m' := by
  cases event with
  | insert factory now found =>
    obtain ⟨y, m', e, hs⟩ := h.exists_insertF factory now found
    exact ⟨y.2, m', by rw [step, e]; rfl, hs⟩
  | erase key now found =>
    obtain ⟨y, m', e, hs⟩ := h.exists_erase et key now found
    exact ⟨y.2, m', by rw [step, e]; rfl, hs⟩
  | flush found =>
    obtain ⟨s', e, hs, -⟩ := h.flush found
    exact ⟨s', [], e, hs⟩
  | reload found => exact ⟨_, m, rfl, h.shows, h.size_eq⟩

/-- Every run keeps the arena. -/
theorem Held.exists_run (h : Held size s m) (et : DualListEraseType) (events : List Event) :
    ∃ s' m', run et s events = some s' ∧ Held size s' m' := by
  induction events generalizing s m with
  | nil => exact ⟨s, m, rfl, h⟩
  | cons event events ih =>
    obtain ⟨s1, m1, e, hs⟩ := h.exists_step et event
    obtain ⟨s2, m2, e2, hs2⟩ := ih hs
    refine ⟨s2, m2, ?_, hs2⟩
    rw [run, List.foldlM_cons, e]
    exact e2

end FlushList

/-! ## The lists over two arenas -/

/-- A write has room: behind the position of the arena, or, in lists that a flush would not leave
as they are, in a whole arena. -/
def HasRoom (size : ℕ) (s : Stack) (bytes : ℕ) : Prop :=
  s.list1.fits bytes = true ∨
    (s.list1.empty = false ∧ INTERNAL_NODE_SIZE + bytes ≤ size)

variable {size : ℕ} {s : Stack} {m1 m2 : List Pair}

/-- After a flush that is not done, or one that is, the copy of the pair has room or not. -/
theorem createFlushCloneInsert_iff (h : Held (· = size) s m1 m2) {factory : Factory}
    (hv : factory.valid = true) (now : UInt64) (found : List Table) :
    ∃ y, ConcurrentFlushList.createFlushCloneInsert factory hv now found s = some y ∧
      (y.1.status ≠ .ERROR_NO_MEMORY ↔ HasRoom size s factory.bytes) := by
  by_cases hm : m1 = []
  · subst hm
    have hempty : s.list1.empty = true := h.shows1.empty_iff.mpr rfl
    obtain ⟨r, l, m, e, -, -, hiff⟩ := insertF_clone_iff hv now h.shows1
    refine ⟨(r, { s with list1 := l }), ?_, ?_⟩
    · simp only [ConcurrentFlushList.createFlushCloneInsert, h.flush_nil rfl found, e,
        Option.bind_eq_bind, Option.bind_some, Option.pure_def]
    · rw [hiff, HasRoom, hempty]
      simp
  · have hempty : s.list1.empty = false := by
      rw [Bool.eq_false_iff]
      exact fun he => hm (h.shows1.empty_iff.mp he)
    obtain ⟨s', e', hs, h0, -⟩ := h.flush hm found
    obtain ⟨r, l, m, e, -, -, hiff⟩ := insertF_clone_iff hv now hs.shows1
    refine ⟨(r, { s' with list1 := l }), ?_, ?_⟩
    · simp only [ConcurrentFlushList.createFlushCloneInsert, e', e, Option.bind_eq_bind,
        Option.bind_some, Option.pure_def]
    · -- the arena that is used now is as large as the one before
      have hle : s.list1.fits factory.bytes = true →
          INTERNAL_NODE_SIZE + factory.bytes ≤ size := fun hf => by
        have hl := le_of_fits hf
        rwa [h.size1] at hl
      rw [hiff, fits_unused_iff h0, hs.size1, HasRoom, hempty]
      simpa using hle

/-- An insert is refused exactly if it has no room. -/
theorem insertF_iff (h : Held (· = size) s m1 m2) {factory : Factory}
    (hv : factory.valid = true) (now : UInt64) (found : List Table) :
    ∃ y, ConcurrentFlushList.insertF factory now found s = some y ∧
      (y.1.status ≠ .ERROR_NO_MEMORY ↔ HasRoom size s factory.bytes) := by
  unfold ConcurrentFlushList.insertF
  rw [dif_pos hv]
  cases hp : predicate s.list1 factory.bytes with
  | true => exact createFlushCloneInsert_iff h hv now found
  | false =>
    have hfits := fits_of_predicate hp
    obtain ⟨r, l, m', e, -, -, hstatus⟩ := insertF_room now h.shows1 hfits
    refine ⟨(r, { s with list1 := l }), ?_, iff_of_true hstatus (Or.inl hfits)⟩
    rw [if_neg Bool.false_ne_true]
    simp only [e, Option.bind_eq_bind, Option.bind_some, if_pos hstatus, Option.pure_def]

/-! ## The arenas of the server -/

/-- Where the server puts its arenas, and the tables it finds. -/
structure Place where
  data1 : ℕ
  data2 : ℕ
  tables : List Table

/-- The list over one arena at the start. -/
def Place.single (place : Place) (max_memlist_arena : UInt64) : FlushList :=
  ⟨MemList.new (createAllocator max_memlist_arena place.data1), place.tables⟩

/-- The lists over two arenas at the start. -/
def Place.concurrent (place : Place) (max_memlist_arena : UInt64) : Stack :=
  ⟨MemList.new (createAllocator max_memlist_arena place.data1),
    MemList.new (createAllocator max_memlist_arena place.data2), place.tables⟩

theorem held_single (place : Place) (max_memlist_arena : UInt64) :
    FlushList.Held (calcAllocatorSize max_memlist_arena).toNat
      (place.single max_memlist_arena) [] :=
  ⟨shows_new _, rfl⟩

theorem held_concurrent (place : Place) (max_memlist_arena : UInt64) :
    ConcurrentFlushList.Held (· = (calcAllocatorSize max_memlist_arena).toNat)
      (place.concurrent max_memlist_arena) [] [] :=
  ⟨shows_new _, shows_new _, rfl, rfl, fun _ => rfl⟩

/-- After every run no valid write is refused for memory, by either list. -/
def NeverRefused (max_memlist_arena : UInt64) (place : Place) (et : DualListEraseType)
    (events : List Event) : Prop :=
  ∀ factory : Factory, factory.valid = true → ∀ (now : UInt64) (found : List Table),
    (∃ s y, FlushList.run et (place.single max_memlist_arena) events = some s ∧
      FlushList.insertF factory now found s = some y ∧ y.1.status ≠ .ERROR_NO_MEMORY) ∧
    ∃ s y, ConcurrentFlushList.run et (place.concurrent max_memlist_arena) events = some s ∧
      ConcurrentFlushList.insertF factory now found s = some y ∧
      y.1.status ≠ .ERROR_NO_MEMORY

/-- After every run a write is taken by the list over one arena exactly if it is not larger than
the arena, and by the lists over two exactly if it has room. -/
theorem taken_iff (max_memlist_arena : UInt64) (place : Place) (et : DualListEraseType)
    (events : List Event) {factory : Factory} (hv : factory.valid = true) (now : UInt64)
    (found : List Table) :
    (∃ s y, FlushList.run et (place.single max_memlist_arena) events = some s ∧
      FlushList.insertF factory now found s = some y ∧
      (y.1.status ≠ .ERROR_NO_MEMORY ↔
        INTERNAL_NODE_SIZE + factory.bytes ≤ (calcAllocatorSize max_memlist_arena).toNat)) ∧
    ∃ s y, ConcurrentFlushList.run et (place.concurrent max_memlist_arena) events = some s ∧
      ConcurrentFlushList.insertF factory now found s = some y ∧
      (y.1.status ≠ .ERROR_NO_MEMORY ↔
        HasRoom (calcAllocatorSize max_memlist_arena).toNat s factory.bytes) := by
  constructor
  · obtain ⟨s, m, e, hs⟩ := (held_single place max_memlist_arena).exists_run et events
    obtain ⟨y, -, ey, -, hiff⟩ := hs.insertF_iff hv now found
    exact ⟨s, y, e, ey, hiff⟩
  · obtain ⟨s, m1, m2, e, hs⟩ := (held_concurrent place max_memlist_arena).exists_run et events
    obtain ⟨y, ey, hiff⟩ := insertF_iff hs hv now found
    exact ⟨s, y, e, ey, hiff⟩

/-- One octet under one octet, in the smallest arenas. -/
theorem taken_iff_octet :
    (∃ s y, FlushList.run .SMART_TOMBSTONE (Place.single ⟨4096, 4096, []⟩ 0) [] = some s ∧
      FlushList.insertF (normal [1] [1] 0 0) 5 [] s = some y ∧
      (y.1.status ≠ .ERROR_NO_MEMORY ↔
        INTERNAL_NODE_SIZE + (normal [1] [1] 0 0).bytes ≤ (calcAllocatorSize 0).toNat)) ∧
    ∃ s y, ConcurrentFlushList.run .SMART_TOMBSTONE (Place.concurrent ⟨4096, 4096, []⟩ 0) [] =
        some s ∧
      ConcurrentFlushList.insertF (normal [1] [1] 0 0) 5 [] s = some y ∧
      (y.1.status ≠ .ERROR_NO_MEMORY ↔
        HasRoom (calcAllocatorSize 0).toNat s (normal [1] [1] 0 0).bytes) :=
  taken_iff 0 ⟨4096, 4096, []⟩ .SMART_TOMBSTONE [] (normal_valid (by decide) (by decide)) 5 []

/-- A value of the largest size. -/
def largest : Factory := normal [1] (List.replicate maxValSize 1) 0 0

theorem largest_valid : largest.valid = true := by
  refine normal_valid (by decide) ?_
  rw [isValValid, List.length_replicate]

theorem largest_bytes : largest.bytes = 268435476 := by
  rw [largest, normal_bytes, List.length_replicate, List.length_singleton]
  rfl

theorem calcAllocatorSize_zero : (calcAllocatorSize 0).toNat = 268435456 := by decide

/-- With the options left as they are, a value of the largest size is refused at the very start:
the least arena is two and a half kilobytes short of what the sum under it asks for. -/
theorem not_neverRefused :
    ¬ ∀ (max_memlist_arena : UInt64) (place : Place) (et : DualListEraseType)
      (events : List Event), NeverRefused max_memlist_arena place et events := by
  intro hall
  have hn : INTERNAL_NODE_SIZE = 28 := rfl
  obtain ⟨s, y, e, ey, hy⟩ :=
    (hall 0 ⟨4096, 4096, []⟩ .SMART_TOMBSTONE [] largest largest_valid 0 []).1
  obtain ⟨y', -, ey', -, hiff⟩ :=
    (held_single ⟨4096, 4096, []⟩ 0).insertF_iff largest_valid 0 []
  have hs := Option.some.inj e
  rw [hs, ey, Option.some.injEq] at ey'
  rw [ey', hiff, largest_bytes, calcAllocatorSize_zero] at hy
  omega

/-! ## A list that was emptied -/

section Stays

variable {β γ : Type} {π : β → ℕ} {pos : ℕ}

/-- A computation that ends leaves the arena where it was. -/
def Stays (π : β → ℕ) (pos : ℕ) (x : Option β) : Prop := ∀ y, x = some y → π y = pos

theorem Stays.pure {y : β} (h : π y = pos) : Stays π pos (some y) := by
  intro z hz
  rwa [← Option.some.inj hz]

/-- What is done to the links does not matter. -/
theorem Stays.look {x : Option γ} {f : γ → Option β} (h : ∀ a, Stays π pos (f a)) :
    Stays π pos (x >>= f) := by
  intro y hy
  obtain ⟨a, -, ha⟩ := Option.bind_eq_some_iff.mp hy
  exact h a y ha

/-- One computation after another. -/
theorem Stays.bind {ρ : γ → ℕ} {x : Option γ} {f : γ → Option β} (hx : Stays ρ pos x)
    (hf : ∀ a, ρ a = pos → Stays π pos (f a)) : Stays π pos (x >>= f) := by
  intro y hy
  obtain ⟨a, hxa, ha⟩ := Option.bind_eq_some_iff.mp hy
  exact hf a (hx a hxa) y ha

theorem Stays.ite {c : Prop} [Decidable c] {x y : Option β} (hx : Stays π pos x)
    (hy : Stays π pos y) : Stays π pos (if c then x else y) := by
  split
  · exact hx
  · exact hy

end Stays

section Erase

variable (arena : Arena) (list : AVL ℕ)

theorem deallocate_stays (node : ℕ) :
    Stays AVL.alloc list.alloc (deallocate arena.allocator list node) :=
  .look fun _ => .pure rfl

theorem eraseNode_stays (node : ℕ) :
    Stays AVL.alloc list.alloc (eraseNode arena.allocator list node) := by
  refine .look fun n => .look fun s => ?_
  cases n.p with
  | none =>
    exact .bind (deallocate_stays arena { list with links := s, lc := _ } node)
      fun _ h => .pure h
  | some parent =>
    have hunlink : ∀ (s : LinkedTree.Links Item) (lc : ListCounter) (b : ℤ),
        Stays AVL.alloc list.alloc
          (deallocate arena.allocator { list with links := s, lc := lc } node >>= fun list =>
            getBalance list.links (some parent) >>= fun balance =>
            if balance = b then some list
            else rebalanceAfterErase list.fuel list.links parent >>= fun s =>
              some { list with links := s }) := fun s lc b =>
      .bind (deallocate_stays arena { list with links := s, lc := lc } node) fun _ h =>
        .look fun _ => .ite (.pure h) (.look fun _ => .pure h)
    refine .look fun _ => .ite ?_ ?_
    · exact .look fun _ => .look fun s => hunlink s _ 1
    · exact .look fun _ => .look fun s => hunlink s _ (-1)

/-- An erase gives nothing back to the arena. -/
theorem erase_stays (key : Key) :
    Stays (fun y => y.2.alloc) list.alloc (AVLList.erase arena.allocator list key) := by
  refine .look fun found => ?_
  cases found with
  | none => exact .pure rfl
  | some node =>
    refine .bind (ρ := AVL.alloc) ?_ fun _ h => .pure h
    refine .look fun n => ?_
    cases n.l with
    | none => exact eraseNode_stays arena list node
    | some l =>
      cases n.r with
      | none => exact eraseNode_stays arena list node
      | some r =>
        exact .look fun successor => .look fun s =>
          eraseNode_stays arena { list with links := s } node

end Erase

theorem plainErase_singleton {key : Key} {p : Pair} (h : p.key = key) :
    (plainErase key [p]).2 = [] := by
  unfold plainErase
  rw [lookup_singleton h]
  simp [remove, h]

/-- One pair is written and erased, and nothing is loaded. The list is empty then, so that no flush
is done for the next write, but the arena is as full as it was. -/
theorem refused_emptied (max_memlist_arena : UInt64) (data1 data2 : ℕ) {big next : Factory}
    (hbig : big.valid = true) (hnext : next.valid = true) (now1 now2 now3 : UInt64)
    (found1 found2 found3 : List Table)
    (hfits : big.bytes + INTERNAL_NODE_SIZE + SAFE_MARGIN + 8 ≤
      (calcAllocatorSize max_memlist_arena).toNat)
    (hfull : (calcAllocatorSize max_memlist_arena).toNat <
      INTERNAL_NODE_SIZE + big.bytes + (INTERNAL_NODE_SIZE + next.bytes)) :
    ∃ s y, ConcurrentFlushList.run .SMART_TOMBSTONE
        (Place.concurrent ⟨data1, data2, []⟩ max_memlist_arena)
        [.insert big now1 found1, .erase big.getKey now2 found2] = some s ∧
      ConcurrentFlushList.insertF next now3 found3 s = some y ∧
      y.1.status = .ERROR_NO_MEMORY := by
  let list2 := MemList.new (createAllocator max_memlist_arena data2)
  have hlist2 : list2.empty = true := (shows_new _).empty_iff.mpr rfl
  obtain ⟨l, e, hl, ha, hpos⟩ := step_new .SMART_TOMBSTONE
    (createAllocator max_memlist_arena data1) list2 [] hbig now1 found1 hfits
  obtain ⟨r, l', m, e', hplain, hl', ha'⟩ := hl.erase big.getKey
  have hm : m = [] := by
    rw [← plainErase_singleton (big.create_key hbig now1), hplain]
  subst hm
  have hpos' : l'.list.alloc = INTERNAL_NODE_SIZE + big.bytes := by
    obtain ⟨x, ex, hx⟩ := Option.map_eq_some_iff.mp e'
    have hstays : x.2.alloc = l.list.alloc := erase_stays l.arena l.list big.getKey x ex
    have hlist : x.2 = l'.list := congrArg (fun z => z.2.list) hx
    rw [← hlist, hstays, hpos]
  have hstep : ConcurrentFlushList.step .SMART_TOMBSTONE ⟨l, list2, []⟩
      (.erase big.getKey now2 found2) = some ⟨l', list2, []⟩ := by
    simp [ConcurrentFlushList.step, ConcurrentFlushList.erase, eraseInner, hlist2, e']
  have hheld : ConcurrentFlushList.Held (· = (calcAllocatorSize max_memlist_arena).toNat)
      ⟨l', list2, []⟩ [] [] :=
    ⟨hl', shows_new _, by rw [ha', ha]; rfl, rfl, fun _ => rfl⟩
  obtain ⟨y, ey, hiff⟩ := insertF_iff hheld hnext now3 found3
  refine ⟨_, y, (run_cons e _).trans ((run_cons hstep _).trans rfl), ey, ?_⟩
  have hempty : l'.empty = true := hl'.empty_iff.mpr rfl
  have hnofit : l'.fits next.bytes = false := by
    refine decide_eq_false ?_
    have hsize : l'.arena.size = (calcAllocatorSize max_memlist_arena).toNat := by
      rw [ha', ha]
      rfl
    rw [hpos', hsize, align]
    omega
  have hrefused : ¬ HasRoom (calcAllocatorSize max_memlist_arena).toNat ⟨l', list2, []⟩
      next.bytes := by
    simp [HasRoom, hempty, hnofit]
  exact not_not.mp (hiff.not.mpr hrefused)

end HM4.ArenaSizing
