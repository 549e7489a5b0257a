import HM4.ArenaList
import HM4.Database
import HM4.General.PrunedScan

/-!
# Erasing through the layers

The server keeps two lists in memory, one that takes writes and one that is being
saved, over the tables on disk. An erase takes the pair out if there is nothing
behind the list, and writes a tombstone over it otherwise. Both decisions are made
twice: by the list over the disk, and by the flush list over its two lists.
-/

namespace HM4.ConcurrentFlushList

open Bytes Pairs PairFactory MemList KeyedList AVLList PrunedScan ArenaList

/-- `DualListEraseType`. -/
inductive DualListEraseType where
  | NORMAL
  | TOMBSTONE
  | SMART_TOMBSTONE
  | NONE
  deriving DecidableEq

/-- A table on disk, as the point lookups see it. -/
structure Table where
  /-- The time after which it is not asked. -/
  bound : ℕ
  /-- The pair it has under a key. -/
  get : Key → Option Pair

/-- `CollectionList::getPair___` from a best pair. -/
def getPairTables (tables : List Table) (key : Key) (best : Option Pair) : Option Pair :=
  (tables.map fun t => ⟨t.bound, t.get key⟩).foldl (PrunedScan.step Pair.created) best

/-- The two lists of `ConcurrentFlushList`, and the tables that the loader has loaded. -/
structure Stack where
  list1 : MemList
  list2 : MemList
  tables : List Table

/-- `DiskFileAllocatorPredicate::SAFE_MARGIN`. -/
def SAFE_MARGIN : ℕ := 1024

/-- `DiskFileAllocatorPredicate`: the list has to be flushed first. -/
def predicate (l : MemList) (bytes : ℕ) : Bool :=
  l.arena.getFreeMemory l.list.alloc < bytes + INTERNAL_NODE_SIZE + SAFE_MARGIN + 8

/-- `ConcurrentFlushList::flush`; the list that was saved before makes room, and then the loader
finds these tables. -/
def flush (found : List Table) (s : Stack) : Option Stack :=
  if s.list1.empty then some s
  else if s.list2.empty then some { s with list1 := s.list2, list2 := s.list1 }
  else do
    let l ← s.list2.clear
    return ⟨l, s.list1, found⟩

/-- `insertF_create_flush_clone_insert`. -/
def createFlushCloneInsert (factory : Factory) (h : factory.valid = true) (now : UInt64)
    (found : List Table) (s : Stack) : Option (InsertResult × Stack) := do
  let pair := factory.create h now
  let s ← flush found s
  let (result, l) ← s.list1.insertF (clone pair) now
  return (result, { s with list1 := l })

/-- `flushlist_impl_::insertF`. -/
def insertF (factory : Factory) (now : UInt64) (found : List Table) (s : Stack) :
    Option (InsertResult × Stack) :=
  if h : factory.valid = true then
    if predicate s.list1 factory.bytes then createFlushCloneInsert factory h now found s
    else do
      let (result, l) ← s.list1.insertF factory now
      if result.status ≠ .ERROR_NO_MEMORY then return (result, { s with list1 := l })
      else createFlushCloneInsert factory h now found { s with list1 := l }
  else some (⟨.ERROR_INVALID, none⟩, s)

/-- `DualList::erase___` of the flush list, over its two lists. -/
def eraseInner (et : DualListEraseType) (key : Key) (now : UInt64) (s : Stack) :
    Option (InsertResult × Stack) :=
  let erase := s.list1.erase key
  let insertTS := s.list1.insertF (tombstone key 0) now
  let result : Option (InsertResult × MemList) :=
    match et with
    | .NONE => some (⟨.SKIP_DELETED, none⟩, s.list1)
    | .NORMAL => erase
    | .TOMBSTONE => insertTS
    | .SMART_TOMBSTONE => if s.list2.empty then erase else insertTS
  result.map fun y => (y.1, { s with list1 := y.2 })

/-- `DualList::erase___` over the flush list and the tables. -/
def erase (et : DualListEraseType) (key : Key) (now : UInt64) (found : List Table) (s : Stack) :
    Option (InsertResult × Stack) :=
  match et with
  | .NONE => some (⟨.SKIP_DELETED, none⟩, s)
  | .NORMAL => eraseInner et key now s
  | .TOMBSTONE => insertF (tombstone key 0) now found s
  | .SMART_TOMBSTONE =>
    if s.tables = [] then eraseInner et key now s else insertF (tombstone key 0) now found s

/-- `getPair`. -/
def getPair (s : Stack) (key : Key) : Option (Option Pair) := do
  let best := getNewestPair (← s.list1.getPair key) none
  let best := getNewestPair (← s.list2.getPair key) best
  return getPairTables s.tables key best

/-- What happens to the lists. A flush that clears a list, and a reload, find some tables in the
directory. -/
inductive Event where
  | insert (factory : Factory) (now : UInt64) (found : List Table)
  | erase (key : Key) (now : UInt64) (found : List Table)
  | flush (found : List Table)
  | reload (found : List Table)

/-- One event. -/
def step (et : DualListEraseType) (s : Stack) : Event → Option Stack
  | .insert factory now found => (insertF factory now found s).map Prod.snd
  | .erase key now found => (erase et key now found s).map Prod.snd
  | .flush found => flush found s
  | .reload found => some { s with tables := found }

/-- Events one after another. -/
def run (et : DualListEraseType) (s : Stack) (events : List Event) : Option Stack :=
  events.foldlM (step et) s

/-- The least arena that the server creates, `MIN_ARENA_SIZE` megabytes. -/
def minArena : ℕ := 256 * 1024 * 1024

/-- Two arenas, and the tables found at the start. -/
structure Config where
  arena1 : Arena
  arena2 : Arena
  tables : List Table
  large1 : minArena ≤ arena1.size
  large2 : minArena ≤ arena2.size

/-- The lists at the start. -/
def Config.start (c : Config) : Stack := ⟨MemList.new c.arena1, MemList.new c.arena2, c.tables⟩

/-! ## What the lists hold -/

/-- The lists hold the pairs of two maps, in arenas of such sizes. A second list that is empty was
never used. -/
structure Held (S : ℕ → Prop) (s : Stack) (m1 m2 : List Pair) : Prop where
  shows1 : Shows s.list1 m1
  shows2 : Shows s.list2 m2
  size1 : S s.list1.arena.size
  size2 : S s.list2.arena.size
  fresh : m2 = [] → s.list2.list.alloc = 0

variable {S : ℕ → Prop} {s : Stack} {m1 m2 : List Pair}

/-- The first list changes. -/
theorem Held.with1 (h : Held S s m1 m2) {l : MemList} {m : List Pair} (hl : Shows l m)
    (ha : l.arena = s.list1.arena) : Held S { s with list1 := l } m m2 :=
  ⟨hl, h.shows2, by rw [ha]; exact h.size1, h.size2, h.fresh⟩

/-- An empty list is not flushed. -/
theorem Held.flush_nil (h : Held S s m1 m2) (hm : m1 = []) (found : List Table) :
    flush found s = some s :=
  if_pos (h.shows1.empty_iff.mpr hm)

/-- A flush leaves an empty list in an arena that is not used. -/
theorem Held.flush (h : Held S s m1 m2) (hm : m1 ≠ []) (found : List Table) :
    ∃ s', flush found s = some s' ∧ Held S s' [] m1 ∧ s'.list1.list.alloc = 0 ∧
      s'.tables = if s.list2.empty then s.tables else found := by
  have hne : ¬ s.list1.empty = true := fun he => hm (h.shows1.empty_iff.mp he)
  unfold ConcurrentFlushList.flush
  rw [if_neg hne]
  by_cases h2 : s.list2.empty = true
  · obtain rfl := h.shows2.empty_iff.mp h2
    rw [if_pos h2, if_pos h2]
    exact ⟨_, rfl, ⟨h.shows2, h.shows1, h.size2, h.size1, fun he => absurd he hm⟩, h.fresh rfl,
      rfl⟩
  · obtain ⟨l, e, hl, ha, hpos⟩ := h.shows2.clear
    rw [if_neg h2, if_neg h2, e]
    refine ⟨_, rfl, ⟨hl, h.shows1, ?_, h.size1, fun he => absurd he hm⟩, hpos, rfl⟩
    rw [ha]
    exact h.size2

/-- Some flush is always done. -/
theorem Held.exists_flush (h : Held S s m1 m2) (found : List Table) :
    ∃ s' m1' m2', ConcurrentFlushList.flush found s = some s' ∧ Held S s' m1' m2' := by
  by_cases hm : m1 = []
  · exact ⟨s, m1, m2, h.flush_nil hm found, h⟩
  · obtain ⟨s', e, hg, -⟩ := h.flush hm found
    exact ⟨s', [], m1, e, hg⟩

theorem Held.exists_createFlushCloneInsert (h : Held S s m1 m2) {factory : Factory}
    (hv : factory.valid = true) (now : UInt64) (found : List Table) :
    ∃ y m1' m2', createFlushCloneInsert factory hv now found s = some y ∧ Held S y.2 m1' m2' := by
  obtain ⟨s', m1', m2', e, hg⟩ := h.exists_flush found
  obtain ⟨r, l, m, el, -, hl, ha⟩ := hg.shows1.insertF (clone (factory.create hv now)) now
  refine ⟨(r, { s' with list1 := l }), m, m2', ?_, hg.with1 hl ha⟩
  simp only [createFlushCloneInsert, e, el, Option.bind_eq_bind, Option.bind_some, Option.pure_def]

/-- An insert leaves such lists. -/
theorem Held.exists_insertF (h : Held S s m1 m2) (factory : Factory) (now : UInt64)
    (found : List Table) :
    ∃ y m1' m2', insertF factory now found s = some y ∧ Held S y.2 m1' m2' := by
  unfold insertF
  split
  · next hv =>
    split
    · exact h.exists_createFlushCloneInsert hv now found
    · obtain ⟨r, l, m, el, -, hl, ha⟩ := h.shows1.insertF factory now
      have hg := h.with1 hl ha
      simp only [el, Option.bind_eq_bind, Option.bind_some]
      split
      · exact ⟨_, m, m2, rfl, hg⟩
      · exact hg.exists_createFlushCloneInsert hv now found
  · exact ⟨_, m1, m2, rfl, h⟩

theorem Held.exists_eraseInner (h : Held S s m1 m2) (et : DualListEraseType) (key : Key)
    (now : UInt64) : ∃ y m1' m2', eraseInner et key now s = some y ∧ Held S y.2 m1' m2' := by
  obtain ⟨r, l, m, el, -, hl, ha⟩ := h.shows1.insertF (tombstone key 0) now
  obtain ⟨r', l', m', el', -, hl', ha'⟩ := h.shows1.erase key
  unfold eraseInner
  rw [el, el']
  cases et with
  | NONE => exact ⟨_, m1, m2, rfl, h⟩
  | NORMAL => exact ⟨_, m', m2, rfl, h.with1 hl' ha'⟩
  | TOMBSTONE => exact ⟨_, m, m2, rfl, h.with1 hl ha⟩
  | SMART_TOMBSTONE =>
    by_cases h2 : s.list2.empty = true
    · simp only [if_pos h2]
      exact ⟨_, m', m2, rfl, h.with1 hl' ha'⟩
    · simp only [if_neg h2]
      exact ⟨_, m, m2, rfl, h.with1 hl ha⟩

theorem Held.exists_erase (h : Held S s m1 m2) (et : DualListEraseType) (key : Key) (now : UInt64)
    (found : List Table) :
    ∃ y m1' m2', erase et key now found s = some y ∧ Held S y.2 m1' m2' := by
  unfold erase
  cases et with
  | NONE => exact ⟨_, m1, m2, rfl, h⟩
  | NORMAL => exact h.exists_eraseInner .NORMAL key now
  | TOMBSTONE => exact h.exists_insertF (tombstone key 0) now found
  | SMART_TOMBSTONE =>
    dsimp only
    split
    · exact h.exists_eraseInner .SMART_TOMBSTONE key now
    · exact h.exists_insertF (tombstone key 0) now found

/-- Every event leaves such lists. -/
theorem Held.exists_step (h : Held S s m1 m2) (et : DualListEraseType) (event : Event) :
    ∃ s' m1' m2', step et s event = some s' ∧ Held S s' m1' m2' := by
  cases event with
  | insert factory now found =>
    obtain ⟨y, m1', m2', e, hg⟩ := h.exists_insertF factory now found
    exact ⟨y.2, m1', m2', by rw [step, e]; rfl, hg⟩
  | erase key now found =>
    obtain ⟨y, m1', m2', e, hg⟩ := h.exists_erase et key now found
    exact ⟨y.2, m1', m2', by rw [step, e]; rfl, hg⟩
  | flush found => exact h.exists_flush found
  | reload found => exact ⟨_, m1, m2, rfl, h.shows1, h.shows2, h.size1, h.size2, h.fresh⟩

theorem run_cons {et : DualListEraseType} {s s' : Stack} {event : Event}
    (h : step et s event = some s') (events : List Event) :
    run et s (event :: events) = run et s' events := by
  rw [run, List.foldlM_cons, h]
  rfl

/-- Every run leaves such lists. -/
theorem Held.exists_run (h : Held S s m1 m2) (et : DualListEraseType) (events : List Event) :
    ∃ s' m1' m2', run et s events = some s' ∧ Held S s' m1' m2' := by
  induction events generalizing s m1 m2 with
  | nil => exact ⟨s, m1, m2, rfl, h⟩
  | cons event events ih =>
    obtain ⟨s1, m1', m2', e, hg⟩ := h.exists_step et event
    obtain ⟨s2, n1, n2, e2, hg2⟩ := ih hg
    exact ⟨s2, n1, n2, (run_cons e events).trans e2, hg2⟩

/-- The lists hold the pairs of two maps, in arenas that are not smaller than the server's. -/
structure Good (s : Stack) (m1 m2 : List Pair) : Prop where
  shows1 : Shows s.list1 m1
  shows2 : Shows s.list2 m2
  large1 : minArena ≤ s.list1.arena.size
  large2 : minArena ≤ s.list2.arena.size
  fresh : m2 = [] → s.list2.list.alloc = 0

theorem Good.held (h : Good s m1 m2) : Held (minArena ≤ ·) s m1 m2 :=
  ⟨h.shows1, h.shows2, h.large1, h.large2, h.fresh⟩

theorem Held.good (h : Held (minArena ≤ ·) s m1 m2) : Good s m1 m2 :=
  ⟨h.shows1, h.shows2, h.size1, h.size2, h.fresh⟩

theorem good_start (c : Config) : Good c.start [] [] where
  shows1 := shows_new c.arena1
  shows2 := shows_new c.arena2
  large1 := c.large1
  large2 := c.large2
  fresh _ := rfl

/-- The first list changes. -/
theorem Good.with1 (h : Good s m1 m2) {l : MemList} {m : List Pair} (hl : Shows l m)
    (ha : l.arena = s.list1.arena) : Good { s with list1 := l } m m2 :=
  (h.held.with1 hl ha).good

theorem Good.getPair (h : Good s m1 m2) (key : Key) :
    getPair s key = some (getPairTables s.tables key
      (getNewestPair (get key m2) (getNewestPair (get key m1) none))) := by
  rw [ConcurrentFlushList.getPair, h.shows1.getPair, h.shows2.getPair]
  rfl

/-- Every run leaves good lists. -/
theorem Good.exists_run (h : Good s m1 m2) (et : DualListEraseType) (events : List Event) :
    ∃ s' m1' m2', run et s events = some s' ∧ Good s' m1' m2' := by
  obtain ⟨s', m1', m2', e, hg⟩ := h.held.exists_run et events
  exact ⟨s', m1', m2', e, hg.good⟩

/-! ## What an erase leaves -/

/-- Nothing, or a tombstone. -/
def Gone (o : Option Pair) : Prop := ∀ p ∈ o, p.isTombstone = true

/-- What an erase writes into fresh memory. -/
def stamp (key : Key) (hk : isKeyValid key) (now : UInt64) : Pair :=
  full key [] 0 now hk (Nat.zero_le _)

/-- A list and the tables behind it, asked from a best pair. -/
def behind (m : List Pair) (tables : List Table) (key : Key) (best : Option Pair) : Option Pair :=
  getPairTables tables key (getNewestPair (get key m) best)

/-- A tombstone for the key finds room in the list: over the pair of the key, or in the arena. -/
def room (l : MemList) (key : Key) : Bool :=
  (get key l.pairs).isSome || l.fits (tombstone key 0).bytes

/-- The layers behind the list that gets the tombstone show nothing alive: under the tombstone, or
without it where it found no room. -/
def Covered (et : DualListEraseType) (s : Stack) (key : Key) (hk : isKeyValid key) (now : UInt64)
    (found : List Table) : Prop :=
  let written := fun ok : Bool => if ok then some (stamp key hk now) else none
  if et = .SMART_TOMBSTONE ∧ s.tables = [] then
    -- no flush makes room here
    s.list2.empty = true ∨ Gone (behind s.list2.pairs [] key (written (room s.list1 key)))
  else if predicate s.list1 (tombstone key 0).bytes = true ∧ s.list1.empty = false then
    Gone (behind s.list1.pairs (if s.list2.empty then s.tables else found) key (written true))
  else Gone (behind s.list2.pairs s.tables key (written (room s.list1 key)))

/-- The same, or two tombstones of one time. -/
def Twin (a b : Option Pair) : Prop :=
  a = b ∨ ∃ p q : Pair, a = some p ∧ b = some q ∧ p.isTombstone = true ∧ q.isTombstone = true ∧
    p.created = q.created

theorem Twin.gone_iff {a b : Option Pair} (h : Twin a b) : Gone a ↔ Gone b := by
  rcases h with rfl | ⟨p, q, rfl, rfl, hp, hq, -⟩
  · exact Iff.rfl
  · constructor
    · intro _ x hx
      rwa [← Option.some.inj hx]
    · intro _ x hx
      rwa [← Option.some.inj hx]

theorem Twin.getNewestPair {a b : Option Pair} (h : Twin a b) (o : Option Pair) :
    Twin (getNewestPair o a) (getNewestPair o b) := by
  rcases h with rfl | ⟨p, q, rfl, rfl, hp, hq, hc⟩
  · exact Or.inl rfl
  · cases o with
    | none => exact Or.inr ⟨p, q, rfl, rfl, hp, hq, hc⟩
    | some x =>
      have hcmp : x.cmpTime p = x.cmpTime q := by rw [Pair.cmpTime, Pair.cmpTime, hc]
      unfold Pairs.getNewestPair
      dsimp only
      rw [hcmp]
      split
      · exact Or.inl rfl
      · exact Or.inr ⟨p, q, rfl, rfl, hp, hq, hc⟩

theorem Twin.step {a b : Option Pair} (h : Twin a b) (source : Source Pair) :
    Twin (PrunedScan.step Pair.created a source) (PrunedScan.step Pair.created b source) := by
  rcases h with rfl | ⟨p, q, rfl, rfl, hp, hq, hc⟩
  · exact Or.inl rfl
  · have hsame : Twin (some p) (some q) := Or.inr ⟨p, q, rfl, rfl, hp, hq, hc⟩
    unfold PrunedScan.step newer
    dsimp only
    rw [hc]
    cases source.value with
    | none => split <;> exact hsame
    | some x =>
      dsimp only
      split
      · exact hsame
      · split
        · exact Or.inl rfl
        · exact hsame

theorem Twin.foldl {a b : Option Pair} (h : Twin a b) (sources : List (Source Pair)) :
    Twin (sources.foldl (PrunedScan.step Pair.created) a)
      (sources.foldl (PrunedScan.step Pair.created) b) := by
  induction sources generalizing a b with
  | nil => exact h
  | cons source sources ih => exact ih (h.step source)

/-- Of the best pair so far only its time and its being a tombstone matter. -/
theorem Twin.behind {a b : Option Pair} (h : Twin a b) (m : List Pair) (tables : List Table)
    (key : Key) : Twin (behind m tables key a) (behind m tables key b) :=
  (h.getNewestPair (get key m)).foldl _

theorem twin_stamp {key : Key} (hk : isKeyValid key) {now : UInt64} {p : Pair}
    (hp : p.isTombstone = true) (hc : p.created = now.toNat) :
    Twin (some p) (some (stamp key hk now)) :=
  Or.inr ⟨p, stamp key hk now, rfl, rfl, hp, by simp [stamp, full, Pair.isTombstone], hc⟩

theorem getNewestPair_none (o : Option Pair) : getNewestPair o none = o := by
  cases o <;> rfl

/-- A tombstone that finds room is what the list shows then. -/
theorem plainInsert_tombstone {key : Key} (hk : isKeyValid key) (now : UInt64) {fits : Bool}
    {m : List Pair} (h : ((get key m).isSome || fits) = true) :
    (plainInsert (tombstone key 0) now true fits m).1.status ≠ .ERROR_NO_MEMORY ∧
      ∃ p, get key (plainInsert (tombstone key 0) now true fits m).2 = some p ∧
        p.isTombstone = true ∧ p.created = now.toNat := by
  have hv : (tombstone key 0).valid = true := decide_eq_true hk
  unfold plainInsert
  rw [dif_pos hv]
  have hkey : (tombstone key 0).getKey = key := rfl
  cases hget : get key m with
  | none =>
    rw [hget] at h
    have hfits : fits = true := by simpa using h
    rw [hkey, hget]
    dsimp only
    rw [if_pos hfits]
    have hput := lookup_put_self Pair.key ((tombstone key 0).create hv now) m
    exact ⟨Status.noConfusion, _, hput, by simp [tombstone, full, Pair.isTombstone], rfl⟩
  | some old =>
    have hold : old.key = key := lookup_key hget
    have hsize : (tombstone key 0).bytes ≤ old.bytes := by
      have hb : (tombstone key 0).bytes = sizeofPair + key.length := rfl
      rw [hb, Pair.bytes, hold]
      exact Nat.le_add_right _ _
    have hreplace : isValidForReplace (tombstone key 0).getCreated old = true :=
      Database.isValidForReplace_zero old
    rw [hkey, hget]
    dsimp only
    rw [if_neg (not_not.mpr hreplace), if_pos ⟨rfl, hsize⟩]
    have hput := lookup_put_self Pair.key ((tombstone key 0).createHint hv now old) m
    have hsame : ((tombstone key 0).createHint hv now old).key = key := hold
    rw [hsame] at hput
    exact ⟨Status.noConfusion, _, hput, by simp [tombstone, withTimes, Pair.isTombstone,
      expiresTombstone], rfl⟩

/-- Without room the list stays as it is. -/
theorem plainInsert_refused {key : Key} (hk : isKeyValid key) (now : UInt64) {m : List Pair}
    (h : get key m = none) :
    plainInsert (tombstone key 0) now true false m = (⟨.ERROR_NO_MEMORY, none⟩, m) := by
  have hv : (tombstone key 0).valid = true := decide_eq_true hk
  have hkey : (tombstone key 0).getKey = key := rfl
  unfold plainInsert
  rw [dif_pos hv, hkey, h]
  rfl

/-- A key that was erased is not there. -/
theorem plainErase_get {m : List Pair} (h : Increasing Pair.key m) (key : Key) :
    get key (plainErase key m).2 = none := by
  unfold plainErase
  cases hget : get key m with
  | none => exact hget
  | some old => exact h.lookup_remove_self

/-- A pair copied to an empty list is there if there is room. -/
theorem plainInsert_clone (p : Pair) (now : UInt64) (fits : Bool) :
    (plainInsert (clone p) now true fits []).2 = if fits then [p] else [] := by
  have hv : (clone p).valid = true := rfl
  unfold plainInsert
  rw [dif_pos hv]
  cases fits <;> rfl

/-- The list in front after the tombstone was put into it or not. -/
theorem Good.getPair_written (h : Good s m1 m2) {key : Key} (hk : isKeyValid key) (now : UInt64)
    (ok : Bool) (hok : ok = true → ∃ p, get key m1 = some p ∧ p.isTombstone = true ∧
      p.created = now.toNat) (hnone : ok = false → get key m1 = none) :
    ∃ o, ConcurrentFlushList.getPair s key = some o ∧
      (Gone o ↔ Gone (behind m2 s.tables key (if ok then some (stamp key hk now) else none))) := by
  refine ⟨_, h.getPair key, ?_⟩
  rw [getNewestPair_none]
  cases ok with
  | false =>
    rw [hnone rfl]
    exact Iff.rfl
  | true =>
    obtain ⟨p, hp, ht, hc⟩ := hok rfl
    rw [hp]
    exact ((twin_stamp hk ht hc).behind m2 s.tables key).gone_iff

/-- The tombstone goes straight into the first list. -/
theorem Good.insert_direct (h : Good s m1 m2) {key : Key} (hk : isKeyValid key) (now : UInt64) :
    ∃ r l o, s.list1.insertF (tombstone key 0) now = some (r, l) ∧
      (room s.list1 key = true → r.status ≠ .ERROR_NO_MEMORY) ∧
      ConcurrentFlushList.getPair { s with list1 := l } key = some o ∧
      (Gone o ↔ Gone (behind m2 s.tables key
        (if room s.list1 key then some (stamp key hk now) else none))) := by
  obtain ⟨r, l, m, e, hplain, hl, ha⟩ := h.shows1.insertF (tombstone key 0) now
  have hroom : room s.list1 key =
      ((get key m1).isSome || s.list1.fits (tombstone key 0).bytes) := by
    rw [room, h.shows1.pairs_eq]
  have hg := h.with1 hl ha
  cases hr : room s.list1 key with
  | true =>
    rw [hroom] at hr
    obtain ⟨hstatus, p, hp, ht, hc⟩ := plainInsert_tombstone hk now hr
    rw [hplain] at hstatus hp
    obtain ⟨o, ho, hgone⟩ := hg.getPair_written hk now true (fun _ => ⟨p, hp, ht, hc⟩)
      fun hf => absurd hf Bool.false_ne_true.symm
    exact ⟨r, l, o, e, fun _ => hstatus, ho, hgone⟩
  | false =>
    rw [hroom, Bool.or_eq_false_iff] at hr
    have hnone : get key m1 = none := Option.isSome_eq_false_iff.mp hr.1 |> Option.isNone_iff_eq_none.mp
    rw [hr.2, plainInsert_refused hk now hnone] at hplain
    obtain ⟨-, rfl⟩ := Prod.ext_iff.mp hplain
    obtain ⟨o, ho, hgone⟩ := hg.getPair_written hk now false
      (fun hf => absurd hf Bool.false_ne_true) fun _ => hnone
    exact ⟨r, l, o, e, fun hf => absurd hf Bool.false_ne_true, ho, hgone⟩

/-- The tombstone is copied into the first list, which is empty. -/
theorem Good.insert_clone (h : Good s [] m2) {key : Key} (hk : isKeyValid key)
    (hv : (tombstone key 0).valid = true) (now : UInt64) :
    ∃ r l o, s.list1.insertF (clone ((tombstone key 0).create hv now)) now = some (r, l) ∧
      ConcurrentFlushList.getPair { s with list1 := l } key = some o ∧
      (Gone o ↔ Gone (behind m2 s.tables key
        (if s.list1.fits (tombstone key 0).bytes then some (stamp key hk now) else none))) := by
  obtain ⟨r, l, m, e, hplain, hl, ha⟩ :=
    h.shows1.insertF (clone ((tombstone key 0).create hv now)) now
  have hbytes : (clone ((tombstone key 0).create hv now)).bytes = (tombstone key 0).bytes :=
    (tombstone key 0).create_bytes hv now
  have hm := plainInsert_clone ((tombstone key 0).create hv now) now
    (s.list1.fits (tombstone key 0).bytes)
  rw [← hbytes, hplain] at hm
  dsimp only at hm
  have hg := h.with1 hl ha
  refine ⟨r, l, ?_⟩
  have hwritten := hg.getPair_written hk now (s.list1.fits (tombstone key 0).bytes)
    (fun hf => ?_) fun hf => ?_
  · obtain ⟨o, ho, hgone⟩ := hwritten
    exact ⟨o, e, ho, hgone⟩
  · rw [← hbytes] at hf
    rw [hm, if_pos hf]
    exact ⟨_, if_pos rfl, by simp [tombstone, full, Pair.isTombstone], rfl⟩
  · rw [← hbytes] at hf
    rw [hm, if_neg (by rw [hf]; exact Bool.false_ne_true)]
    rfl

theorem align_zero : align 0 = 0 := rfl

theorem align_le (n : ℕ) : align n ≤ n + 7 := by
  unfold align
  omega

/-- Where the predicate asks for no flush, the arena has room. -/
theorem fits_of_predicate {l : MemList} {bytes : ℕ} (h : predicate l bytes = false) :
    l.fits bytes = true := by
  have hfree := of_decide_eq_false h
  have halign := align_le l.list.alloc
  have hmargin : SAFE_MARGIN = 1024 := rfl
  unfold Arena.getFreeMemory at hfree
  refine decide_eq_true ?_
  omega

/-- A tombstone fits in an arena that is not used. -/
theorem fits_of_fresh {l : MemList} (h0 : l.list.alloc = 0) (hlarge : minArena ≤ l.arena.size)
    {key : Key} (hk : isKeyValid key) : l.fits (tombstone key 0).bytes = true := by
  have hb : (tombstone key 0).bytes = 20 + key.length := rfl
  have hn : INTERNAL_NODE_SIZE = 28 := rfl
  have hmin : minArena = 268435456 := rfl
  have hlen : key.length ≤ 1023 := hk.2
  refine decide_eq_true ?_
  rw [h0, align_zero, hb, hn]
  omega

/-- The tombstone goes through the code that flushes. -/
theorem Good.insert_flushing (h : Good s m1 m2) {key : Key} (hk : isKeyValid key) (now : UInt64)
    (found : List Table) :
    ∃ y o, ConcurrentFlushList.insertF (tombstone key 0) now found s = some y ∧
      ConcurrentFlushList.getPair y.2 key = some o ∧
      (Gone o ↔
        if predicate s.list1 (tombstone key 0).bytes = true ∧ s.list1.empty = false then
          Gone (behind m1 (if s.list2.empty then s.tables else found) key
            (some (stamp key hk now)))
        else Gone (behind m2 s.tables key
          (if room s.list1 key then some (stamp key hk now) else none))) := by
  have hv : (tombstone key 0).valid = true := decide_eq_true hk
  unfold ConcurrentFlushList.insertF
  rw [dif_pos hv]
  cases hp : predicate s.list1 (tombstone key 0).bytes with
  | false =>
    obtain ⟨r, l, o, e, hstatus, ho, hgone⟩ := h.insert_direct hk now
    have hroom : room s.list1 key = true := by
      rw [room, fits_of_predicate hp, Bool.or_true]
    refine ⟨(r, { s with list1 := l }), o, ?_, ho, ?_⟩
    · rw [if_neg Bool.false_ne_true]
      simp only [e, Option.bind_eq_bind, Option.bind_some, if_pos (hstatus hroom), Option.pure_def]
    · rw [if_neg (fun hc => Bool.false_ne_true hc.1)]
      exact hgone
  | true =>
    rw [if_pos rfl]
    unfold createFlushCloneInsert
    by_cases hm : m1 = []
    · subst hm
      have hempty : s.list1.empty = true := h.shows1.empty_iff.mpr rfl
      obtain ⟨r, l, o, e, ho, hgone⟩ := h.insert_clone hk hv now
      have hroom : room s.list1 key = s.list1.fits (tombstone key 0).bytes := by
        rw [room, h.shows1.pairs_eq]
        rfl
      refine ⟨(r, { s with list1 := l }), o, ?_, ho, ?_⟩
      · simp only [h.held.flush_nil rfl found, e, Option.bind_eq_bind, Option.bind_some, Option.pure_def]
      · rw [if_neg (fun hc => Bool.false_ne_true (hc.2.symm.trans hempty)), hroom]
        exact hgone
    · have hempty : s.list1.empty = false := by
        rw [Bool.eq_false_iff]
        exact fun he => hm (h.shows1.empty_iff.mp he)
      obtain ⟨s', e', hs, h0, htables⟩ := h.held.flush hm found
      have hg := hs.good
      obtain ⟨r, l, o, e, ho, hgone⟩ := hg.insert_clone hk hv now
      refine ⟨(r, { s' with list1 := l }), o, ?_, ho, ?_⟩
      · simp only [e', e, Option.bind_eq_bind, Option.bind_some, Option.pure_def]
      · rw [if_pos ⟨rfl, hempty⟩, ← htables]
        rw [fits_of_fresh h0 hg.large1 hk, if_pos rfl] at hgone
        exact hgone

/-- An erase shows nothing or a tombstone exactly if the layers behind are covered. -/
theorem Good.erase_iff (h : Good s m1 m2) {et : DualListEraseType}
    (het : et = .TOMBSTONE ∨ et = .SMART_TOMBSTONE) {key : Key} (hk : isKeyValid key)
    (now : UInt64) (found : List Table) :
    ∃ y o, erase et key now found s = some y ∧ ConcurrentFlushList.getPair y.2 key = some o ∧
      (Gone o ↔ Covered et s key hk now found) := by
  unfold Covered erase
  rw [h.shows1.pairs_eq, h.shows2.pairs_eq]
  rcases het with rfl | rfl
  · obtain ⟨y, o, e, ho, hgone⟩ := h.insert_flushing hk now found
    have hne : ¬ (DualListEraseType.TOMBSTONE = .SMART_TOMBSTONE ∧ s.tables = []) :=
      fun hc => DualListEraseType.noConfusion hc.1
    rw [if_neg hne]
    exact ⟨y, o, e, ho, hgone⟩
  · by_cases ht : s.tables = []
    · dsimp only
      rw [if_pos ht, if_pos ⟨rfl, ht⟩]
      unfold eraseInner
      by_cases h2 : s.list2.empty = true
      · obtain rfl := h.shows2.empty_iff.mp h2
        obtain ⟨r, l, m, e, hplain, hl, ha⟩ := h.shows1.erase key
        refine ⟨(r, { s with list1 := l }), none, ?_, ?_, ?_⟩
        · simp only [if_pos h2, e, Option.map_some]
        · rw [(h.with1 hl ha).getPair key, ht, getNewestPair_none]
          have hm : m = (plainErase key m1).2 := by rw [hplain]
          rw [hm, plainErase_get h.shows1.increasing key]
          rfl
        · exact ⟨fun _ => Or.inl h2, fun _ p hp => absurd hp (Option.not_mem_none p)⟩
      · obtain ⟨r, l, o, e, -, ho, hgone⟩ := h.insert_direct hk now
        refine ⟨(r, { s with list1 := l }), o, ?_, ho, ?_⟩
        · simp only [if_neg h2, e, Option.map_some]
        · rw [ht] at hgone
          rw [hgone, or_iff_right h2]
    · dsimp only
      obtain ⟨y, o, e, ho, hgone⟩ := h.insert_flushing hk now found
      rw [if_neg ht, if_neg (fun hc => ht hc.2)]
      exact ⟨y, o, e, ho, hgone⟩

/-- In every state that is reached, an erase shows nothing or a tombstone exactly if the layers
behind are covered. -/
theorem erase_covered_iff {et : DualListEraseType}
    (het : et = .TOMBSTONE ∨ et = .SMART_TOMBSTONE) (c : Config) (events : List Event) {key : Key}
    (hk : isKeyValid key) (now : UInt64) (found : List Table) :
    ∃ s y o, run et c.start events = some s ∧ erase et key now found s = some y ∧
      getPair y.2 key = some o ∧ (Gone o ↔ Covered et s key hk now found) := by
  obtain ⟨s, m1, m2, e, hg⟩ := (good_start c).exists_run et events
  obtain ⟨y, o, he, ho, hgone⟩ := hg.erase_iff het hk now found
  exact ⟨s, y, o, e, he, ho, hgone⟩

/-- Two arenas of the least size and no table. -/
def smallConfig : Config := ⟨⟨4096, minArena⟩, ⟨4096 + minArena, minArena⟩, [], le_rfl, le_rfl⟩

theorem erase_covered_iff_small :
    ∃ s y o, run .SMART_TOMBSTONE smallConfig.start [] = some s ∧
      erase .SMART_TOMBSTONE [1] 5 [] s = some y ∧ getPair y.2 [1] = some o ∧
      (Gone o ↔ Covered .SMART_TOMBSTONE s [1] (by decide) 5 []) :=
  erase_covered_iff (Or.inr rfl) smallConfig [] (by decide) 5 []

/-! ## An erase that is lost -/

/-- The first insert into a new list. -/
theorem new_insertF (arena : Arena) {factory : Factory} (hv : factory.valid = true) (now : UInt64)
    (hfits : INTERNAL_NODE_SIZE + factory.bytes ≤ arena.size) :
    ∃ r l, (MemList.new arena).insertF factory now = some (r, l) ∧ r.status = .INSERTED ∧
      Shows l [factory.create hv now] ∧ l.arena = arena ∧
      l.list.alloc = INTERNAL_NODE_SIZE + factory.bytes := by
  obtain ⟨r, l, m, e, hplain, hl, ha⟩ := (shows_new arena).insertF factory now
  have hf : (MemList.new arena).fits factory.bytes = true := by
    refine decide_eq_true ?_
    have h0 : (MemList.new arena).list.alloc = 0 := rfl
    rw [h0, align_zero, Nat.zero_add]
    exact hfits
  have hone : plainInsert factory now true true [] =
      (⟨.INSERTED, some (factory.create hv now)⟩, [factory.create hv now]) := by
    unfold plainInsert
    rw [dif_pos hv]
    rfl
  rw [hf, hone] at hplain
  obtain ⟨hr, hm⟩ := Prod.ext_iff.mp hplain
  dsimp only at hr hm
  refine ⟨r, l, e, by rw [← hr], hm ▸ hl, ha, ?_⟩
  -- the position of the arena is read off the insert itself
  have hx : arena.allocator.xallocate (INTERNAL_NODE_SIZE + factory.bytes) 0 =
      (some arena.data, INTERNAL_NODE_SIZE + factory.bytes) := by
    unfold Arena.allocator
    dsimp only
    rw [align_zero, Nat.zero_add, if_neg (Nat.not_lt.mpr hfits)]
    rfl
  rw [MemList.insertF, Option.map_eq_some_iff] at e
  obtain ⟨y, e, hy⟩ := e
  have hl' : y.2 = l.list := congrArg (fun z => z.2.list) hy
  have hpos : y.2.alloc = INTERNAL_NODE_SIZE + factory.bytes := by
    unfold AVLList.insertF at e
    rw [dif_pos hv] at e
    dsimp only [MemList.new, AVL.empty, allocateNode] at e
    rw [hx] at e
    rw [← Option.some.inj e]
  rw [← hl', hpos]

/-- The first insert into a new list, through the flush list. -/
theorem step_new (et : DualListEraseType) (arena : Arena) (list2 : MemList) (tables : List Table)
    {factory : Factory} (hv : factory.valid = true) (now : UInt64) (found : List Table)
    (hfits : factory.bytes + INTERNAL_NODE_SIZE + SAFE_MARGIN + 8 ≤ arena.size) :
    ∃ l, step et ⟨MemList.new arena, list2, tables⟩ (.insert factory now found) =
        some ⟨l, list2, tables⟩ ∧
      Shows l [factory.create hv now] ∧ l.arena = arena ∧
      l.list.alloc = INTERNAL_NODE_SIZE + factory.bytes := by
  obtain ⟨r, l, e, hr, hl, ha, hpos⟩ := new_insertF arena hv now (by omega)
  refine ⟨l, ?_, hl, ha, hpos⟩
  have hp : ¬ predicate (MemList.new arena) factory.bytes = true := by
    have hfree : ¬ arena.size - 0 < factory.bytes + INTERNAL_NODE_SIZE + SAFE_MARGIN + 8 := by
      omega
    exact fun h => hfree (of_decide_eq_true h)
  have hstatus : r.status ≠ .ERROR_NO_MEMORY := by
    rw [hr]
    exact Status.noConfusion
  rw [step, insertF, dif_pos hv, if_neg hp]
  simp only [e, Option.bind_eq_bind, Option.bind_some, if_pos hstatus, Option.pure_def,
    Option.map_some]

/-- The only pair of a list is found under its key. -/
theorem lookup_singleton {key : Key} {p : Pair} (h : p.key = key) : get key [p] = some p := by
  have hat : get key ([] ++ p :: []) = some p :=
    lookup_at (fun _ hz => absurd hz List.not_mem_nil) h
  exact hat

theorem normal_bytes (key val : Key) : (normal key val 0 0).bytes = 20 + key.length + val.length :=
  rfl

theorem normal_valid {key val : Key} (hk : isKeyValid key) (hv : isValValid val) :
    (normal key val 0 0).valid = true := decide_eq_true ⟨hk, hv⟩

theorem tombstone_bytes (key : Key) : (tombstone key 0).bytes = 20 + key.length := rfl

/-- A key of the largest size. -/
def longKey : Key := List.replicate 1023 1

theorem longKey_length : longKey.length = 1023 := List.length_replicate

theorem longKey_valid : isKeyValid longKey := by
  rw [isKeyValid, longKey_length]
  decide

/-- A pair that leaves of an arena what the predicate wants to see free, and no more. -/
def filling : Factory := normal [2] (List.replicate (minArena - 1081) 1) 0 0

theorem filling_valid : filling.valid = true := by
  refine normal_valid (by decide) ?_
  rw [isValValid, List.length_replicate]
  decide

theorem filling_bytes : filling.bytes = minArena - 1060 := by
  have hmin : minArena = 268435456 := rfl
  rw [filling, normal_bytes, List.length_replicate, List.length_singleton]
  omega

/-- The list that is saved has the key, the arena in use is full and there is no table yet: the
tombstone goes to the list that takes writes, finds no room, and the pair is still read. -/
theorem erase_lost :
    ∃ s y p, run .SMART_TOMBSTONE smallConfig.start
        [.insert (normal longKey [1] 0 0) 10 [], .flush [], .insert filling 20 []] = some s ∧
      erase .SMART_TOMBSTONE longKey 30 [] s = some y ∧
      getPair y.2 longKey = some (some p) ∧ p.isTombstone = false := by
  have hmin : minArena = 268435456 := rfl
  have hn : INTERNAL_NODE_SIZE = 28 := rfl
  have hmargin : SAFE_MARGIN = 1024 := rfl
  have hv : (normal longKey [1] 0 0).valid = true := normal_valid longKey_valid (by decide)
  have hbytes : (normal longKey [1] 0 0).bytes = 1044 := by
    rw [normal_bytes, longKey_length, List.length_singleton]
  have hsize1 : smallConfig.arena1.size = minArena := rfl
  have hsize2 : smallConfig.arena2.size = minArena := rfl
  obtain ⟨l1, e1, hl1, ha1, -⟩ := step_new .SMART_TOMBSTONE smallConfig.arena1
    (MemList.new smallConfig.arena2) [] hv 10 [] (by rw [hbytes, hsize1]; omega)
  obtain ⟨l2, e2, hl2, ha2, hpos2⟩ := step_new .SMART_TOMBSTONE smallConfig.arena2 l1 []
    filling_valid 20 [] (by rw [filling_bytes, hsize2]; omega)
  have hempty1 : l1.empty = false := by
    rw [Bool.eq_false_iff]
    exact fun he => List.cons_ne_nil _ _ (hl1.empty_iff.mp he)
  have eflush : step .SMART_TOMBSTONE ⟨l1, MemList.new smallConfig.arena2, []⟩ (.flush []) =
      some ⟨MemList.new smallConfig.arena2, l1, []⟩ := by
    have hnew : (MemList.new smallConfig.arena2).empty = true :=
      (shows_new smallConfig.arena2).empty_iff.mpr rfl
    rw [step, flush, hempty1, if_neg Bool.false_ne_true, hnew, if_pos rfl]
  have hgood : Good ⟨l2, l1, []⟩ [filling.create filling_valid 20]
      [(normal longKey [1] 0 0).create hv 10] :=
    ⟨hl2, hl1, by rw [ha2, hsize2], by rw [ha1, hsize1],
      fun h => absurd h (List.cons_ne_nil _ _)⟩
  obtain ⟨y, o, he, ho, hgone⟩ := hgood.erase_iff (Or.inr rfl) longKey_valid 30 []
  have hroom : room l2 longKey = false := by
    rw [room, hl2.pairs_eq, Bool.or_eq_false_iff]
    constructor
    · have hne : ∀ p ∈ [filling.create filling_valid 20], p.key ≠ longKey := by
        intro p hp heq
        rw [List.mem_singleton.mp hp] at heq
        have hlen : 1 = longKey.length := congrArg List.length heq
        rw [longKey_length] at hlen
        omega
      have hget : get longKey [filling.create filling_valid 20] = none := lookup_eq_none hne
      rw [hget]
      rfl
    · refine decide_eq_false ?_
      rw [hpos2, filling_bytes, ha2, tombstone_bytes, longKey_length, align]
      rw [hsize2]
      omega
  have halive : ¬ Gone o := by
    rw [hgone, Covered]
    dsimp only
    rw [if_pos ⟨rfl, rfl⟩, hroom, hl1.pairs_eq]
    rintro (h | h)
    · exact Bool.false_ne_true (hempty1.symm.trans h)
    · have hfront : get longKey [(normal longKey [1] 0 0).create hv 10] =
          some ((normal longKey [1] 0 0).create hv 10) :=
        lookup_singleton ((normal longKey [1] 0 0).create_key hv 10)
      have hdead := h ((normal longKey [1] 0 0).create hv 10) (by
        rw [behind, hfront]
        rfl)
      exact Bool.false_ne_true hdead
  obtain ⟨p, hp, hdead⟩ : ∃ p ∈ o, p.isTombstone ≠ true := by
    by_contra hall
    exact halive fun p hp => by_contra fun hne => hall ⟨p, hp, hne⟩
  refine ⟨_, y, p, ?_, he, ?_, Bool.eq_false_iff.mpr hdead⟩
  · exact (run_cons e1 _).trans ((run_cons eflush _).trans (run_cons e2 []))
  · rw [ho, hp]

end HM4.ConcurrentFlushList
