import HM4.AccumulateResults
import HM4.ConcurrentFlushList
import HM4.General.Overlay

/-!
# Changing ranges of pairs

Some commands delete a range of pairs, or change when they expire. They walk over the pairs that
are seen in the list that takes writes, the list that is being saved and the tables. A pair that
lies in the memory of the first is changed in place; the others are collected, and written when the
walk is over. A write may flush the list, which takes away what was collected: then the walk starts
again, a few times. When the commands delete, they collect copies of the keys instead.
-/

namespace HM4.MutableX

open LexPrefix Bytes Pairs PairFactory MemList KeyedList Database Overlay
open AccumulateResults (StopPrefixPredicate ContainerSize)
open ConcurrentFlushList (DualListEraseType)

/-! ## The store -/

/-- The list that takes writes, the list that is being saved, and the tables, newest first. -/
structure Store where
  active : List Pair
  saved : List Pair
  tables : List (List Pair)
  /-- `mutable_version`. -/
  version : ℕ
  /-- How often a list was cleared, and the tables were loaded again. -/
  cleared : ℕ
  increasing : ∀ l ∈ active :: saved :: tables, Increasing Pair.key l

namespace Store

/-- What an iterator over all lists visits, and what a lookup finds. -/
def view (s : Store) : List Pair := overlays Pair.key Pair.created s.active (s.saved :: s.tables)

/-- The first list changes. -/
def withActive (m : List Pair) (hm : Increasing Pair.key m) (s : Store) : Store :=
  { s with
    active := m
    increasing := List.forall_mem_cons.mpr ⟨hm, (List.forall_mem_cons.mp s.increasing).2⟩ }

/-- `ConcurrentFlushList::flush`: the list that was saved has become the newest table. -/
def flush (s : Store) : Store :=
  if s.active = [] then s
  else if s.saved = [] then
    { active := [], saved := s.active, tables := s.tables, version := s.version + 1
      cleared := s.cleared
      increasing := by
        have h := List.forall_mem_cons.mp s.increasing
        exact List.forall_mem_cons.mpr ⟨List.Pairwise.nil,
          List.forall_mem_cons.mpr ⟨h.1, (List.forall_mem_cons.mp h.2).2⟩⟩ }
  else
    { active := [], saved := s.active, tables := s.saved :: s.tables, version := s.version + 1
      cleared := s.cleared + 1
      increasing := List.forall_mem_cons.mpr ⟨List.Pairwise.nil, s.increasing⟩ }

end Store

/-- What the lists say to a write. -/
structure Turn where
  /-- The list has to be flushed first. -/
  flush : Bool
  /-- The pair of the key lies where it may be changed in place. -/
  owned : Bool
  /-- There is memory for a new pair. -/
  memory : Bool

namespace Store

theorem increasing_active (s : Store) : Increasing Pair.key s.active :=
  s.increasing _ List.mem_cons_self

/-- An insert into the first list. -/
def insertActive (t : Turn) (factory : Factory) (now : UInt64) (s : Store) : Store :=
  s.withActive (plainInsert factory now t.owned t.memory s.active).2
    (increasing_plainInsert s.increasing_active factory now t.owned t.memory)

/-- `flushlist_impl_::insertF`; a pair that waits for the flush is cloned into the list. -/
def insertF (t : Turn) (factory : Factory) (now : UInt64) (s : Store) : Store :=
  if h : factory.valid = true then
    if t.flush = true then s.flush.insertActive t (clone (factory.create h now)) now
    else s.insertActive t factory now
  else s

/-- `erase` from the first list. -/
def eraseActive (key : Key) (s : Store) : Store :=
  s.withActive (plainErase key s.active).2 (increasing_plainErase s.increasing_active key)

/-- `DualList::erase___` of the flush list, over its two lists. -/
def eraseInner (et : DualListEraseType) (t : Turn) (key : Key) (now : UInt64) (s : Store) : Store :=
  match et with
  | .NONE => s
  | .NORMAL => s.eraseActive key
  | .TOMBSTONE => s.insertActive t (tombstone key 0) now
  | .SMART_TOMBSTONE =>
    if s.saved = [] then s.eraseActive key else s.insertActive t (tombstone key 0) now

/-- `DualList::erase___` over the flush list and the tables. -/
def erase (et : DualListEraseType) (t : Turn) (key : Key) (now : UInt64) (s : Store) : Store :=
  match et with
  | .NONE => s
  | .NORMAL => s.eraseInner et t key now
  | .TOMBSTONE => s.insertF t (tombstone key 0) now
  | .SMART_TOMBSTONE =>
    if s.tables = [] then s.eraseInner et t key now else s.insertF t (tombstone key 0) now

/-- `insertHint` of a pair that lies in the memory of the first list. -/
def insertHint (t : Turn) (hint : Pair) (factory : Factory) (now : UInt64) (s : Store) : Store :=
  if h : factory.valid = true ∧ factory.bytes ≤ hint.bytes then
    s.withActive (put Pair.key (factory.createHint h.1 now hint) s.active) s.increasing_active.put
  else s.insertF t factory now

end Store

/-- What a command reads of its surroundings. -/
structure Env where
  et : DualListEraseType
  /-- The clock. -/
  now : UInt64
  /-- Of the pairs of the first list, those that its allocator knows as its own. -/
  owns : Key → Bool
  /-- For the pairs that are changed in place. -/
  hint : Key → Turn
  /-- For the writes of the command, one after another. -/
  turn : ℕ → Turn

/-- `canInsertHintList`. -/
def Env.canInsertHint (env : Env) (s : Store) (hint : Pair) : Bool :=
  get hint.key s.active = some hint ∧ env.owns hint.key = true

/-! ## Predicates -/

/-- What is done with a pair. -/
inductive Predicate
  /-- `DeletePredicate`. -/
  | delete
  /-- `PersistPredicate`. -/
  | persist
  /-- `ExpirePredicate`. -/
  | expire (expires : UInt32)
  /-- `ExpireAtPredicate`. -/
  | expireAt (time : UInt32)

namespace Predicate

/-- `BIG_BUFFER`. -/
def BIG_BUFFER : Predicate → Bool
  | delete => true
  | persist => false
  | expire _ => false
  | expireAt _ => false

/-- `mytime::now32`. -/
def now32 (now : UInt64) : ℕ := to32 now.toNat

/-- `process`. -/
def process (env : Env) (t : Turn) (hint : Pair) (s : Store) : Predicate → Store
  | delete => s.erase env.et t hint.key env.now
  | persist => s.insertF t (normal hint.key hint.val 0 0) env.now
  | expire expires => s.insertF t (normal hint.key hint.val expires 0) env.now
  | expireAt time =>
    if time.toNat ≤ now32 env.now then s.erase env.et t hint.key env.now
    else
      s.insertF t (normal hint.key hint.val (UInt32.ofNat (time.toNat - now32 env.now)) 0) env.now

/-- `processHint`. -/
def processHint (env : Env) (hint : Pair) (s : Store) : Predicate → Store
  | delete => s.insertHint (env.hint hint.key) hint (tombstone hint.key 0) env.now
  | persist => s.insertHint (env.hint hint.key) hint (expires hint.key hint.val 0 0) env.now
  | expire exp => s.insertHint (env.hint hint.key) hint (expires hint.key hint.val exp 0) env.now
  | expireAt time =>
    if time.toNat ≤ now32 env.now then
      s.insertHint (env.hint hint.key) hint (tombstone hint.key 0) env.now
    else
      s.insertHint (env.hint hint.key) hint
        (expires hint.key hint.val (UInt32.ofNat (time.toNat - now32 env.now)) 0) env.now

end Predicate

/-! ## The walk -/

/-- `ITERATIONS_PROCESS_X`. -/
def ITERATIONS_PROCESS_X : ℕ := ContainerSize

/-- `PASSES_PROCESS_X`. -/
def PASSES_PROCESS_X : ℕ := 3

/-- The last key, the pairs that were collected, and the store. -/
structure Scan where
  key : Key
  container : List Pair
  store : Store

/-- `scanKeysAndProcessInPlace_` from a number of iterations on. -/
def scanKeysAndProcessInPlace (env : Env) (p : Predicate) (stop : Key → Bool) :
    (iterations : ℕ) → List Pair → Store → Scan
  | _, [], s => ⟨[], [], s⟩
  | iterations, hint :: it, s =>
    if stop hint.key = true then ⟨[], [], s⟩
    else if ITERATIONS_PROCESS_X < iterations + 1 then ⟨hint.key, [], s⟩
    else if ¬isOK env.now hint = true then
      scanKeysAndProcessInPlace env p stop (iterations + 1) it s
    else if env.canInsertHint s hint = true then
      scanKeysAndProcessInPlace env p stop (iterations + 1) it (p.processHint env hint s)
    else
      let rest := scanKeysAndProcessInPlace env p stop (iterations + 1) it s
      { rest with container := hint :: rest.container }

/-- `scanForLastKey_` from a number of iterations on. -/
def scanForLastKey (now : UInt64) (stop : Key → Bool) : (iterations : ℕ) → List Pair → Key
  | _, [] => []
  | iterations, pair :: it =>
    if stop pair.key = true then []
    else if ITERATIONS_PROCESS_X < iterations + 1 then pair.key
    else if ¬isOK now pair = true then scanForLastKey now stop (iterations + 1) it
    else pair.key

/-- `list.find` of the view. -/
def find (key : Key) (s : Store) : List Pair := fromKey Pair.key key s.view

/-- The loop over what was collected: whether a write flushed the list, which ends it, and how many
writes there were. -/
def processContainer (env : Env) (p : Predicate) : List Pair → ℕ → Store → Bool × ℕ × Store
  | [], n, s => (false, n, s)
  | x :: container, n, s =>
    let s' := p.process env (env.turn n) x s
    if s.version ≠ s'.version then (true, n + 1, s')
    else processContainer env p container (n + 1) s'

/-- `process_x_` with so many passes left. -/
def processPasses (env : Env) (p : Predicate) (stop : Key → Bool) (key : Key) :
    (passes : ℕ) → ℕ → Store → Key × Store
  | 0, _, s => ([], s)
  | passes + 1, n, s =>
    let scan := scanKeysAndProcessInPlace env p stop 0 (find key s) s
    let (flushed, n, s') := processContainer env p scan.container n scan.store
    if flushed = true then
      if passes = 0 then (scanForLastKey env.now stop 0 (find key s'), s')
      else processPasses env p stop key passes n s'
    else (scan.key, s')

/-- The loop over the keys that were copied. -/
def eraseContainer (env : Env) (p : Predicate) (container : List Pair) (s : Store) : Store :=
  (container.foldl (fun (n, s) x => (n + 1, p.process env (env.turn n) x s)) (0, s)).2

/-- `process_x_` of a predicate with large buffers. The last key is that of a pair: if a list was
cleared since, it may be gone. -/
def processBig (env : Env) (p : Predicate) (stop : Key → Bool) (key : Key) (s : Store) :
    Option Key × Store :=
  let scan := scanKeysAndProcessInPlace env p stop 0 (find key s) s
  let s' := eraseContainer env p scan.container scan.store
  (if scan.key = [] ∨ s'.cleared = s.cleared then some scan.key else none, s')

/-- `process_x`: the key from where to go on, if it can be told. -/
def processX (env : Env) (p : Predicate) (stop : Key → Bool) (key : Key) (s : Store) :
    Option Key × Store :=
  if p.BIG_BUFFER = true then processBig env p stop key s
  else
    let (last, s') := processPasses env p stop key PASSES_PROCESS_X 0 s
    (some last, s')

/-! ## The commands -/

/-- Where a walk stops. -/
inductive Stop
  /-- `StopPrefixPredicate`. -/
  | prefixed (pre : Key)
  /-- `StopRangePredicate`. -/
  | range (keyEnd : Key)

/-- The predicate of a stop. -/
def Stop.stops : Stop → Key → Bool
  | prefixed pre, key => StopPrefixPredicate pre key
  | range keyEnd, key => keyEnd < key

/-- The commands that change a range. -/
inductive Command
  | XNDEL
  | XRDEL
  | XNPERSIST
  | XRPERSIST
  | XNEXPIRE
  | XREXPIRE
  | XNEXPIREAT
  | XREXPIREAT
  deriving DecidableEq

namespace Command

/-- What a command does with each pair of the range. -/
def predicate (p : List Key) : Command → Predicate
  | XNDEL => .delete
  | XRDEL => .delete
  | XNPERSIST => .persist
  | XRPERSIST => .persist
  | XNEXPIRE => .expire (UInt32.ofNat (fromString 32 (p.getD 2 []) 0))
  | XREXPIRE => .expire (UInt32.ofNat (fromString 32 (p.getD 2 []) 0))
  | XNEXPIREAT => .expireAt (UInt32.ofNat (fromString 32 (p.getD 2 []) 0))
  | XREXPIREAT => .expireAt (UInt32.ofNat (fromString 32 (p.getD 2 []) 0))

/-- Where a command stops. -/
def stop (p : List Key) : Command → Stop
  | XNDEL => .prefixed (p.getD 2 [])
  | XRDEL => .range (p.getD 2 [])
  | XNPERSIST => .prefixed (p.getD 2 [])
  | XRPERSIST => .range (p.getD 2 [])
  | XNEXPIRE => .prefixed (p.getD 3 [])
  | XREXPIRE => .range (p.getD 3 [])
  | XNEXPIREAT => .prefixed (p.getD 3 [])
  | XREXPIREAT => .range (p.getD 3 [])

/-- How many parameters a command has, and the message if it has not. -/
def params : Command → ℕ × ErrorMessage
  | XNDEL => (3, .NEED_EXACT_PARAMS_2)
  | XRDEL => (3, .NEED_EXACT_PARAMS_2)
  | XNPERSIST => (3, .NEED_EXACT_PARAMS_2)
  | XRPERSIST => (3, .NEED_EXACT_PARAMS_2)
  | XNEXPIRE => (4, .NEED_EXACT_PARAMS_3)
  | XREXPIRE => (4, .NEED_EXACT_PARAMS_3)
  | XNEXPIREAT => (4, .NEED_EXACT_PARAMS_3)
  | XREXPIREAT => (4, .NEED_EXACT_PARAMS_3)

/-- The message if the stop is not valid; `XREXPIRE` has that of a prefix. -/
def stopMessage : Command → ErrorMessage
  | XNDEL => .EMPTY_PREFIX
  | XRDEL => .EMPTY_ENDCOND
  | XNPERSIST => .EMPTY_PREFIX
  | XRPERSIST => .EMPTY_ENDCOND
  | XNEXPIRE => .EMPTY_PREFIX
  | XREXPIRE => .EMPTY_PREFIX
  | XNEXPIREAT => .EMPTY_PREFIX
  | XREXPIREAT => .EMPTY_ENDCOND

end Command

/-- A prefix is not empty, and the end of a range is a valid key. -/
def Stop.Valid : Stop → Prop
  | prefixed pre => pre ≠ []
  | range keyEnd => isKeyValid keyEnd

instance (stop : Stop) : Decidable stop.Valid := by
  cases stop
  · exact inferInstanceAs (Decidable (_ ≠ _))
  · exact inferInstanceAs (Decidable (isKeyValid _))

/-- A command: its reply, if it can be told, and the store. -/
def Command.process (env : Env) (c : Command) (p : List Key) (s : Store) : Option Reply × Store :=
  if p.length ≠ c.params.1 then (some (.error c.params.2), s)
  else if ¬(c.stop p).Valid then (some (.error c.stopMessage), s)
  else
    let (last, s') := processX env (c.predicate p) (c.stop p).stops (p.getD 1 []) s
    (last.map .string, s')

end HM4.MutableX
