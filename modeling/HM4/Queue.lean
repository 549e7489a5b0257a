import HM4.IndexToken
import Mathlib.Data.List.Infix

/-!
# Queues

The values of a queue are kept under keys that end in the time of their adding, so the list has
them in the order in which they came. A pop looks for the first live one. Popped values leave dead
pairs at the front, so a control key tells from time to time from where to look.
-/

namespace HM4.Queue

open LexPrefix Bytes Pairs PairFactory MemList KeyedList Database IndexToken

/-! ## The commands -/

/-- `ITERATIONS_LOOPS_MAX`. -/
def ITERATIONS_LOOPS_MAX : ℕ := 100000

/-- `ITERATIONS_IDLE`. -/
def ITERATIONS_IDLE : ℕ := 10

/-- `MyIDGenerator::to_string_buffer_t_size`. -/
def to_string_buffer_t_size : ℕ := 24

/-- `isKeyValid`. -/
def isKeyValid (keyN : Key) : Prop :=
  keyN ≠ [] ∧ 0 < to_string_buffer_t_size + 1 + keyN.length ∧
    to_string_buffer_t_size + 1 + keyN.length ≤ maxKeySize

instance (keyN : Key) : Decidable (isKeyValid keyN) := inferInstanceAs (Decidable (_ ∧ _ ∧ _))

/-- The key of a value. -/
def keyOf (keyN id : Key) : Key := concatenateBuffer bufferKeySize [keyN, [separator], id]

/-- `keyControl`. -/
def keyControlOf (keyN : Key) : Key := concatenateBuffer bufferKeySize [keyN, [separator]]

/-- `SADD`; the id is what the generator gives. -/
def sadd (w : Write) (id : Key) (p : List Key) (db : Db) : Reply × Db :=
  if p.length ≠ 3 ∧ p.length ≠ 4 then (.error .NEED_EXACT_PARAMS_23, db)
  else
    let keyN := p.getD 1 []
    if ¬isKeyValid keyN then (.error .INVALID_KEY_SIZE, db)
    else
      let val := p.getD 2 []
      if ¬isValValid val then (.error .EMPTY_VAL, db)
      else
        let exp := if p.length = 4 then fromString 32 (p.getD 3 []) 0 else 0
        (.ok, insertF w.owned (normal (keyOf keyN id) val (UInt32.ofNat exp) 0) w.now db)

/-- What `SPOP` reads of its surroundings. -/
structure PopEnv where
  /-- The clock when the pair of a key is checked. -/
  check : Key → UInt64
  /-- For the key that is erased. -/
  erase : Write
  /-- For the write of the control key. -/
  ctrl : Write

/-- The check of a pair. -/
def PopEnv.alive (env : PopEnv) (p : Pair) : Bool := isOK (env.check p.key) p

/-- The update of the control key. -/
def setControl (env : PopEnv) (keyControl score : Key) (db : Db) : Db :=
  if score = [] then Database.erase env.ctrl keyControl db
  else Database.insert env.ctrl keyControl score db

/-- `getScore_`. -/
def getScore (keyControl key : Key) : Key := key.drop keyControl.length

/-- `finalizeOK_`. -/
def finalizeOK (env : PopEnv) (keyControl : Key) (p : Pair) (iterations : ℕ) (db : Db) :
    Reply × Db :=
  let score := getScore keyControl p.key
  (.string p.val,
    if ITERATIONS_IDLE < iterations then
      Database.erase env.erase p.key (setControl env keyControl score db)
    else Database.erase env.erase p.key db)

/-- `finalizeTryAgain_`. -/
def finalizeTryAgain (env : PopEnv) (keyControl : Key) (p : Pair) (db : Db) : Reply × Db :=
  (.string [], setControl env keyControl (getScore keyControl p.key) db)

/-- `collect_`: the pairs from the iterator on. -/
def collect (env : PopEnv) (keyControl : Key) (iterations : ℕ) (it : List Pair) (db : Db) :
    Reply × Db :=
  match it with
  | [] => (.string [], db)
  | p :: it =>
    if ¬keyControl <+: p.key then (.string [], db)
    else if env.alive p = true then finalizeOK env keyControl p iterations db
    else if ITERATIONS_LOOPS_MAX < iterations + 1 then finalizeTryAgain env keyControl p db
    else collect env keyControl (iterations + 1) it db

/-- `SPOP`. -/
def spop (env : PopEnv) (p : List Key) (db : Db) : Reply × Db :=
  if p.length ≠ 2 then (.error .NEED_EXACT_PARAMS_1, db)
  else
    let keyN := p.getD 1 []
    if ¬isKeyValid keyN then (.error .INVALID_KEY_SIZE, db)
    else
      let keyControl := keyControlOf keyN
      match fromKey Pair.key keyControl db with
      | [] => (.string [], db)
      | q :: it =>
        if q.key = keyControl then
          if env.alive q = true ∧ q.val.length ≤ to_string_buffer_t_size then
            collect env keyControl 0 (fromKey Pair.key (keyOf keyN q.val) db) db
          else
            match it with
            | [] => (.string [], db)
            | _ :: _ => collect env keyControl 0 it db
        else collect env keyControl 0 (q :: it) db

/-! ## Runs on one queue -/

/-- A call; its first parameter is the name of the command. -/
inductive Call
  | add (w : Write) (id cmd val : Key) (exp : Option Key)
  | pop (env : PopEnv) (cmd : Key)

/-- What a call does to a queue. -/
def Call.process (keyN : Key) : Call → Db → Reply × Db
  | add w id cmd val exp => sadd w id (cmd :: keyN :: val :: exp.toList)
  | pop env cmd => spop env [cmd, keyN]

/-- The seconds after which a value expires, if not zero. -/
def expOf (exp : Option Key) : ℕ := exp.elim 0 fun s => fromString 32 s 0

/-- The pair that a call adds. -/
def Call.item (keyN : Key) : Call → Option Pair
  | add w id _ val exp =>
    if h : (normal (keyOf keyN id) val (UInt32.ofNat (expOf exp)) 0).valid = true then
      some ((normal (keyOf keyN id) val (UInt32.ofNat (expOf exp)) 0).create h w.now)
    else none
  | pop _ _ => none

/-- What a call needs: a value that is not empty, and an id that fits its buffer. -/
def Call.Accepted : Call → Prop
  | add _ id _ val _ =>
    val ≠ [] ∧ isValValid val ∧ id ≠ [] ∧ id.length ≤ to_string_buffer_t_size
  | pop _ _ => True

/-- The ids that the generator gives in a run. -/
def ids (calls : List Call) : List Key :=
  calls.filterMap fun c =>
    match c with
    | .add _ id _ _ _ => some id
    | .pop _ _ => none

/-- The surroundings of the pops of a run. -/
def pops (calls : List Call) : List PopEnv :=
  calls.filterMap fun c =>
    match c with
    | .add _ _ _ _ _ => none
    | .pop env _ => some env

/-- The pairs that a run adds. -/
def items (keyN : Key) (calls : List Call) : List Pair := calls.filterMap (Call.item keyN)

/-- What a pop finds dead is dead for all later ones. -/
def Steady (keyN : Key) (calls : List Call) : Prop :=
  (pops calls).Pairwise fun c d => ∀ x ∈ items keyN calls, c.alive x = false → d.alive x = false

section Runs

variable (keyN : Key)

/-- All values that are not popped come behind the position in the control key, but for those that
some pop found dead. -/
def Positioned (past : List PopEnv) (queue : List Pair) (db : Db) : Prop :=
  ∀ now, ∀ s ∈ holds now db (keyControlOf keyN), ∀ x ∈ queue,
    keyControlOf keyN ++ s < x.key ∨ ∃ env ∈ past, env.alive x = false

/-- A run of calls on a queue of values that were added and not popped: each pop returns the first
live one, or nothing if there is none; only if very many are dead it may return nothing and pop
nothing. -/
def Fifo : List PopEnv → List Pair → List Call → Db → Prop
  | past, queue, [], db => Positioned keyN past queue db
  | past, queue, .add w id cmd val exp :: calls, db =>
    Positioned keyN past queue db ∧
      ((Call.add w id cmd val exp).process keyN db).1 = .ok ∧
      Fifo past (queue ++ ((Call.add w id cmd val exp).item keyN).toList) calls
        ((Call.add w id cmd val exp).process keyN db).2
  | past, queue, .pop env cmd :: calls, db =>
    Positioned keyN past queue db ∧
      ((((Call.pop env cmd).process keyN db).1 =
            .string ((queue.find? env.alive).elim [] Pair.val) ∧
          Fifo (past ++ [env]) (queue.eraseP env.alive) calls
            ((Call.pop env cmd).process keyN db).2) ∨
        (ITERATIONS_LOOPS_MAX < (queue.filter fun x => !env.alive x).length + ITERATIONS_IDLE + 1 ∧
          ((Call.pop env cmd).process keyN db).1 = .string [] ∧
          Fifo (past ++ [env]) queue calls ((Call.pop env cmd).process keyN db).2))

/-- A run of calls on a queue of values of which none expires: each pop returns the first value,
or nothing if there is none. -/
def Refines : List Pair → List Call → Db → Prop
  | queue, [], db => Positioned keyN [] queue db
  | queue, c :: calls, db =>
    Positioned keyN [] queue db ∧
      match c with
      | .add _ _ _ _ _ =>
        (c.process keyN db).1 = .ok ∧
          Refines (queue ++ (c.item keyN).toList) calls (c.process keyN db).2
      | .pop _ _ =>
        (c.process keyN db).1 = .string (queue.head?.elim [] Pair.val) ∧
          Refines queue.tail calls (c.process keyN db).2

end Runs

end HM4.Queue
