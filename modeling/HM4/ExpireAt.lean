import HM4.Expiration
import HM4.IndexToken
import HM4.MutableXRuns

/-!
# Expiration at a time

Some commands tell the time at which pairs expire. They read the clock to see whether the time has
come, read it again to compute how many seconds are left, and the pair takes its time of creation
from a third reading. The clock goes on between them.
-/

namespace HM4.ExpireAt

open LexPrefix Bytes Pairs PairFactory MemList KeyedList Database MutableX
open ConcurrentFlushList (DualListEraseType)

/-- What a command reads of its surroundings. -/
structure Env where
  et : DualListEraseType
  /-- Of the pairs of the first list, those that its allocator knows as its own. -/
  owns : Key → Bool
  /-- For the writes of the command, one after another. -/
  turn : ℕ → Turn
  /-- The readings of the clock, one after another. -/
  clock : ℕ → UInt64
  steady : Monotone fun i => (clock i).toNat

/-- `canInsertHintList`. -/
def Env.canInsertHint (env : Env) (s : Store) (hint : Pair) : Bool :=
  get hint.key s.active = some hint ∧ env.owns hint.key = true

/-- `mytime::now32`. -/
def now32 (now : UInt64) : UInt32 := (now >>> 32).toUInt32

/-- A pair that was processed: its key, which reading was compared with the time, and the
expiration that was computed. -/
structure Event where
  key : Key
  reading : ℕ
  expires : Option UInt32
  deriving DecidableEq

/-- The store, how many readings of the clock and how many writes there were, and what was
processed. -/
structure State where
  store : Store
  readings : ℕ
  writes : ℕ
  log : List Event

/-- How many readings `isOK` takes. -/
def isOKReadings (p : Pair) : ℕ := if p.isTombstone = true ∨ p.expires = 0 then 0 else 1

/-- How many readings an erase takes: one if it leaves a tombstone. -/
def eraseReadings (et : DualListEraseType) (s : Store) : ℕ :=
  match et with
  | .NONE => 0
  | .NORMAL => 0
  | .TOMBSTONE => 1
  | .SMART_TOMBSTONE => if s.tables = [] ∧ s.saved = [] then 0 else 1

/-- `insertHint`. -/
def insertHint (env : Env) (t : Turn) (hint : Pair) (factory : Factory) (now : UInt64)
    (s : Store) : Store :=
  if env.canInsertHint s hint = true then s.insertHint t hint factory now
  else s.insertF t factory now

/-- `ExpireAtPredicate::process`. -/
def process (env : Env) (time : UInt32) (hint : Pair) (st : State) : State :=
  let i := st.readings
  let t := env.turn st.writes
  if time ≤ now32 (env.clock i) then
    { store := st.store.erase env.et t hint.key (env.clock (i + 1))
      readings := i + 1 + eraseReadings env.et st.store
      writes := st.writes + 1
      log := st.log ++ [⟨hint.key, i, none⟩] }
  else
    let exp := time - now32 (env.clock (i + 1))
    { store := st.store.insertF t (normal hint.key hint.val exp 0) (env.clock (i + 2))
      readings := i + 3
      writes := st.writes + 1
      log := st.log ++ [⟨hint.key, i, some exp⟩] }

/-- `ExpireAtPredicate::processHint`. -/
def processHint (env : Env) (time : UInt32) (hint : Pair) (st : State) : State :=
  let i := st.readings
  let t := env.turn st.writes
  if time ≤ now32 (env.clock i) then
    { store := insertHint env t hint (tombstone hint.key 0) (env.clock (i + 1)) st.store
      readings := i + 2
      writes := st.writes + 1
      log := st.log ++ [⟨hint.key, i, none⟩] }
  else
    let exp := time - now32 (env.clock (i + 1))
    { store := insertHint env t hint (expires hint.key hint.val exp 0) (env.clock (i + 2)) st.store
      readings := i + 3
      writes := st.writes + 1
      log := st.log ++ [⟨hint.key, i, some exp⟩] }

/-- The state after `isOK` of a pair. -/
def State.ask (p : Pair) (st : State) : State :=
  { st with readings := st.readings + isOKReadings p }

/-! ## The walk -/

/-- The last key, the pairs that were collected, and the state. -/
structure Scan where
  key : Key
  container : List Pair
  state : State

/-- `scanKeysAndProcessInPlace_` from a number of iterations on. -/
def scanKeysAndProcessInPlace (env : Env) (time : UInt32) (stop : Key → Bool) :
    (iterations : ℕ) → List Pair → State → Scan
  | _, [], st => ⟨[], [], st⟩
  | iterations, hint :: it, st =>
    if stop hint.key = true then ⟨[], [], st⟩
    else if ITERATIONS_PROCESS_X < iterations + 1 then ⟨hint.key, [], st⟩
    else if ¬isOK (env.clock st.readings) hint = true then
      scanKeysAndProcessInPlace env time stop (iterations + 1) it (st.ask hint)
    else if env.canInsertHint st.store hint = true then
      scanKeysAndProcessInPlace env time stop (iterations + 1) it
        (processHint env time hint (st.ask hint))
    else
      let rest := scanKeysAndProcessInPlace env time stop (iterations + 1) it (st.ask hint)
      { rest with container := hint :: rest.container }

/-- `scanForLastKey_` from a number of iterations on: the key, and how many readings there were. -/
def scanForLastKey (env : Env) (stop : Key → Bool) : (iterations : ℕ) → List Pair → ℕ → Key × ℕ
  | _, [], i => ([], i)
  | iterations, pair :: it, i =>
    if stop pair.key = true then ([], i)
    else if ITERATIONS_PROCESS_X < iterations + 1 then (pair.key, i)
    else if ¬isOK (env.clock i) pair = true then
      scanForLastKey env stop (iterations + 1) it (i + isOKReadings pair)
    else (pair.key, i + isOKReadings pair)

/-- The loop over what was collected: whether a write flushed the list, which ends it. -/
def processContainer (env : Env) (time : UInt32) : List Pair → State → Bool × State
  | [], st => (false, st)
  | x :: container, st =>
    let st' := process env time x st
    if st.store.version ≠ st'.store.version then (true, st')
    else processContainer env time container st'

/-- `process_x_` with so many passes left; as a hash it tells only whether it came to an end. -/
def processPasses (env : Env) (time : UInt32) (resultAsHash : Bool) (stop : Key → Bool)
    (key : Key) : (passes : ℕ) → State → Reply × State
  | 0, st => (.bool false, st)
  | passes + 1, st =>
    let scan := scanKeysAndProcessInPlace env time stop 0 (find key st.store) st
    let (flushed, st') := processContainer env time scan.container scan.state
    if flushed = true then
      if passes ≠ 0 then processPasses env time resultAsHash stop key passes st'
      else if resultAsHash = true then (.bool false, st')
      else
        let (last, readings) := scanForLastKey env stop 0 (find key st'.store) st'.readings
        (.string last, { st' with readings := readings })
    else if resultAsHash = true then (.bool true, st')
    else (.string scan.key, st')

/-! ## The commands -/

/-- The commands that let pairs expire at a time. -/
inductive Command
  | EXPIREAT
  | GETEXAT
  | XNEXPIREAT
  | XREXPIREAT
  | HEXPIREATALL
  deriving DecidableEq

/-- The time that a command is told. -/
def timeOf (p : List Key) : UInt32 := UInt32.ofNat (fromString 32 (p.getD 2 []) 0)

/-- Before a command. -/
def start (s : Store) : State := ⟨s, 0, 0, []⟩

/-- `EXPIREAT` and `GETEXAT`, with what they answer. -/
def processKey (env : Env) (p : List Key) (found : Pair → Reply) (missing : Reply) (s : Store) :
    Reply × State :=
  if p.length ≠ 3 then (.error .NEED_EXACT_PARAMS_2, start s)
  else if ¬isKeyValid (p.getD 1 []) then (.error .EMPTY_KEY, start s)
  else
    match get (p.getD 1 []) s.view with
    | some it =>
      let st := (start s).ask it
      if isOK (env.clock 0) it = true then
        (found it, processHint env (timeOf p) it st)
      else (missing, st)
    | none => (missing, start s)

/-- `XNEXPIREAT` and `XREXPIREAT`. -/
def processRange (env : Env) (c : MutableX.Command) (p : List Key) (s : Store) : Reply × State :=
  if p.length ≠ c.params.1 then (.error c.params.2, start s)
  else if ¬(c.stop p).Valid then (.error c.stopMessage, start s)
  else
    processPasses env (timeOf p) false (c.stop p).stops (p.getD 1 []) PASSES_PROCESS_X (start s)

/-- `HEXPIREATALL`. -/
def processHash (env : Env) (p : List Key) (s : Store) : Reply × State :=
  if p.length ≠ 3 then (.error .NEED_EXACT_PARAMS_2, start s)
  else if p.getD 1 [] = [] then (.error .EMPTY_KEY, start s)
  else if ¬isKeyValid (p.getD 1 []) then (.error .INVALID_KEY_SIZE, start s)
  else
    let pre := IndexToken.concatenateBuffer IndexToken.bufferKeySize
      [p.getD 1 [], [IndexToken.separator]]
    processPasses env (timeOf p) true (Stop.prefixed pre).stops pre PASSES_PROCESS_X (start s)

/-- A command: its reply and the state. -/
def Command.process (env : Env) (p : List Key) (s : Store) : Command → Reply × State
  | EXPIREAT => processKey env p (fun _ => .bool true) (.bool false) s
  | GETEXAT => processKey env p (fun it => .string it.val) (.string []) s
  | XNEXPIREAT => processRange env .XNEXPIREAT p s
  | XREXPIREAT => processRange env .XREXPIREAT p s
  | HEXPIREATALL => processHash env p s

/-! ## What is computed -/

/-- No time comes between the reading that is compared and the next one. -/
def InTime (env : Env) (time : UInt32) (e : Event) : Prop :=
  time ≤ now32 (env.clock e.reading) ∨ now32 (env.clock (e.reading + 1)) < time

/-- The expiration is what is left of the time, and something is left. -/
def Proper (env : Env) (time : UInt32) (e : Event) : Prop :=
  ∀ exp ∈ e.expires,
    exp ≠ 0 ∧ exp.toNat + (now32 (env.clock (e.reading + 1))).toNat = time.toNat

/-- The expiration is the one that the source computes. -/
def Computed (env : Env) (time : UInt32) (e : Event) : Prop :=
  e.expires = if time ≤ now32 (env.clock e.reading) then none
    else some (time - now32 (env.clock (e.reading + 1)))

section Time

variable {env : Env} {time : UInt32} {e : Event}

theorem now32_toNat (now : UInt64) : (now32 now).toNat = now.toNat / 2 ^ 32 := by
  have hlt := now.toNat_lt
  have hshift : now.toNat >>> (32 % 64) = now.toNat / 2 ^ 32 := Nat.shiftRight_eq_div_pow _ _
  have hmod : now.toNat / 2 ^ 32 % 2 ^ 32 = now.toNat / 2 ^ 32 := by omega
  unfold now32
  rw [UInt64.toNat_toUInt32, UInt64.toNat_shiftRight]
  exact (congrArg (· % 2 ^ 32) hshift).trans hmod

/-- What is left goes below zero if the time has come in between, and to zero if it comes just
then. -/
theorem proper_iff (he : Computed env time e) : Proper env time e ↔ InTime env time e := by
  have hle : time ≤ now32 (env.clock e.reading) ↔
      time.toNat ≤ (now32 (env.clock e.reading)).toNat := UInt32.le_iff_toNat_le
  have hlt : now32 (env.clock (e.reading + 1)) < time ↔
      (now32 (env.clock (e.reading + 1))).toNat < time.toNat := UInt32.lt_iff_toNat_lt
  unfold Proper InTime
  rw [he]
  by_cases hpast : time ≤ now32 (env.clock e.reading)
  · simp [hpast]
  · rw [if_neg hpast, or_iff_right hpast, hlt]
    have hnext := (now32 (env.clock (e.reading + 1))).toNat_lt
    have htime := time.toNat_lt
    have hsub := UInt32.toNat_sub time (now32 (env.clock (e.reading + 1)))
    constructor
    · intro h
      obtain ⟨hne, hsum⟩ := h _ rfl
      have hpos : (time - now32 (env.clock (e.reading + 1))).toNat ≠ 0 := fun h0 =>
        hne (UInt32.toNat_inj.mp h0)
      omega
    · intro h exp hexp
      obtain rfl := Option.some.inj hexp
      have hval : (time - now32 (env.clock (e.reading + 1))).toNat =
          time.toNat - (now32 (env.clock (e.reading + 1))).toNat := by omega
      constructor
      · intro h0
        have hzero : (time - now32 (env.clock (e.reading + 1))).toNat = 0 :=
          congrArg UInt32.toNat h0
        omega
      · omega

end Time

/-- An insert with a hint writes what its factory leaves. -/
theorem puts_insertHint {env : Env} {t : Turn} (hmemory : t.memory = true) {factory : Factory}
    {now : UInt64} {s : Store} {P : Option Pair → Prop} (h : factory.valid = true)
    (hcreated : factory.getCreated = 0)
    (hP : ∀ p, factory.Leaves h now p → p.created = now.toNat ∧ P (some p))
    (hs : TimelyAt now factory.getKey s) {hint : Pair} (hhint : hint.key = factory.getKey) :
    Puts now factory.getKey P s (insertHint env t hint factory now s) := by
  unfold insertHint
  split
  · exact MutableX.puts_insertHint hmemory h hcreated hP hs hhint
  · exact puts_insertF hmemory h hcreated hP hs

/-! ## What is left -/

/-- A pair that is dead behind the time and as long as the command took. -/
def Dies (env : Env) (time : UInt32) (readings : ℕ) (p : Pair) : Prop :=
  p.isTombstone = true ∨ p.expires ≠ 0 ∧
    p.created + p.expires * 2 ^ 32 + (now32 (env.clock 0)).toNat * 2 ^ 32 ≤
      (env.clock (readings - 1)).toNat + time.toNat * 2 ^ 32

/-- What holds while a command runs. -/
structure Sound (env : Env) (time : UInt32) (st : State) : Prop where
  timely : Timely (env.clock st.readings) st.store
  computed : ∀ e ∈ st.log, Computed env time e
  dies : (∀ e ∈ st.log, InTime env time e) → ∀ e ∈ st.log, ∀ p, get e.key st.store.view = some p →
    Dies env time st.readings p

section Sound

variable {env : Env} {time : UInt32} {st : State}

theorem timely_of_le {now now' : UInt64} {s : Store} (h : Timely now s)
    (hle : now.toNat ≤ now'.toNat) : Timely now' s :=
  fun l hl p hp => (h l hl p hp).trans hle

theorem Dies.of_le {n m : ℕ} {p : Pair} (h : Dies env time n p) (hle : n ≤ m) :
    Dies env time m p := by
  refine h.imp_right fun ⟨hne, hsum⟩ => ⟨hne, ?_⟩
  have hclock := env.steady (show n - 1 ≤ m - 1 by omega)
  dsimp only at hclock
  omega

/-- More readings change nothing. -/
theorem Sound.of_le (h : Sound env time st) {m : ℕ} (hle : st.readings ≤ m) :
    Sound env time { st with readings := m } where
  timely := timely_of_le h.timely (env.steady hle)
  computed := h.computed
  dies := fun hall e he p hp => (h.dies hall e he p hp).of_le hle

/-- One more pair that was processed, with a write at some later reading. -/
theorem Sound.wrote (h : Sound env time st) {e : Event} (he : Computed env time e) {j m : ℕ}
    (hj : st.readings ≤ j) (hm : j ≤ m) (hstm : st.readings ≤ m) {P : Option Pair → Prop}
    {s' : Store} (hP : InTime env time e → ∀ o, P o → ∀ p ∈ o, Dies env time m p)
    (hputs : TimelyAt (env.clock j) e.key st.store → Puts (env.clock j) e.key P st.store s')
    (w : ℕ) : Sound env time ⟨s', m, w, st.log ++ [e]⟩ := by
  have hs := timely_of_le h.timely (env.steady hj)
  have hw := hputs (hs.at e.key)
  refine ⟨timely_of_le (hw.timely hs) (env.steady hm), fun x hx => ?_, fun hall x hx p hp => ?_⟩
  · rcases List.mem_append.mp hx with hx | hx
    · exact h.computed x hx
    · rw [List.mem_singleton.mp hx]
      exact he
  · have hlog : ∀ x ∈ st.log, InTime env time x := fun x hx =>
      hall x (List.mem_append_left _ hx)
    have hlast : InTime env time e := hall e (List.mem_append_right _ (List.mem_singleton_self e))
    by_cases hkey : x.key = e.key
    · rw [hkey] at hp
      exact hP hlast _ hw.self p hp
    · rcases List.mem_append.mp hx with hx | hx
      · rw [hw.other x.key hkey] at hp
        exact (h.dies hlog x hx p hp).of_le hstm
      · exact absurd (congrArg Event.key (List.mem_singleton.mp hx)) hkey

/-- The expiration that was computed lets the pair die in time. -/
theorem dies_of_proper {i : ℕ} {exp : UInt32} {key : Key} {p : Pair}
    (h : Proper env time ⟨key, i, some exp⟩) (hcreated : p.created = (env.clock (i + 2)).toNat)
    (hexp : p.expires = exp.toNat) : Dies env time (i + 3) p := by
  obtain ⟨hne, hsum⟩ := h exp rfl
  have hfirst := env.steady (Nat.zero_le (i + 1))
  have hpos : exp.toNat ≠ 0 := fun h0 => hne (UInt32.toNat_inj.mp h0)
  refine .inr ⟨hexp ▸ hpos, ?_⟩
  dsimp only at hfirst hsum
  rw [now32_toNat] at hsum
  rw [hcreated, hexp, now32_toNat]
  have hdiv : (env.clock 0).toNat / 2 ^ 32 ≤ (env.clock (i + 1)).toNat / 2 ^ 32 :=
    Nat.div_le_div_right hfirst
  have hreading : i + 3 - 1 = i + 2 := rfl
  rw [hreading]
  omega

/-- What the two factories leave of a pair that gets an expiration. -/
def Given (now : UInt64) (exp : UInt32) (p : Pair) : Prop :=
  p.created = now.toNat ∧ p.expires = exp.toNat

theorem normal_left {key val : Key} {exp : UInt32} {now : UInt64}
    (h : (normal key val exp 0).valid = true) (p : Pair)
    (hp : (normal key val exp 0).Leaves h now p) :
    p.created = now.toNat ∧ Found (Given now exp) (some p) := by
  rcases hp with rfl | ⟨old, -, rfl⟩
  · exact ⟨rfl, _, rfl, rfl, rfl⟩
  · exact ⟨rfl, _, rfl, rfl, rfl⟩

theorem expires_left {key val : Key} {exp : UInt32} {now : UInt64}
    (h : (expires key val exp 0).valid = true) (p : Pair)
    (hp : (expires key val exp 0).Leaves h now p) :
    p.created = now.toNat ∧ Found (Given now exp) (some p) := by
  rcases hp with rfl | ⟨old, -, rfl⟩
  · exact ⟨rfl, _, rfl, rfl, rfl⟩
  · exact ⟨rfl, _, rfl, rfl, rfl⟩

theorem dies_of_gone {n : ℕ} {o : Option Pair} (h : Gone o) : ∀ p ∈ o, Dies env time n p :=
  fun p hp => .inl (h p hp)

theorem dies_of_found {i : ℕ} {exp : UInt32} {key : Key} {o : Option Pair}
    (h : Proper env time ⟨key, i, some exp⟩) (ho : Found (Given (env.clock (i + 2)) exp) o) :
    ∀ p ∈ o, Dies env time (i + 3) p := by
  obtain ⟨q, rfl, hcreated, hexp⟩ := ho
  intro p hp
  obtain rfl := Option.some.inj hp
  exact dies_of_proper h hcreated hexp

/-- A pair that is processed. -/
theorem Sound.process (het : env.et = .TOMBSTONE ∨ env.et = .SMART_TOMBSTONE)
    (hmemory : ∀ n, (env.turn n).memory = true) (h : Sound env time st) (hint : Pair) :
    Sound env time (process env time hint st) := by
  unfold ExpireAt.process
  dsimp only
  split
  · next hpast =>
    have hcomputed : Computed env time ⟨hint.key, st.readings, none⟩ := (if_pos hpast).symm
    exact h.wrote hcomputed (by omega) (by omega) (by omega) (fun _ _ ho => dies_of_gone ho)
      (fun hs => puts_erase het (hmemory _) hint.keyValid hs) _
  · next hfuture =>
    have hcomputed : Computed env time ⟨hint.key, st.readings,
      some (time - now32 (env.clock (st.readings + 1)))⟩ := (if_neg hfuture).symm
    have hvalid : (normal hint.key hint.val (time - now32 (env.clock (st.readings + 1))) 0).valid =
      true := decide_eq_true ⟨hint.keyValid, hint.valValid⟩
    exact h.wrote hcomputed (by omega) (by omega) (by omega)
      (fun hin _ ho => dies_of_found ((proper_iff hcomputed).mpr hin) ho)
      (fun hs => puts_insertF (hmemory _) hvalid rfl (normal_left hvalid) hs) _

@[inherit_doc Sound.process]
theorem Sound.processHint (hmemory : ∀ n, (env.turn n).memory = true) (h : Sound env time st)
    (hint : Pair) : Sound env time (processHint env time hint st) := by
  unfold ExpireAt.processHint
  dsimp only
  split
  · next hpast =>
    have hcomputed : Computed env time ⟨hint.key, st.readings, none⟩ := (if_pos hpast).symm
    have hvalid : (tombstone hint.key 0).valid = true := decide_eq_true hint.keyValid
    exact h.wrote hcomputed (by omega) (by omega) (by omega) (fun _ _ ho => dies_of_gone ho)
      (fun hs => puts_insertHint (hmemory _) hvalid rfl (tombstone_left hvalid) hs rfl) _
  · next hfuture =>
    have hcomputed : Computed env time ⟨hint.key, st.readings,
      some (time - now32 (env.clock (st.readings + 1)))⟩ := (if_neg hfuture).symm
    have hvalid : (expires hint.key hint.val (time - now32 (env.clock (st.readings + 1))) 0).valid =
      true := decide_eq_true ⟨hint.keyValid, hint.valValid⟩
    exact h.wrote hcomputed (by omega) (by omega) (by omega)
      (fun hin _ ho => dies_of_found ((proper_iff hcomputed).mpr hin) ho)
      (fun hs => puts_insertHint (hmemory _) hvalid rfl (expires_left hvalid) hs rfl) _

theorem Sound.ask (h : Sound env time st) (p : Pair) : Sound env time (st.ask p) :=
  h.of_le (Nat.le_add_right _ _)

theorem Sound.scan (hmemory : ∀ n, (env.turn n).memory = true) (stop : Key → Bool)
    (iterations : ℕ) (it : List Pair) (h : Sound env time st) :
    Sound env time (scanKeysAndProcessInPlace env time stop iterations it st).state := by
  induction it generalizing iterations st with
  | nil => exact h
  | cons hint it ih =>
    unfold scanKeysAndProcessInPlace
    split
    · exact h
    · split
      · exact h
      · split
        · exact ih (iterations + 1) (h.ask hint)
        · split
          · exact ih (iterations + 1) ((h.ask hint).processHint hmemory hint)
          · exact ih (iterations + 1) (h.ask hint)

theorem Sound.processContainer (het : env.et = .TOMBSTONE ∨ env.et = .SMART_TOMBSTONE)
    (hmemory : ∀ n, (env.turn n).memory = true) (container : List Pair) (h : Sound env time st) :
    Sound env time (processContainer env time container st).2 := by
  induction container generalizing st with
  | nil => exact h
  | cons x container ih =>
    have hx := h.process het hmemory x
    unfold ExpireAt.processContainer
    dsimp only
    split
    · exact hx
    · exact ih hx

theorem scanForLastKey_readings (stop : Key → Bool) (iterations : ℕ) (it : List Pair) (i : ℕ) :
    i ≤ (scanForLastKey env stop iterations it i).2 := by
  induction it generalizing iterations i with
  | nil => exact le_rfl
  | cons pair it ih =>
    unfold scanForLastKey
    split
    · exact le_rfl
    · split
      · exact le_rfl
      · split
        · exact (Nat.le_add_right _ _).trans (ih (iterations + 1) _)
        · exact Nat.le_add_right _ _

theorem Sound.processPasses (het : env.et = .TOMBSTONE ∨ env.et = .SMART_TOMBSTONE)
    (hmemory : ∀ n, (env.turn n).memory = true) (resultAsHash : Bool) (stop : Key → Bool)
    (key : Key) (passes : ℕ) (h : Sound env time st) :
    Sound env time (processPasses env time resultAsHash stop key passes st).2 := by
  induction passes generalizing st with
  | zero => exact h
  | succ passes ih =>
    have hpass := (h.scan hmemory stop 0 (find key st.store)).processContainer het hmemory
      (scanKeysAndProcessInPlace env time stop 0 (find key st.store) st).container
    unfold ExpireAt.processPasses
    dsimp only
    split
    · split
      · exact ih hpass
      · split
        · exact hpass
        · exact hpass.of_le (scanForLastKey_readings _ _ _ _)
    · split
      · exact hpass
      · exact hpass

theorem sound_start {s : Store} (hs : Timely (env.clock 0) s) : Sound env time (start s) where
  timely := hs
  computed := fun _ he => absurd he List.not_mem_nil
  dies := fun _ _ he => absurd he List.not_mem_nil

/-- What holds after a command. -/
theorem Command.process_sound (het : env.et = .TOMBSTONE ∨ env.et = .SMART_TOMBSTONE)
    (hmemory : ∀ n, (env.turn n).memory = true) {s : Store} (hs : Timely (env.clock 0) s)
    (c : Command) (p : List Key) : Sound env (timeOf p) (c.process env p s).2 := by
  have hstart : Sound env (timeOf p) (start s) := sound_start hs
  have hkey : ∀ found missing, Sound env (timeOf p) (processKey env p found missing s).2 := by
    intro found missing
    unfold processKey
    split
    · exact hstart
    · split
      · exact hstart
      · split
        · next it hit =>
          dsimp only
          split
          · exact (hstart.ask it).processHint hmemory it
          · exact hstart.ask it
        · exact hstart
  have hrange : ∀ c', Sound env (timeOf p) (processRange env c' p s).2 := by
    intro c'
    unfold processRange
    split
    · exact hstart
    · split
      · exact hstart
      · exact hstart.processPasses het hmemory _ _ _ _
  cases c with
  | EXPIREAT => exact hkey _ _
  | GETEXAT => exact hkey _ _
  | XNEXPIREAT => exact hrange _
  | XREXPIREAT => exact hrange _
  | HEXPIREATALL =>
    unfold Command.process processHash
    dsimp only
    split
    · exact hstart
    · split
      · exact hstart
      · split
        · exact hstart
        · exact hstart.processPasses het hmemory _ _ _ _

/-- The claim of a command: what it computes is left of the time, and a pair that it processed is
dead at every reading later than the time, the duration of the command and a second. -/
def Honoured (env : Env) (time : UInt32) (st : State) : Prop :=
  ∀ e ∈ st.log, Proper env time e ∧
    ∀ t : UInt64, time.toNat * 2 ^ 32 + ((env.clock (st.readings - 1)).toNat - (env.clock 0).toNat) +
      2 ^ 32 < t.toNat → getPairPtr t e.key st.store.view = none

theorem Dies.isOK_eq {n : ℕ} {p : Pair} (h : Dies env time n p) {t : UInt64}
    (ht : time.toNat * 2 ^ 32 + ((env.clock (n - 1)).toNat - (env.clock 0).toNat) + 2 ^ 32 <
      t.toNat) : isOK t p = false := by
  rcases h with htomb | ⟨hne, hsum⟩
  · exact isOK_of_isTombstone htomb t
  · have hfirst : (env.clock 0).toNat ≤ (env.clock (n - 1)).toNat := env.steady (Nat.zero_le _)
    rw [now32_toNat] at hsum
    have hlate : addTime p.created p.expires < t.toNat := by
      rw [Expiration.addTime_lt_iff]
      omega
    have hexpired : isExpired t p = true := by
      simp [isExpired, hne, hlate]
    rw [isOK, hexpired, Bool.not_true, Bool.and_false]

end Sound

/-- The time is honoured unless for some pair it comes after the reading that is compared and not
after the next one, from which the expiration is computed. -/
theorem honoured_iff (env : Env) (het : env.et = .TOMBSTONE ∨ env.et = .SMART_TOMBSTONE)
    (hmemory : ∀ n, (env.turn n).memory = true) (s : Store) (hs : Timely (env.clock 0) s)
    (c : Command) (p : List Key) :
    Honoured env (timeOf p) (c.process env p s).2 ↔
      ∀ e ∈ (c.process env p s).2.log, InTime env (timeOf p) e := by
  have hsound := c.process_sound het hmemory hs p
  constructor
  · intro h e he
    exact (proper_iff (hsound.computed e he)).mp (h e he).1
  · intro hall e he
    refine ⟨(proper_iff (hsound.computed e he)).mpr (hall e he), fun t ht => ?_⟩
    unfold getPairPtr
    cases hget : get e.key (c.process env p s).2.store.view with
    | none => rfl
    | some q =>
      have hdead := (hsound.dies hall e he q hget).isOK_eq ht
      rw [Option.filter_some, hdead, if_neg Bool.false_ne_true]

/-! ## A second that goes by -/

theorem valid_endless : (normal [107] [118] 0 1).valid = true :=
  valid_normal 107 118 0 1

/-- A pair that does not expire. -/
def endless : Pair := (normal [107] [118] 0 1).create valid_endless 0

theorem increasing_oneKey : ∀ l ∈ [[endless], [], []], Increasing Pair.key l :=
  List.forall_mem_cons.mpr ⟨List.pairwise_singleton _ _, List.forall_mem_cons.mpr
    ⟨List.Pairwise.nil, List.forall_mem_singleton.mpr List.Pairwise.nil⟩⟩

/-- A store of one pair. -/
def oneKey : Store where
  active := [endless]
  saved := []
  tables := [[]]
  version := 0
  cleared := 0
  increasing := increasing_oneKey

/-- The clock goes from the fourth second to the fifth behind the first reading. -/
def fourToFive (i : ℕ) : UInt64 := if i = 0 then 0x400000000 else 0x500000000

theorem steady_fourToFive : Monotone fun i => (fourToFive i).toNat := by
  intro i j hij
  unfold fourToFive
  dsimp only
  split_ifs
  · exact le_rfl
  · decide
  · omega
  · exact le_rfl

/-- The pair of the store lies where it may be changed in place. -/
def ticking : Env where
  et := .TOMBSTONE
  owns := fun _ => true
  turn := fun _ => ⟨false, true, true⟩
  clock := fourToFive
  steady := steady_fourToFive

theorem timely_oneKey : Timely (ticking.clock 0) oneKey :=
  show ∀ l ∈ [[endless], [], []], ∀ p ∈ l, p.created ≤ (ticking.clock 0).toNat by decide +kernel

/-- `EXPIREAT k 10` in the fourth second. -/
theorem honoured_iff_ten :
    Honoured ticking (timeOf [[], [107], [49, 48]])
      (Command.EXPIREAT.process ticking [[], [107], [49, 48]] oneKey).2 := by
  refine (honoured_iff ticking (.inl rfl) (fun _ => rfl) oneKey timely_oneKey .EXPIREAT
    [[], [107], [49, 48]]).mpr ?_
  have hlog : (Command.EXPIREAT.process ticking [[], [107], [49, 48]] oneKey).2.log =
      [⟨[107], 0, some 5⟩] := by decide +kernel
  rw [hlog]
  exact List.forall_mem_singleton.mpr (.inr (by decide +kernel))

/-- `EXPIREAT k 5` in the fourth second: the pair is given no expiration at all, and lives for
ever. -/
theorem not_honoured :
    ¬Honoured ticking (timeOf [[], [107], [53]])
        (Command.EXPIREAT.process ticking [[], [107], [53]] oneKey).2 ∧
      (getPairPtr 0xFFFFFFFFFFFFFFFF [107]
        (Command.EXPIREAT.process ticking [[], [107], [53]] oneKey).2.store.view).isSome = true := by
  have hlog : (Command.EXPIREAT.process ticking [[], [107], [53]] oneKey).2.log =
      [⟨[107], 0, some 0⟩] := by decide +kernel
  constructor
  · intro h
    rw [Honoured, hlog] at h
    obtain ⟨hproper, _⟩ := h _ (List.mem_singleton_self _)
    exact (hproper 0 rfl).1 rfl
  · decide +kernel

end HM4.ExpireAt
