import HM4.RedisResponse

/-!
# The worker and its buffers

One worker serves all connections. A command writes its response into the buffer of the worker,
which is then swapped with the buffer of the client, so that the worker goes on with the input of
the client before. Setting a result clears the buffer first; a command that sets none leaves it as
it is.
-/

namespace HM4.KeyValueWorker

open Bytes RedisProtocol RedisResponse

/-! ## Buffers -/

/-- A memory manager: for a size it refuses, or hands out a block with whatever lies in it. -/
abbrev MemoryManager := ℕ → Option Key

/-- `IOBuffer`: the block of its context, and how much of it is used. -/
structure IOBuffer where
  /-- `head_`. -/
  head : ℕ
  /-- The octets of the whole block. -/
  block : Key
  /-- `context_.size`. -/
  used : ℕ

namespace IOBuffer

/-- The `string_view` of a buffer. -/
def view (b : IOBuffer) : Key := (b.block.take b.used).drop b.head

/-- `size()`. -/
def size (b : IOBuffer) : ℕ := b.used - b.head

/-- `clear()`, which gives the block back. -/
def clear : IOBuffer := ⟨0, [], 0⟩

/-- `reserve()`: a block that is granted is at least as large as asked for, and what was used of
the old one is copied. -/
def reserve (mm : MemoryManager) (n : ℕ) (b : IOBuffer) : Option IOBuffer :=
  ((mm n).filter fun block => n ≤ block.length).map fun block =>
    { b with block := b.block.take b.used ++ block.drop b.used }

/-- `AMBuffer::resize()`. -/
def resize (mm : MemoryManager) (n : ℕ) (b : IOBuffer) : Option IOBuffer :=
  if n > b.block.length then (b.reserve mm n).map fun b => { b with used := n }
  else some { b with used := n }

/-- `provideBuffer()`, a write to what it provides, and `finalizeBuffer()`. -/
def append (mm : MemoryManager) (size : ℕ) (data : Key) (b : IOBuffer) : Option IOBuffer :=
  (b.resize mm (b.used + size)).map fun b' =>
    { b' with
      block := b'.block.take b.used ++ data ++ b'.block.drop (b.used + data.length)
      used := b.used + data.length }

/-- `pop()`. -/
def pop (n : ℕ) (b : IOBuffer) : IOBuffer :=
  if n = 0 ∨ b.size < n then b
  else if b.size = n then clear
  else { b with head := b.head + n }

end IOBuffer

/-! ## Results -/

/-- `commands::Status`. -/
inductive CommandStatus
  | ok
  | disconnect
  | shutdown
  deriving DecidableEq

/-- `WorkerStatus`. -/
inductive WorkerStatus
  | pass
  | read
  | write
  | disconnect
  | disconnectError
  | shutdown
  deriving DecidableEq

/-- One call of a `Result`: a status, a response, and the memory manager at that moment. -/
structure SetCall where
  status : CommandStatus
  resp : Response
  mm : MemoryManager

/-- A `Result`: its status and the buffer it writes to. -/
structure Result where
  status : CommandStatus
  buffer : IOBuffer

/-- A response in a clean buffer. -/
def respond (mm : MemoryManager) (resp : Response) : Option IOBuffer :=
  IOBuffer.clear.append mm resp.size resp.write

/-- `Result::processSet`: without memory the buffer stays clean. -/
def processSet (_ : Result) (call : SetCall) : Result :=
  ⟨call.status, (respond call.mm call.resp).getD IOBuffer.clear⟩

/-- What a command leaves that sets these results one after the other. -/
def execute (calls : List SetCall) (system : IOBuffer) : Result :=
  calls.foldl processSet ⟨.ok, system⟩

/-! ## The worker -/

/-- A text as octets. -/
def ascii (s : String) : Key := s.toList.map fun c => Fin.ofNat 256 c.toNat

theorem protocolBreak_lt : (ascii "General Bad Request / Not Implemented").length < 2 ^ 64 := by
  decide

theorem notImplemented_lt : (ascii "Not Implemented").length < 2 ^ 64 := by
  decide

/-- `SYS_PROTOCOL_BREAK`. -/
def SYS_PROTOCOL_BREAK : StringView :=
  ⟨ascii "General Bad Request / Not Implemented", protocolBreak_lt⟩

/-- `SYS_NOT_IMPLEMENTED`. -/
def SYS_NOT_IMPLEMENTED : StringView := ⟨ascii "Not Implemented", notImplemented_lt⟩

/-- What the worker answers, with its own buffer and that of the client. -/
structure Answer where
  status : WorkerStatus
  system : IOBuffer
  buffer : IOBuffer

/-- `emitError`. -/
def emitError (mm : MemoryManager) (message : StringView) (system : IOBuffer) : Answer :=
  match respond mm (.error message) with
  | none => ⟨.disconnectError, system, IOBuffer.clear⟩
  | some buffer => ⟨.write, system, buffer⟩

/-- `translate_`. -/
def translate (result : Result) (buffer : IOBuffer) : Answer :=
  if result.buffer.size = 0 then ⟨.disconnectError, result.buffer, buffer⟩
  else
    match result.status with
    | .disconnect => ⟨.disconnect, result.buffer, buffer⟩
    | .shutdown => ⟨.shutdown, result.buffer, buffer⟩
    | .ok => ⟨.write, buffer, result.buffer⟩

/-- What a request meets: the parser, the command for some parameters with the results it sets,
and the memory manager when an error is emitted. -/
structure Surroundings where
  /-- `protocol_`. -/
  protocol : Key → Status × List Key
  /-- `storageCommands_` and the call of the command. -/
  command : List Key → Option (List SetCall)
  /-- The memory manager of the client's buffer. -/
  mm : MemoryManager

/-- `KeyValueWorker::operator()`. -/
def work (env : Surroundings) (system buffer : IOBuffer) : Answer :=
  if buffer.size = 0 then ⟨.pass, system, buffer⟩
  else
    match env.protocol buffer.view with
    | (.bufferNotRead, _) => ⟨.pass, system, buffer⟩
    | (.error, _) => ⟨.disconnectError, system, buffer⟩
    | (.ok, p) =>
      if p = [] then emitError env.mm SYS_PROTOCOL_BREAK system
      else
        match env.command p with
        | none => emitError env.mm SYS_NOT_IMPLEMENTED system
        | some calls => translate (execute calls system) buffer

/-! ## Own responses -/

/-- The response that a request sets: that of an error, or the last one the command sets. -/
def ownResponse (env : Surroundings) (buffer : IOBuffer) : Option Key :=
  match env.protocol buffer.view with
  | (.ok, p) =>
    if p = [] then some (Response.error SYS_PROTOCOL_BREAK).write
    else
      match env.command p with
      | none => some (Response.error SYS_NOT_IMPLEMENTED).write
      | some calls => calls.getLast?.map fun call => call.resp.write
  | _ => none

/-- No response is empty. -/
theorem write_ne_nil (r : Response) : r.write ≠ [] := by
  cases r with
  | numberU64 n =>
    rw [Response.write]
    split
    · exact List.cons_ne_nil _ _
    · exact List.cons_ne_nil _ _
  | ok | bool _ | error _ | string _ | simpleString _ | number64 _ | numberSV _ | strings _ =>
    exact List.cons_ne_nil _ _

/-- A buffer that is responded in holds the response and nothing else, whatever was in the block. -/
theorem respond_spec {mm : MemoryManager} {resp : Response} {b : IOBuffer}
    (h : respond mm resp = some b) : b.view = resp.write ∧ b.size ≠ 0 := by
  obtain ⟨b', hresize, rfl⟩ := Option.map_eq_some_iff.mp h
  have hused : IOBuffer.clear.used = 0 := rfl
  have hhead : b'.head = 0 := by
    unfold IOBuffer.resize IOBuffer.reserve at hresize
    split at hresize
    · obtain ⟨c, hc, rfl⟩ := Option.map_eq_some_iff.mp hresize
      obtain ⟨_, _, rfl⟩ := Option.map_eq_some_iff.mp hc
      rfl
    · cases Option.some.inj hresize
      rfl
  have hlen : 0 < resp.write.length := List.length_pos_iff.mpr (write_ne_nil resp)
  constructor
  · unfold IOBuffer.view
    dsimp only
    rw [hhead, hused, Nat.zero_add, List.take_zero, List.nil_append, List.drop_zero,
      List.take_left' rfl]
  · unfold IOBuffer.size
    dsimp only
    rw [hhead, hused]
    omega

/-- The last result counts. -/
theorem execute_append (calls : List SetCall) (call : SetCall) (system : IOBuffer) :
    execute (calls ++ [call]) system =
      ⟨call.status, (respond call.mm call.resp).getD IOBuffer.clear⟩ := by
  unfold execute
  rw [List.foldl_append]
  rfl

/-- An error that is emitted is the response of its request. -/
theorem emitError_spec {mm : MemoryManager} {message : StringView} {system : IOBuffer}
    (h : (emitError mm message system).status = .write) :
    (emitError mm message system).buffer.view = (Response.error message).write := by
  unfold emitError at h ⊢
  cases hr : respond mm (.error message) with
  | none =>
    rw [hr] at h
    cases h
  | some b => exact (respond_spec hr).1

/-- What a command sets is what its client gets. -/
theorem translate_execute {calls : List SetCall} {call : SetCall} {system buffer : IOBuffer}
    (h : (translate (execute (calls ++ [call]) system) buffer).status = .write) :
    (translate (execute (calls ++ [call]) system) buffer).buffer.view = call.resp.write := by
  rw [execute_append] at h ⊢
  unfold translate at h ⊢
  cases hr : respond call.mm call.resp with
  | none =>
    have hclear : IOBuffer.clear.size = 0 := rfl
    rw [hr] at h
    dsimp only [Option.getD_none] at h
    rw [if_pos hclear] at h
    cases h
  | some b =>
    obtain ⟨hview, hsize⟩ := respond_spec hr
    rw [hr] at h
    dsimp only [Option.getD_some] at h ⊢
    rw [if_neg hsize] at h ⊢
    cases hstatus : call.status with
    | ok => exact hview
    | disconnect | shutdown =>
      rw [hstatus] at h
      cases h

/-! ## Runs -/

/-- The buffer of the worker, and those of the clients. -/
structure State where
  system : IOBuffer
  buffers : ℕ → IOBuffer

/-- What happens to a connection: input comes in, output is sent, the connection is closed, or the
worker is called with what it meets. -/
inductive Event
  | receive (client : ℕ) (mm : MemoryManager) (size : ℕ) (data : Key)
  | sent (client n : ℕ)
  | close (client : ℕ)
  | request (client : ℕ) (env : Surroundings)

/-- The state after an event. -/
def step (s : State) : Event → State
  | .receive client mm size data =>
    { s with
      buffers := Function.update s.buffers client
        (((s.buffers client).append mm size data).getD IOBuffer.clear) }
  | .sent client n =>
    { s with buffers := Function.update s.buffers client ((s.buffers client).pop n) }
  | .close client => { s with buffers := Function.update s.buffers client IOBuffer.clear }
  | .request client env =>
    let answer := work env s.system (s.buffers client)
    ⟨answer.system, Function.update s.buffers client answer.buffer⟩

/-- Whenever the worker answers `WRITE`, the client's buffer holds the response of its request. -/
def Own (s : State) : Event → Prop
  | .request client env =>
    (work env s.system (s.buffers client)).status = .write →
      ownResponse env (s.buffers client) = some (work env s.system (s.buffers client)).buffer.view
  | _ => True

/-- The command of a request sets a result, or the worker's buffer is empty. -/
def Sets (s : State) : Event → Prop
  | .request client env =>
    ∀ p, env.protocol (s.buffers client).view = (.ok, p) → p ≠ [] → env.command p = some [] →
      (s.buffers client).size = 0 ∨ s.system.size = 0
  | _ => True

/-- Something holds at every event of a run. -/
def Along (P : State → Event → Prop) : State → List Event → Prop
  | _, [] => True
  | s, e :: events => P s e ∧ Along P (step s e) events

theorem Along.congr {P Q : State → Event → Prop} (h : ∀ s e, P s e ↔ Q s e) (s : State)
    (events : List Event) : Along P s events ↔ Along Q s events := by
  induction events generalizing s with
  | nil => exact Iff.rfl
  | cons e events ih => exact and_congr (h s e) (ih (step s e))

/-- One call of the worker. -/
theorem work_iff (env : Surroundings) (system buffer : IOBuffer) :
    ((work env system buffer).status = .write →
        ownResponse env buffer = some (work env system buffer).buffer.view) ↔
      ∀ p, env.protocol buffer.view = (.ok, p) → p ≠ [] → env.command p = some [] →
        buffer.size = 0 ∨ system.size = 0 := by
  unfold work ownResponse
  by_cases hsize : buffer.size = 0
  · rw [if_pos hsize]
    exact iff_of_true (fun h => nomatch h) fun _ _ _ _ => .inl hsize
  rw [if_neg hsize]
  rcases hp : env.protocol buffer.view with ⟨status, p⟩
  cases status with
  | bufferNotRead | error => exact iff_of_true (fun h => nomatch h) fun _ hq => nomatch hq
  | ok =>
    dsimp only
    by_cases hnil : p = []
    · rw [if_pos hnil, if_pos hnil]
      refine iff_of_true (fun h => congrArg some (emitError_spec h).symm) fun q hq hne => ?_
      exact absurd ((congrArg Prod.snd hq).symm.trans hnil) hne
    rw [if_neg hnil, if_neg hnil]
    cases hc : env.command p with
    | none =>
      refine iff_of_true (fun h => congrArg some (emitError_spec h).symm) fun q hq _ hq' => ?_
      obtain rfl : p = q := (Prod.mk.inj hq).2
      rw [hc] at hq'
      cases hq'
    | some calls =>
      dsimp only
      rcases List.eq_nil_or_concat calls with rfl | ⟨init, call, rfl⟩
      · -- Without a result the worker's buffer is swapped as it is.
        constructor
        · intro h q hq _ _
          refine .inr ?_
          by_contra hfull
          have hbad : (translate (execute [] system) buffer).status = .write := by
            unfold translate execute
            rw [List.foldl_nil, if_neg hfull]
          exact Option.some_ne_none _ (h hbad).symm
        · intro h hw
          have hempty := (h p rfl hnil hc).resolve_left hsize
          unfold translate execute at hw
          rw [List.foldl_nil, if_pos hempty] at hw
          cases hw
      · rw [List.concat_eq_append] at hc ⊢
        rw [List.getLast?_concat]
        refine iff_of_true (fun h => congrArg some (translate_execute h).symm)
          fun q hq _ hq' => ?_
        obtain rfl : p = q := (Prod.mk.inj hq).2
        rw [hc] at hq'
        exact absurd (Option.some.inj hq') (List.concat_ne_nil _ _)

theorem own_iff_sets (s : State) (e : Event) : Own s e ↔ Sets s e := by
  cases e with
  | receive | sent | close => exact Iff.rfl
  | request client env => exact work_iff env s.system (s.buffers client)

/-- In a run of any connections, every response that is written is that of its own request exactly
if no command that sets no result finds octets in the buffer of the worker. -/
theorem own_along_iff (s : State) (events : List Event) :
    Along Own s events ↔ Along Sets s events :=
  Along.congr own_iff_sets s events

/-- The start: all buffers are clean. -/
def State.init : State := ⟨IOBuffer.clear, fun _ => IOBuffer.clear⟩

/-- A client that pings, and another one whose command sets no result: it gets what the first one
has sent. -/
theorem leaks : ¬∀ events : List Event, Along Own State.init events := by
  intro h
  have hrun := h [
    .receive 0 (fun n => some (List.replicate n 0)) 3 [112, 119, 100],
    .request 0 ⟨fun _ => (.ok, [[112]]),
      fun _ => some [⟨.ok, .ok, fun n => some (List.replicate n 0)⟩], fun _ => none⟩,
    .receive 1 (fun n => some (List.replicate n 0)) 1 [120],
    .request 1 ⟨fun _ => (.ok, [[120]]), fun _ => some [], fun _ => none⟩]
  have hown := hrun.2.2.2.1 (by decide)
  cases hown

end HM4.KeyValueWorker
