import HM4.IOURingEngine
import HM4.KeyValueWorker

/-!
# The completion loop

The loop keeps a client for each connection and goes on from one completion to the next: what was
read goes to the worker, what the worker answers is written, and a connection that is done with is
closed. A client leaves when its close has come back.
-/

namespace HM4.KeyValueWorker.IOBuffer

/-- `STANDARD_READ_SIZE`. -/
def STANDARD_READ_SIZE : ℕ := 4 * 1024

/-- `provideBufferAtLeast`: the whole block from the used part on, and where that begins. -/
def provideBufferAtLeast (mm : MemoryManager) (size : ℕ) (b : IOBuffer) :
    IOBuffer × Option ℕ × ℕ :=
  match b.resize mm (b.used + size) with
  | none => (b, none, 0)
  | some grown =>
    match grown.resize mm grown.block.length with
    | none => (grown, none, 0)
    | some whole => (whole, some b.used, whole.used - b.used)

/-- `finalizeBuffer`, with the octets that were put at the offset. -/
def finalizeBuffer (mm : MemoryManager) (offset : ℕ) (received : Bytes.Key) (b : IOBuffer) :
    IOBuffer :=
  let filled : IOBuffer :=
    { b with
      block := b.block.take offset ++ received ++ b.block.drop (offset + received.length) }
  (filled.resize mm (offset + received.length)).getD filled

end HM4.KeyValueWorker.IOBuffer

namespace HM4.AsyncCompletionLoop

open Bytes KeyValueWorker IOURingEngine

/-! ## Clients -/

/-- `Client`. -/
structure Client where
  buffer : IOBuffer
  /-- `offcet`: where in the block the next read goes. -/
  offcet : Option ℕ

/-- `SparseFDStorage`: the clients under their descriptors. -/
abbrev Storage := List (ℕ × Client)

namespace Storage

/-- `operator[]`. -/
def find (clients : Storage) (fd : ℕ) : Option Client :=
  (List.find? (fun entry : ℕ × Client => decide (entry.1 = fd)) clients).map Prod.snd

/-- What is written through the pointer that `operator[]` gave. -/
def update (clients : Storage) (fd : ℕ) (client : Client) : Storage :=
  List.map (fun entry : ℕ × Client => if entry.1 = fd then (fd, client) else entry) clients

/-- `insert`. -/
def insert (capacity domain : ℕ) (clients : Storage) (fd : ℕ) (client : Client) :
    Option Storage :=
  if List.length clients ≥ capacity then none
  else if fd ≥ domain then none
  else if (clients.find fd).isSome then some (clients.update fd client)
  else some (clients ++ [(fd, client)])

/-- `remove`. -/
def remove (clients : Storage) (fd : ℕ) : Storage :=
  List.filter (fun entry : ℕ × Client => decide (entry.1 ≠ fd)) clients

/-- The descriptors of the clients. -/
def fds (clients : Storage) : List ℕ := List.map Prod.fst clients

end Storage

/-! ## The loop -/

/-- `MIN_CLIENTS`. -/
def MIN_CLIENTS : ℕ := 4

/-- `ECANCELED`. -/
def ECANCELED : ℤ := 125

/-- What the loop and its engine are made with. -/
structure Config where
  conf_rlimitNoFile : ℕ
  conf_maxClients : ℕ
  conf_maxServersFD : ℕ
  conf_maxRequestSize : ℕ

/-- `conf_maxClients_`. -/
def Config.maxClients (c : Config) : ℕ := max c.conf_maxClients MIN_CLIENTS

/-- `DisconnectStatus`. -/
inductive DisconnectStatus
  | normal
  | error
  | timeout
  | workerNormal
  | workerError
  | problemMapNotFound
  | problemBufferRead

/-- The loop, with the descriptors that are open, and what was logged of those that were closed. -/
structure Loop where
  ioEngine : Engine
  clients : Storage
  keepProcessing : Bool
  opened : List ℕ
  log : List (ℕ × DisconnectStatus)

/-- The worker, which may change the buffer it is called with. -/
abbrev Worker := IOBuffer → WorkerStatus × IOBuffer

namespace Loop

/-- A client changed in its place. -/
def store (l : Loop) (fd : ℕ) (client : Client) : Loop :=
  { l with clients := l.clients.update fd client }

/-- `req_Read_`. -/
def req_Read (mm : MemoryManager) (l : Loop) (fd : ℕ) (client : Client) : Loop :=
  let provided := client.buffer.provideBufferAtLeast mm IOBuffer.STANDARD_READ_SIZE
  { l with
    clients := l.clients.update fd ⟨provided.1, provided.2.1⟩
    ioEngine := (l.ioEngine.add_read fd provided.2.2 true).1 }

/-- `req_Write_`. -/
def req_Write (l : Loop) (fd : ℕ) (client : Client) : Loop :=
  { l with ioEngine := (l.ioEngine.add_write fd client.buffer.view true).1 }

/-- `req_Close_`. -/
def req_Close (l : Loop) (fd : ℕ) (status : DisconnectStatus) : Loop :=
  { l with ioEngine := (l.ioEngine.add_close fd).1, log := l.log ++ [(fd, status)] }

/-- `socket_close`, and what else gives a descriptor back. -/
def socket_close (l : Loop) (fd : ℕ) : Loop :=
  { l with opened := l.opened.filter fun x => decide (x ≠ fd) }

/-- `client_Worker_`. -/
def client_Worker (mm : MemoryManager) (worker : Worker) (l : Loop) (fd : ℕ) (client : Client) :
    Loop :=
  let answer := worker client.buffer
  let client := { client with buffer := answer.2 }
  let l := l.store fd client
  match answer.1 with
  | .pass => req_Read mm l fd client
  | .read => req_Read mm l fd client
  | .write => req_Write l fd client
  | .disconnect => req_Close l fd .workerNormal
  | .shutdown => { l with keepProcessing := false }
  | .disconnectError => req_Close l fd .workerError

/-- `insertFD_`. -/
def insertFD (c : Config) (mm : MemoryManager) (l : Loop) (fd : ℕ) : Option Loop :=
  let client : Client := ⟨IOBuffer.clear, none⟩
  (l.clients.insert c.maxClients c.conf_rlimitNoFile fd client).map fun clients =>
    req_Read mm { l with clients := clients } fd client

/-- `removeFD_`. -/
def removeFD (l : Loop) (fd : ℕ) : Loop :=
  match l.clients.find fd with
  | none => l
  | some _ => { l with clients := l.clients.remove fd }

/-- `done_Close_`. -/
def done_Close (l : Loop) (fd : ℕ) : Loop := (l.removeFD fd).socket_close fd

/-- `done_Accept_`. -/
def done_Accept (c : Config) (mm : MemoryManager) (l : Loop) (fd : ℤ) : Loop :=
  if fd < 0 then l
  else if l.clients.length < c.maxClients then
    match l.insertFD c mm fd.toNat with
    | some connected => connected
    | none => l.socket_close fd.toNat
  else l.socket_close fd.toNat

/-- `done_Read_`. -/
def done_Read (c : Config) (mm : MemoryManager) (worker : Worker) (received : Key) (l : Loop)
    (fd : ℕ) (result : ℤ) : Loop :=
  match l.clients.find fd with
  | none => req_Close l fd .problemMapNotFound
  | some client =>
    if result = -ECANCELED then req_Close l fd .timeout
    else if result < 0 then req_Close l fd .error
    else if result = 0 then req_Close l fd .normal
    else
      let client :=
        { client with
          buffer := client.buffer.finalizeBuffer mm (client.offcet.getD 0) received }
      let l := l.store fd client
      if client.buffer.size > c.conf_maxRequestSize then req_Close l fd .problemBufferRead
      else client_Worker mm worker l fd client

/-- `done_Write_`. -/
def done_Write (mm : MemoryManager) (l : Loop) (fd : ℕ) (result : ℤ) : Loop :=
  match l.clients.find fd with
  | none => req_Close l fd .problemMapNotFound
  | some client =>
    if result = -ECANCELED then req_Close l fd .timeout
    else if result < 0 then req_Close l fd .error
    else if result = 0 then req_Close l fd .normal
    else
      let client :=
        if client.buffer.size > 0 then
          { client with buffer := client.buffer.pop result.toNat }
        else client
      let l := l.store fd client
      if client.buffer.size = 0 then req_Read mm l fd client else req_Write l fd client

/-- The loop over the events goes on to the next. -/
def advance (l : Loop) (rest : List FDEvent) : Loop :=
  { l with ioEngine := { l.ioEngine with events := rest } }

@[simp] theorem clients_advance (l : Loop) (rest : List FDEvent) :
    (l.advance rest).clients = l.clients := rfl

/-- The `switch` of `process`. -/
def process (c : Config) (mm : MemoryManager) (worker : Worker) (received : Key) (l : Loop)
    (event : FDEvent) : Loop :=
  match event.op with
  | .accept => l.done_Accept c mm event.result
  | .read => l.done_Read c mm worker received event.fd event.result
  | .write => l.done_Write mm event.fd event.result
  | .close => l.done_Close event.fd
  | .none => l

/-- The constructor, over an engine that was made for as many clients. -/
def init (c : Config) (serverFD : List ℕ) : Loop where
  ioEngine :=
    serverFD.foldl (fun e fd => (e.addServerFD fd 1).1)
      (Engine.init c.conf_maxClients c.conf_maxServersFD)
  clients := []
  keepProcessing := true
  opened := serverFD
  log := []

end Loop

/-! ## Steps -/

/-- What may come back of an entry: any result, but an accept gives no descriptor that is open. -/
def Loop.Allows (l : Loop) : Sqe → ℤ → Prop
  | .accept _, res => 0 ≤ res → res < 2 ^ 31 ∧ res.toNat ∉ l.opened
  | _, _ => True

/-- The descriptors open once an entry is done. -/
def Loop.openedBy (l : Loop) : Sqe → ℤ → List ℕ
  | .accept _, res => if 0 ≤ res then res.toNat :: l.opened else l.opened
  | _, _ => l.opened

/-- One step of the kernel or of the loop. -/
inductive Step (c : Config) : Loop → Loop → Prop
  /-- The loop hands its submissions over. -/
  | submit (l : Loop) : Step c l { l with ioEngine := l.ioEngine.io_uring_submit }
  /-- The kernel is done with an entry, whichever. -/
  | complete (l : Loop) (pre post : List Sqe) (sqe : Sqe) (res : ℤ)
      (found : l.ioEngine.inflight = pre ++ sqe :: post) (allowed : l.Allows sqe res) :
      Step c l
        { l with
          ioEngine :=
            { l.ioEngine with
              inflight := pre ++ post
              cq := l.ioEngine.cq ++ [⟨sqe.data64, res⟩] }
          opened := l.openedBy sqe res }
  /-- A timeout ends without a completion. -/
  | skip (l : Loop) (pre post : List Sqe)
      (found : l.ioEngine.inflight = pre ++ .link_timeout :: post) :
      Step c l { l with ioEngine := { l.ioEngine with inflight := pre ++ post } }
  /-- The loop takes up to 256 completions, all events being dealt with. -/
  | wait (l : Loop) (empty : l.ioEngine.events = []) (running : l.keepProcessing = true) :
      Step c l { l with ioEngine := l.ioEngine.wait }
  /-- The loop deals with its next event. -/
  | deliver (l : Loop) (event : FDEvent) (rest : List FDEvent) (mm : MemoryManager)
      (worker : Worker) (received : Key) (next : l.ioEngine.events = event :: rest)
      (filled : received.length = event.result.toNat) :
      Step c l
        ((l.advance rest).process c mm worker received event)

/-- What is reached from the start. -/
inductive Reachable (c : Config) (serverFD : List ℕ) : Loop → Prop
  | start : Reachable c serverFD (Loop.init c serverFD)
  | step {l l' : Loop} (before : Reachable c serverFD l) (next : Step c l l') :
      Reachable c serverFD l'

end HM4.AsyncCompletionLoop
