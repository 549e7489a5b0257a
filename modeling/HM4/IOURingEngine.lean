import Mathlib.Data.List.Basic
import Mathlib.Data.Nat.Bitwise
import Mathlib.Data.Nat.Log
import Mathlib.Order.Lattice
import Mathlib.Tactic.Set
import Mathlib.Tactic.SplitIfs
import HM4.Bytes

/-!
# The ring engine

Requests are written into the submission queue, handed to the kernel by a system call, and come
back on the completion queue in whatever order they are done. All that comes back with a result is
the 64-bit word of the request, which packs its operation and its descriptor.
-/

namespace HM4.IOURingEngine

open Bytes

/-! ## The 64-bit word of a request -/

/-- `io_uring_user_pack::Op`. -/
inductive Op
  | read
  | write
  | accept
  | close

/-- The upper half of the word. -/
def Op.code : Op → ℕ
  | .read => 0x000000000
  | .write => 0x100000000
  | .accept => 0x200000000
  | .close => 0x300000000

/-- `DATA_IGNORE`. -/
def DATA_IGNORE : ℕ := 0xFFFFFFFFFFFFFFFF

/-- `OP_MASK`. -/
def OP_MASK : ℕ := 0xFFFFFFFF00000000

/-- `encode`, of a descriptor that is not negative. -/
def encode (op : Op) (fd : ℕ) : ℕ := op.code ||| fd

/-- `getOp`. -/
def getOp (data : ℕ) : ℕ := data &&& OP_MASK

/-- `getFD`. -/
def getFD (data : ℕ) : ℕ := data % 0x100000000

/-- `FDOperation`. -/
inductive FDOperation
  | none
  | accept
  | close
  | read
  | write
  deriving DecidableEq

/-- `convertOp`. -/
def convertOp (op : ℕ) : FDOperation :=
  if op = Op.accept.code then .accept
  else if op = Op.read.code then .read
  else if op = Op.write.code then .write
  else .close

/-- The operation an upper half stands for. -/
def Op.toFD : Op → FDOperation
  | .read => .read
  | .write => .write
  | .accept => .accept
  | .close => .close

theorem Op.convertOp_code (op : Op) : convertOp op.code = op.toFD := by
  cases op <;> rfl

/-- The two halves do not meet. -/
theorem encode_eq_add (op : Op) {fd : ℕ} (h : fd < 2 ^ 32) : encode op fd = op.code + fd := by
  have hcode : op.code = 2 ^ 32 * (op.code / 2 ^ 32) := by cases op <;> rfl
  rw [encode, hcode]
  exact (Nat.two_pow_add_eq_or_of_lt h _).symm

theorem code_le (op : Op) : op.code ≤ 0x300000000 := by
  cases op <;> decide

theorem getFD_encode (op : Op) {fd : ℕ} (h : fd < 2 ^ 32) : getFD (encode op fd) = fd := by
  rw [encode_eq_add op h, getFD]
  cases op <;> simp only [Op.code] <;> omega

/-- A descriptor has nothing under the mask of the operation. -/
theorem and_OP_MASK {fd : ℕ} (h : fd < 2 ^ 32) : fd &&& OP_MASK = 0 := by
  have hmask : OP_MASK = 2 ^ 32 * 0xFFFFFFFF := by decide
  refine Nat.eq_of_testBit_eq fun i => ?_
  rw [Nat.testBit_and, Nat.zero_testBit, hmask, Nat.testBit_two_pow_mul]
  by_cases hi : 32 ≤ i
  · have hbit : fd.testBit i = false :=
      Nat.testBit_lt_two_pow (lt_of_lt_of_le h (Nat.pow_le_pow_right (by omega) hi))
    rw [hbit, Bool.false_and]
  · rw [decide_eq_false hi, Bool.false_and, Bool.and_false]

theorem getOp_encode (op : Op) {fd : ℕ} (h : fd < 2 ^ 32) : getOp (encode op fd) = op.code := by
  rw [getOp, encode, Nat.and_or_distrib_right, and_OP_MASK h, Nat.or_zero]
  cases op <;> decide

theorem encode_ne_ignore (op : Op) {fd : ℕ} (h : fd < 2 ^ 32) : encode op fd ≠ DATA_IGNORE := by
  rw [encode_eq_add op h, DATA_IGNORE]
  have hcode := code_le op
  omega

/-! ## The rings -/

/-- A submission queue entry. -/
inductive Sqe
  | accept (fd : ℕ)
  | close (fd : ℕ)
  | read (fd size : ℕ)
  | write (fd : ℕ) (data : Key)
  | link_timeout

/-- The word set with `io_uring_sqe_set_data64`. -/
def Sqe.data64 : Sqe → ℕ
  | .accept fd => encode .accept fd
  | .close fd => encode .close fd
  | .read fd _ => encode .read fd
  | .write fd _ => encode .write fd
  | .link_timeout => DATA_IGNORE

/-- A completion queue entry. -/
structure Cqe where
  data64 : ℕ
  res : ℤ

/-- `FDEvent`. -/
structure FDEvent where
  fd : ℕ
  result : ℤ
  op : FDOperation

/-- The engine with its ring. What the kernel works on is part of it, and so is the number of
submissions that found no room. -/
structure Engine where
  /-- The entries of the submission queue. -/
  entries : ℕ
  /-- `conf_maxServersFD_`. -/
  conf_maxServersFD : ℕ
  sq : List Sqe
  inflight : List Sqe
  cq : List Cqe
  events : List FDEvent
  refused : ℕ

/-- `RESERVED_FD`. -/
def RESERVED_FD : ℕ := 32

/-- `MAX_EVENT_PER_LOOP`. -/
def MAX_EVENT_PER_LOOP : ℕ := 256

/-- `qsize`, in 32 bits. -/
def qsize (conf_maxClients conf_maxServersFD : ℕ) : ℕ :=
  ((conf_maxClients + conf_maxServersFD) * 2 + max RESERVED_FD conf_maxServersFD) % 2 ^ 32

namespace Engine

/-- The constructor: the kernel rounds the size of the queue up to a power of two. -/
def init (conf_maxClients conf_maxServersFD : ℕ) : Engine where
  entries := 2 ^ Nat.clog 2 (qsize conf_maxClients conf_maxServersFD)
  conf_maxServersFD := conf_maxServersFD
  sq := []
  inflight := []
  cq := []
  events := []
  refused := 0

/-- `io_uring_sq_space_left`. -/
def space_left (e : Engine) : ℕ := e.entries - e.sq.length

/-- Entries put into the submission queue together, or refused. -/
def add (e : Engine) (sqes : List Sqe) : Engine × Bool :=
  if e.space_left < sqes.length then ({ e with refused := e.refused + 1 }, false)
  else ({ e with sq := e.sq ++ sqes }, true)

/-- `chain_timeout`. -/
def chain_timeout (timeout : Bool) (sqe : Sqe) : List Sqe :=
  if timeout then [sqe, .link_timeout] else [sqe]

/-- `add_accept`. -/
def add_accept (e : Engine) (fd : ℕ) : Engine × Bool := e.add [.accept fd]

/-- `add_close`. -/
def add_close (e : Engine) (fd : ℕ) : Engine × Bool := e.add [.close fd]

/-- `add_read`. -/
def add_read (e : Engine) (fd size : ℕ) (timeout : Bool) : Engine × Bool :=
  e.add (chain_timeout timeout (.read fd size))

/-- `add_write`. -/
def add_write (e : Engine) (fd : ℕ) (data : Key) (timeout : Bool) : Engine × Bool :=
  e.add (chain_timeout timeout (.write fd data))

/-- The loop of `addServerFD`. -/
def addServerFDLoop (fd : ℕ) : ℕ → Engine → Engine × Bool
  | 0, e => (e, true)
  | count + 1, e =>
    if e.conf_maxServersFD = 0 then (e, false)
    else
      let added := e.add_accept fd
      if added.2 then
        addServerFDLoop fd count
          { added.1 with conf_maxServersFD := added.1.conf_maxServersFD - 1 }
      else (added.1, false)

/-- `addServerFD`. -/
def addServerFD (e : Engine) (fd count : ℕ) : Engine × Bool :=
  if count = 0 then (e, false) else addServerFDLoop fd count e

/-- `io_uring_submit`: the kernel takes over the submission queue. -/
def io_uring_submit (e : Engine) : Engine :=
  { e with sq := [], inflight := e.inflight ++ e.sq }

/-- The loop of `wait` over the completions it finds. -/
def forEachCqe : List Cqe → Engine → Engine
  | [], e => { e with cq := [] }
  | cqe :: cq, e =>
    if cqe.data64 = DATA_IGNORE then forEachCqe cq e
    else
      let fd := getFD cqe.data64
      let op := convertOp (getOp cqe.data64)
      let e := if op = .accept then (e.add_accept fd).1 else e
      let e := { e with events := e.events ++ [⟨fd, cqe.res, op⟩] }
      if e.events.length = MAX_EVENT_PER_LOOP then { e with cq := cq } else forEachCqe cq e

/-- `wait`, after the submission and once there is a completion. -/
def wait (e : Engine) : Engine := forEachCqe e.cq { e with events := [] }

end Engine

/-! ## Tasks -/

/-- An operation on a descriptor. -/
abbrev Task := FDOperation × ℕ

/-- What an entry asks for; the timeout of another entry asks for nothing. -/
def Sqe.task : Sqe → Option Task
  | .accept fd => some (.accept, fd)
  | .close fd => some (.close, fd)
  | .read fd _ => some (.read, fd)
  | .write fd _ => some (.write, fd)
  | .link_timeout => none

/-- What an event is the end of. -/
def FDEvent.task (event : FDEvent) : Task := (event.op, event.fd)

/-- The event of a completion. -/
def Cqe.event (cqe : Cqe) : Option FDEvent :=
  if cqe.data64 = DATA_IGNORE then none
  else some ⟨getFD cqe.data64, cqe.res, convertOp (getOp cqe.data64)⟩

/-- What a completion is the end of. -/
def Cqe.task (cqe : Cqe) : Option Task := cqe.event.map FDEvent.task

/-- The accept that follows an event. -/
def FDEvent.again (event : FDEvent) : List Sqe :=
  if event.op = .accept then [.accept event.fd] else []

/-- The descriptors that are accepted on. -/
def armed (tasks : List Task) : List ℕ :=
  (tasks.filter fun task => decide (task.1 = .accept)).map Prod.snd

/-- The descriptors of all other operations. -/
def busy (tasks : List Task) : List ℕ :=
  (tasks.filter fun task => decide (task.1 ≠ .accept)).map Prod.snd

@[simp] theorem armed_append (a b : List Task) : armed (a ++ b) = armed a ++ armed b := by
  rw [armed, List.filter_append, List.map_append]
  rfl

@[simp] theorem busy_append (a b : List Task) : busy (a ++ b) = busy a ++ busy b := by
  rw [busy, List.filter_append, List.map_append]
  rfl

theorem busy_singleton {op : FDOperation} {fd : ℕ} (h : op ≠ .accept) :
    busy [(op, fd)] = [fd] := by
  simp [busy, h]

theorem armed_singleton {op : FDOperation} {fd : ℕ} (h : op ≠ .accept) :
    armed [(op, fd)] = [] := by
  simp [armed, h]

theorem busy_cons {op : FDOperation} {fd : ℕ} (h : op ≠ .accept) (tasks : List Task) :
    busy ((op, fd) :: tasks) = fd :: busy tasks := by
  simp [busy, h]

theorem busy_cons_accept (fd : ℕ) (tasks : List Task) :
    busy ((.accept, fd) :: tasks) = busy tasks := by
  simp [busy]

theorem busy_perm {a b : List Task} (h : a.Perm b) : (busy a).Perm (busy b) :=
  (h.filter _).map _

theorem mem_armed {tasks : List Task} {fd : ℕ} : fd ∈ armed tasks ↔ (.accept, fd) ∈ tasks := by
  simp [armed]

theorem mem_busy {tasks : List Task} {fd : ℕ} :
    fd ∈ busy tasks ↔ ∃ op, op ≠ .accept ∧ (op, fd) ∈ tasks := by
  simp only [busy, List.mem_map, List.mem_filter, decide_eq_true_iff]
  constructor
  · rintro ⟨⟨op, _⟩, ⟨hmem, hop⟩, rfl⟩
    exact ⟨op, hop, hmem⟩
  · rintro ⟨op, hop, hmem⟩
    exact ⟨(op, fd), ⟨hmem, hop⟩, rfl⟩

/-- The accepts that follow events keep no descriptor busy. -/
theorem busy_again (events : List FDEvent) :
    busy ((events.flatMap FDEvent.again).filterMap Sqe.task) = [] := by
  induction events with
  | nil => rfl
  | cons event events ih =>
    rw [List.flatMap_cons, List.filterMap_append, busy_append, ih, List.append_nil]
    by_cases h : event.op = .accept <;> simp [FDEvent.again, busy, Sqe.task, h]

theorem again_task {events : List FDEvent} {task : Task}
    (h : task ∈ (events.flatMap FDEvent.again).filterMap Sqe.task) : task.1 = .accept := by
  by_contra hop
  have hbusy : task.2 ∈ busy ((events.flatMap FDEvent.again).filterMap Sqe.task) :=
    mem_busy.mpr ⟨task.1, hop, h⟩
  rw [busy_again] at hbusy
  exact List.not_mem_nil hbusy

/-- What they accept on is what the events were accepts on. -/
theorem armed_again (events : List FDEvent) :
    armed ((events.flatMap FDEvent.again).filterMap Sqe.task) =
      armed (events.map FDEvent.task) := by
  induction events with
  | nil => rfl
  | cons event events ih =>
    rw [List.flatMap_cons, List.filterMap_append, armed_append, ih, List.map_cons,
      ← List.singleton_append, armed_append]
    by_cases h : event.op = .accept <;>
      simp [FDEvent.again, FDEvent.task, armed, Sqe.task, h]

/-- An event renews as many accepts as it ends. -/
theorem again_length (event : FDEvent) : event.again.length = (armed [event.task]).length := by
  by_cases h : event.op = .accept <;> simp [FDEvent.again, armed, FDEvent.task, h]

theorem flatMap_again_length (events : List FDEvent) :
    (events.flatMap FDEvent.again).length = (armed (events.map FDEvent.task)).length := by
  induction events with
  | nil => rfl
  | cons event events ih =>
    rw [List.flatMap_cons, List.length_append, ih, again_length, List.map_cons,
      ← List.length_append, ← armed_append, List.singleton_append]

/-- Every operation but an accept keeps its descriptor busy, once. -/
theorem busy_count (tasks : List Task) {fd : ℕ} (h : fd ∉ armed tasks) :
    (tasks.filter fun task => decide (task.2 = fd)).length = (busy tasks).count fd := by
  induction tasks with
  | nil => rfl
  | cons task tasks ih =>
    obtain ⟨op, fd'⟩ := task
    rw [mem_armed, List.mem_cons, not_or] at h
    have hrest := ih fun hmem => h.2 (mem_armed.mp hmem)
    have hop : fd' = fd → op ≠ .accept := by
      rintro rfl rfl
      exact h.1 rfl
    rw [busy] at hrest ⊢
    by_cases hfd : fd' = fd
    · simp [hfd, hop hfd, hrest]
    · by_cases haccept : op = .accept <;> simp [hfd, haccept, hrest]

/-- What comes back of a request says what it was. -/
theorem task_completed {sqe : Sqe} (res : ℤ) (h : ∀ task ∈ sqe.task, task.2 < 2 ^ 32) :
    (Cqe.mk sqe.data64 res).event =
      sqe.task.map fun task => ⟨task.2, res, task.1⟩ := by
  have packed : ∀ (op : Op) {fd : ℕ}, fd < 2 ^ 32 →
      (Cqe.mk (encode op fd) res).event = some ⟨fd, res, op.toFD⟩ := by
    intro op fd hfd
    rw [Cqe.event, if_neg (encode_ne_ignore op hfd), getFD_encode op hfd, getOp_encode op hfd,
      op.convertOp_code]
  cases sqe with
  | accept fd => exact packed .accept (h _ rfl)
  | close fd => exact packed .close (h _ rfl)
  | read fd size => exact packed .read (h _ rfl)
  | write fd data => exact packed .write (h _ rfl)
  | link_timeout => exact if_pos rfl

/-! ## What the calls leave -/

namespace Engine

/-- What the kernel has to do, handed over or not. -/
def waiting (e : Engine) : List Task :=
  e.sq.filterMap Sqe.task ++ e.inflight.filterMap Sqe.task

/-- The events the loop has to deal with, taken from the ring or not. -/
def pending (e : Engine) : List FDEvent := e.events ++ e.cq.filterMap Cqe.event

/-- All that is outstanding. -/
def tasks (e : Engine) : List Task := e.waiting ++ e.pending.map FDEvent.task

/-- The entries waiting behind those in the submission queue. -/
def queued (e : Engine) (sqes : List Sqe) : Engine := { e with sq := e.sq ++ sqes }

theorem add_of_room {e : Engine} {sqes : List Sqe} (h : e.sq.length + sqes.length ≤ e.entries) :
    e.add sqes = (e.queued sqes, true) := by
  rw [add, space_left, if_neg (by omega), queued]

theorem renew_eq {e : Engine} {event : FDEvent}
    (h : e.sq.length + (armed [event.task]).length ≤ e.entries) :
    (if event.op = .accept then (e.add_accept event.fd).1 else e) = e.queued event.again := by
  rw [← again_length] at h
  by_cases hop : event.op = .accept
  · rw [FDEvent.again, if_pos hop] at h ⊢
    rw [if_pos hop, add_accept, add_of_room h]
  · rw [FDEvent.again, if_neg hop, if_neg hop, queued, List.append_nil]

/-- The loop of `wait` takes the completions up to some point. As long as there is room for the
accepts it renews, all of them are renewed. -/
theorem forEachCqe_eq (cq : List Cqe) (e : Engine)
    (h : e.sq.length + (armed (cq.filterMap Cqe.task)).length ≤ e.entries) :
    ∃ taken rest, cq = taken ++ rest ∧
      forEachCqe cq e =
        { e with
          sq := e.sq ++ (taken.filterMap Cqe.event).flatMap FDEvent.again
          cq := rest
          events := e.events ++ taken.filterMap Cqe.event } := by
  induction cq generalizing e with
  | nil =>
    refine ⟨[], [], rfl, ?_⟩
    simp [forEachCqe]
  | cons cqe cq ih =>
    rw [forEachCqe]
    by_cases hignore : cqe.data64 = DATA_IGNORE
    · have hevent : cqe.event = none := if_pos hignore
      have htask : cqe.task = none := by rw [Cqe.task, hevent, Option.map_none]
      rw [List.filterMap_cons_none htask] at h
      obtain ⟨taken, rest, hcq, heq⟩ := ih e h
      refine ⟨cqe :: taken, rest, by rw [hcq, List.cons_append], ?_⟩
      rw [if_pos hignore, heq, List.filterMap_cons_none hevent]
    · have hevent : cqe.event = some ⟨getFD cqe.data64, cqe.res, convertOp (getOp cqe.data64)⟩ :=
        if_neg hignore
      set event : FDEvent := ⟨getFD cqe.data64, cqe.res, convertOp (getOp cqe.data64)⟩
      have htask : cqe.task = some event.task := by rw [Cqe.task, hevent, Option.map_some]
      rw [List.filterMap_cons_some htask, ← List.singleton_append, armed_append,
        List.length_append] at h
      rw [if_neg hignore]
      dsimp only
      rw [show (if event.op = .accept then (e.add_accept event.fd).1 else e) =
        e.queued event.again from renew_eq (by omega)]
      split_ifs with hfull
      · refine ⟨[cqe], cq, rfl, ?_⟩
        simp [hevent, queued, event]
      · obtain ⟨taken, rest, hcq, heq⟩ := ih
          { e.queued event.again with events := e.events ++ [event] } (by
            rw [← again_length] at h
            simp only [queued, List.length_append]
            omega)
        refine ⟨cqe :: taken, rest, by rw [hcq, List.cons_append], ?_⟩
        refine heq.trans ?_
        simp [hevent, queued]

end Engine

end HM4.IOURingEngine
