import HM4.AsyncCompletionLoop
import Mathlib.Data.List.Count
import Mathlib.Data.List.Nodup
import Mathlib.Tactic.SplitIfs

/-!
# One operation for each client

Every handler that ends an operation of a client begins the next one, so the descriptors that are
busy are those of the clients, each once. This also bounds what can be waiting in the submission
queue between two submissions, which is why no request is refused.
-/

namespace HM4.AsyncCompletionLoop

open Bytes KeyValueWorker IOURingEngine

/-! ## The storage -/

namespace Storage

@[simp] theorem fds_update (clients : Storage) (fd : ℕ) (client : Client) :
    (clients.update fd client).fds = clients.fds := by
  rw [update, fds, List.map_map]
  refine List.map_congr_left fun entry _ => ?_
  by_cases h : entry.1 = fd <;> simp [h]

theorem find_of_mem {clients : Storage} {fd : ℕ} (h : fd ∈ clients.fds) :
    ∃ client, clients.find fd = some client := by
  obtain ⟨entry, hentry, hfd⟩ := List.mem_map.mp h
  have hsome : (List.find? (fun entry : ℕ × Client => decide (entry.1 = fd)) clients).isSome :=
    List.find?_isSome.mpr ⟨entry, hentry, decide_eq_true hfd⟩
  obtain ⟨found, hfound⟩ := Option.isSome_iff_exists.mp hsome
  exact ⟨found.2, by rw [find, hfound, Option.map_some]⟩

theorem find_of_not_mem {clients : Storage} {fd : ℕ} (h : fd ∉ clients.fds) :
    clients.find fd = none := by
  have hnone : List.find? (fun entry : ℕ × Client => decide (entry.1 = fd)) clients = none :=
    List.find?_eq_none.mpr fun entry hentry hfd =>
      h (List.mem_map.mpr ⟨entry, hentry, of_decide_eq_true hfd⟩)
  rw [find, hnone, Option.map_none]

/-- A new client is put behind the others. -/
theorem fds_insert {capacity domain fd : ℕ} {clients after : Storage} {client : Client}
    (hnew : fd ∉ clients.fds) (h : clients.insert capacity domain fd client = some after) :
    after.fds = clients.fds ++ [fd] := by
  rw [insert, find_of_not_mem hnew] at h
  split_ifs at h with hfull hdomain hthere
  · exact absurd hthere Bool.false_ne_true
  · obtain rfl := Option.some.inj h
    rw [fds, List.map_append]
    rfl

theorem fds_remove (clients : Storage) (fd : ℕ) :
    (clients.remove fd).fds = clients.fds.filter fun x => decide (x ≠ fd) := by
  rw [remove, fds, fds, List.filter_map]
  rfl

end Storage

/-! ## Requests -/

/-- The entries of one request on a descriptor. -/
inductive Request (fd : ℕ) : List Sqe → Prop
  | close : Request fd [.close fd]
  | read (size : ℕ) : Request fd [.read fd size, .link_timeout]
  | write (data : Key) : Request fd [.write fd data, .link_timeout]

theorem Request.length_le {fd : ℕ} {sqes : List Sqe} (h : Request fd sqes) : sqes.length ≤ 2 := by
  cases h <;> simp

theorem Request.tasks {fd : ℕ} {sqes : List Sqe} (h : Request fd sqes) :
    ∃ op : FDOperation, op ≠ .accept ∧ op ≠ .none ∧ sqes.filterMap Sqe.task = [(op, fd)] := by
  cases h with
  | close => exact ⟨.close, by decide, by decide, rfl⟩
  | read size => exact ⟨.read, by decide, by decide, rfl⟩
  | write data => exact ⟨.write, by decide, by decide, rfl⟩

/-- At most one request: it fits its descriptor, and is no accept. -/
theorem request_tasks {sqes : List Sqe} (h : sqes = [] ∨ ∃ fd, Request fd sqes) :
    sqes.length ≤ 2 * (busy (sqes.filterMap Sqe.task)).length ∧
      (∀ task ∈ sqes.filterMap Sqe.task, task.1 ≠ .none) ∧
      armed (sqes.filterMap Sqe.task) = [] := by
  rcases h with rfl | ⟨fd, h⟩
  · exact ⟨Nat.zero_le _, fun _ h => absurd h List.not_mem_nil, rfl⟩
  · obtain ⟨op, haccept, hnone, htasks⟩ := h.tasks
    rw [htasks, busy_singleton haccept, armed_singleton haccept]
    exact ⟨h.length_le, fun task htask => by rwa [List.mem_singleton.mp htask], rfl⟩

/-- Room for a request and its timeout. -/
def Room (e : Engine) : Prop := e.sq.length + 2 ≤ e.entries

/-- One request on a descriptor was submitted, and no client came or went. -/
structure Serves (fd : ℕ) (l l' : Loop) : Prop where
  running : l'.keepProcessing = l.keepProcessing
  fds : l'.clients.fds = l.clients.fds
  opened : l'.opened = l.opened
  engine : ∃ sqes, Request fd sqes ∧ l'.ioEngine = l.ioEngine.queued sqes

namespace Loop

variable {l : Loop} {fd : ℕ} (room : Room l.ioEngine)
include room

theorem added {sqes : List Sqe} (h : Request fd sqes) :
    (l.ioEngine.add sqes).1 = l.ioEngine.queued sqes := by
  have hlength := h.length_le
  rw [Room] at room
  rw [Engine.add_of_room (by omega)]

theorem req_Read_serves (mm : MemoryManager) (client : Client) :
    Serves fd l (req_Read mm l fd client) :=
  ⟨rfl, Storage.fds_update _ _ _, rfl, _, .read _, added room (.read _)⟩

theorem req_Write_serves (client : Client) : Serves fd l (req_Write l fd client) :=
  ⟨rfl, rfl, rfl, _, .write _, added room (.write _)⟩

theorem req_Close_serves (status : DisconnectStatus) : Serves fd l (req_Close l fd status) :=
  ⟨rfl, rfl, rfl, _, .close, added room .close⟩

theorem room_store (client : Client) : Room (l.store fd client).ioEngine := room

omit room in
theorem Serves.of_store {l' : Loop} {client : Client} (h : Serves fd (l.store fd client) l') :
    Serves fd l l' :=
  ⟨h.running, h.fds.trans (Storage.fds_update _ _ _), h.opened, h.engine⟩

/-- Whatever the worker answers, short of a shutdown, a request follows. -/
theorem client_Worker_serves (mm : MemoryManager) (worker : Worker) (client : Client) :
    (client_Worker mm worker l fd client).keepProcessing = false ∨
      Serves fd l (client_Worker mm worker l fd client) := by
  rw [client_Worker]
  have stored : ∀ client, Room (l.store fd client).ioEngine := room_store room
  cases (worker client.buffer).1 with
  | pass => exact .inr (Serves.of_store (req_Read_serves (stored _) mm _))
  | read => exact .inr (Serves.of_store (req_Read_serves (stored _) mm _))
  | write => exact .inr (Serves.of_store (req_Write_serves (stored _) _))
  | disconnect => exact .inr (Serves.of_store (req_Close_serves (stored _) _))
  | shutdown => exact .inl rfl
  | disconnectError => exact .inr (Serves.of_store (req_Close_serves (stored _) _))

theorem done_Read_serves (c : Config) (mm : MemoryManager) (worker : Worker) (received : Key)
    (result : ℤ) :
    (l.done_Read c mm worker received fd result).keepProcessing = false ∨
      Serves fd l (l.done_Read c mm worker received fd result) := by
  rw [done_Read]
  cases l.clients.find fd with
  | none => exact .inr (req_Close_serves room _)
  | some client =>
    dsimp only
    split_ifs
    · exact .inr (req_Close_serves room _)
    · exact .inr (req_Close_serves room _)
    · exact .inr (req_Close_serves room _)
    · exact .inr (Serves.of_store (req_Close_serves (room_store room _) _))
    · exact (client_Worker_serves (room_store room _) mm worker _).imp_right Serves.of_store

theorem done_Write_serves (mm : MemoryManager) (result : ℤ) :
    Serves fd l (l.done_Write mm fd result) := by
  rw [done_Write]
  cases l.clients.find fd with
  | none => exact req_Close_serves room _
  | some client =>
    dsimp only
    generalize hrest : (if client.buffer.size > 0 then
      { client with buffer := client.buffer.pop result.toNat } else client) = client'
    split_ifs
    · exact req_Close_serves room _
    · exact req_Close_serves room _
    · exact req_Close_serves room _
    · exact Serves.of_store (req_Read_serves (room_store room client') mm client')
    · exact Serves.of_store (req_Write_serves (room_store room client') client')

end Loop

/-! ## The invariant -/

/-- The descriptor an event brings. -/
def arrival (event : FDEvent) : Option ℕ :=
  if event.op = .accept ∧ 0 ≤ event.result then some event.result.toNat else none

/-- The descriptors that were accepted and that the loop has not seen yet. -/
def Loop.arrivals (l : Loop) : List ℕ := l.ioEngine.pending.filterMap arrival

/-- The descriptors of the entries that are yet to be submitted. -/
def queuedTasks (e : Engine) : List Task := e.sq.filterMap Sqe.task

/-- What holds of a loop between any two steps. -/
structure Inv (c : Config) (serverFD : List ℕ) (l : Loop) : Prop where
  /-- Each client is busy, once, and nobody else is. -/
  busy : (busy l.ioEngine.tasks).Perm l.clients.fds
  known : ∀ task ∈ l.ioEngine.tasks, task.1 ≠ .none
  nodup : (l.arrivals ++ l.clients.fds).Nodup
  opened : ∀ fd ∈ serverFD ++ (l.arrivals ++ l.clients.fds), fd ∈ l.opened
  apart : ∀ fd ∈ l.arrivals ++ l.clients.fds, fd ∉ serverFD ∧ fd < 2 ^ 31
  listening : ∀ fd ∈ armed l.ioEngine.tasks, fd ∈ serverFD
  accepts : (armed l.ioEngine.waiting).length +
    (armed ((l.ioEngine.cq.filterMap Cqe.event).map FDEvent.task)).length ≤ c.conf_maxServersFD
  queue : l.ioEngine.sq.length ≤
    2 * (IOURingEngine.busy (queuedTasks l.ioEngine)).length +
      (armed (queuedTasks l.ioEngine)).length
  clients : l.clients.fds.length ≤ c.maxClients
  refused : l.ioEngine.refused = 0
  entries : 2 * c.maxClients + c.conf_maxServersFD ≤ l.ioEngine.entries

namespace Inv

variable {c : Config} {serverFD : List ℕ} {l : Loop}

theorem submit (inv : Inv c serverFD l) :
    Inv c serverFD { l with ioEngine := l.ioEngine.io_uring_submit } := by
  have hperm : l.ioEngine.io_uring_submit.tasks.Perm l.ioEngine.tasks := by
    rw [Engine.tasks, Engine.tasks, Engine.waiting, Engine.waiting]
    simp only [Engine.io_uring_submit, Engine.pending, List.filterMap_nil, List.nil_append,
      List.filterMap_append]
    exact List.Perm.append_right _ List.perm_append_comm
  have hwaiting : (armed l.ioEngine.io_uring_submit.waiting).length =
      (armed l.ioEngine.waiting).length := by
    simp only [Engine.io_uring_submit, Engine.waiting, List.filterMap_nil, List.nil_append,
      List.filterMap_append, armed_append, List.length_append]
    omega
  exact
    { busy := (busy_perm hperm).trans inv.busy
      known := fun task h => inv.known task (hperm.mem_iff.mp h)
      nodup := inv.nodup
      opened := inv.opened
      apart := inv.apart
      listening := fun fd h => inv.listening fd (mem_armed.mpr (hperm.mem_iff.mp (mem_armed.mp h)))
      accepts := hwaiting ▸ inv.accepts
      queue := Nat.zero_le _
      clients := inv.clients
      refused := inv.refused
      entries := inv.entries }

/-- Every outstanding operation is on a descriptor that fits into its half of the word. -/
theorem fd_lt (inv : Inv c serverFD l) (hserver : ∀ fd ∈ serverFD, fd < 2 ^ 31) {task : Task}
    (h : task ∈ l.ioEngine.tasks) : task.2 < 2 ^ 32 := by
  obtain ⟨op, fd⟩ := task
  have hlt : fd < 2 ^ 31 := by
    by_cases hop : op = .accept
    · subst hop
      exact hserver fd (inv.listening fd (mem_armed.mpr h))
    · have hbusy : fd ∈ IOURingEngine.busy l.ioEngine.tasks := mem_busy.mpr ⟨op, hop, h⟩
      exact (inv.apart fd (List.mem_append_right _ (inv.busy.mem_iff.mp hbusy))).2
  show fd < 2 ^ 32
  omega

end Inv

/-! ## Completions -/

theorem filterMap_single {α β : Type*} (f : α → Option β) (a : α) :
    [a].filterMap f = (f a).toList := by
  cases h : f a <;> simp [h]

/-- The events that the completion of an entry makes. -/
def completion (sqe : Sqe) (res : ℤ) : List FDEvent := (Cqe.mk sqe.data64 res).event.toList

theorem completion_eq {sqe : Sqe} {res : ℤ} (h : ∀ task ∈ sqe.task, task.2 < 2 ^ 32) :
    completion sqe res = sqe.task.toList.map fun task => ⟨task.2, res, task.1⟩ := by
  rw [completion, task_completed res h]
  cases sqe.task <;> rfl

theorem completion_task {sqe : Sqe} {res : ℤ} (h : ∀ task ∈ sqe.task, task.2 < 2 ^ 32) :
    (completion sqe res).map FDEvent.task = sqe.task.toList := by
  rw [completion_eq h, List.map_map]
  exact List.map_id _

/-- A descriptor that comes back is a new one, and is open from then on. -/
theorem completion_arrival {l : Loop} {sqe : Sqe} {res : ℤ}
    (h : ∀ task ∈ sqe.task, task.2 < 2 ^ 32) (allowed : l.Allows sqe res) {fd : ℕ}
    (hfd : fd ∈ (completion sqe res).filterMap arrival) :
    fd ∉ l.opened ∧ fd < 2 ^ 31 ∧ fd ∈ l.openedBy sqe res := by
  rw [completion_eq h] at hfd
  cases sqe with
  | accept listening =>
    by_cases hres : 0 ≤ res
    · obtain ⟨hlt, hnew⟩ := allowed hres
      obtain rfl : fd = res.toNat := by simpa [Sqe.task, arrival, hres] using hfd
      refine ⟨hnew, by omega, ?_⟩
      rw [Loop.openedBy, if_pos hres]
      exact List.mem_cons_self
    · simp [Sqe.task, arrival, hres] at hfd
  | close fd => simp [Sqe.task, arrival] at hfd
  | read fd size => simp [Sqe.task, arrival] at hfd
  | write fd data => simp [Sqe.task, arrival] at hfd
  | link_timeout => simp [Sqe.task] at hfd

theorem completion_nodup (sqe : Sqe) (res : ℤ) :
    ((completion sqe res).filterMap arrival).Nodup := by
  rw [completion]
  cases (Cqe.mk sqe.data64 res).event with
  | none => exact List.nodup_nil
  | some event =>
    rw [Option.toList_some, filterMap_single]
    cases arrival event with
    | none => exact List.nodup_nil
    | some fd => exact List.nodup_singleton fd

theorem mem_openedBy {l : Loop} (sqe : Sqe) (res : ℤ) {fd : ℕ} (h : fd ∈ l.opened) :
    fd ∈ l.openedBy sqe res := by
  cases sqe with
  | accept listening =>
    rw [Loop.openedBy]
    split_ifs
    · exact List.mem_cons_of_mem _ h
    · exact h
  | _ => exact h

namespace Inv

variable {c : Config} {serverFD : List ℕ} {l : Loop}

theorem complete (inv : Inv c serverFD l) (hserver : ∀ fd ∈ serverFD, fd < 2 ^ 31)
    {pre post : List Sqe} {sqe : Sqe} {res : ℤ}
    (found : l.ioEngine.inflight = pre ++ sqe :: post) (allowed : l.Allows sqe res) :
    Inv c serverFD
      { l with
        ioEngine :=
          { l.ioEngine with
            inflight := pre ++ post
            cq := l.ioEngine.cq ++ [⟨sqe.data64, res⟩] }
        opened := l.openedBy sqe res } := by
  have hsqe : ∀ task ∈ sqe.task, task.2 < 2 ^ 32 := by
    intro task htask
    refine inv.fd_lt hserver (List.mem_append_left _ (List.mem_append_right _ ?_))
    rw [found]
    exact List.mem_filterMap.mpr ⟨sqe, by simp, htask⟩
  have htask : (completion sqe res).map FDEvent.task = sqe.task.toList := completion_task hsqe
  generalize hl' : ({ l with
        ioEngine :=
          { l.ioEngine with
            inflight := pre ++ post
            cq := l.ioEngine.cq ++ [⟨sqe.data64, res⟩] }
        opened := l.openedBy sqe res } : Loop) = l'
  have hwaiting : l.ioEngine.waiting = queuedTasks l.ioEngine ++
      (pre.filterMap Sqe.task ++ (sqe.task.toList ++ post.filterMap Sqe.task)) := by
    rw [Engine.waiting, found, List.filterMap_append, ← List.singleton_append (l := post),
      List.filterMap_append, filterMap_single, queuedTasks]
  have hwaiting' : l'.ioEngine.waiting = queuedTasks l.ioEngine ++
      (pre.filterMap Sqe.task ++ post.filterMap Sqe.task) := by
    rw [← hl', Engine.waiting, List.filterMap_append, queuedTasks]
  have hcq : l'.ioEngine.cq.filterMap Cqe.event =
      l.ioEngine.cq.filterMap Cqe.event ++ completion sqe res := by
    rw [← hl', List.filterMap_append, filterMap_single, completion]
  have hpending : l'.ioEngine.pending = l.ioEngine.pending ++ completion sqe res := by
    rw [Engine.pending, hcq, ← List.append_assoc, ← hl', Engine.pending]
  have harrivals : l'.arrivals = l.arrivals ++ (completion sqe res).filterMap arrival := by
    rw [Loop.arrivals, hpending, List.filterMap_append, Loop.arrivals]
  have hperm : l'.ioEngine.tasks.Perm l.ioEngine.tasks := by
    rw [Engine.tasks, Engine.tasks, hwaiting, hwaiting', hpending, List.map_append, htask]
    refine List.perm_iff_count.mpr fun task => ?_
    simp only [List.count_append]
    omega
  have hclients : l'.clients = l.clients := by rw [← hl']
  have hopened : l'.opened = l.openedBy sqe res := by rw [← hl']
  have hsq : l'.ioEngine.sq = l.ioEngine.sq := by rw [← hl']
  have hrefused : l'.ioEngine.refused = l.ioEngine.refused := by rw [← hl']
  have hentries : l'.ioEngine.entries = l.ioEngine.entries := by rw [← hl']
  -- what comes back is open, and what is open already does not come back
  have hfresh : ∀ fd ∈ (completion sqe res).filterMap arrival,
      fd ∉ serverFD ++ (l.arrivals ++ l.clients.fds) := fun fd hfd hmem =>
    (completion_arrival hsqe allowed hfd).1 (inv.opened fd hmem)
  have hmoved : (l'.arrivals ++ l'.clients.fds).Perm
      ((completion sqe res).filterMap arrival ++ (l.arrivals ++ l.clients.fds)) := by
    rw [harrivals, hclients, ← List.append_assoc]
    exact List.perm_append_comm.append_right _
  exact
    { busy := by
        rw [hclients]
        exact (busy_perm hperm).trans inv.busy
      known := fun task h => inv.known task (hperm.mem_iff.mp h)
      nodup := by
        refine hmoved.nodup_iff.mpr (List.nodup_append.mpr
          ⟨completion_nodup sqe res, inv.nodup, ?_⟩)
        rintro fd hfd _ hmem rfl
        exact hfresh fd hfd (List.mem_append_right _ hmem)
      opened := by
        intro fd hfd
        rw [hopened]
        rcases List.mem_append.mp hfd with hserving | hmem
        · exact mem_openedBy sqe res (inv.opened fd (List.mem_append_left _ hserving))
        · rcases List.mem_append.mp (hmoved.mem_iff.mp hmem) with hnew | hold
          · exact (completion_arrival hsqe allowed hnew).2.2
          · exact mem_openedBy sqe res (inv.opened fd (List.mem_append_right _ hold))
      apart := by
        intro fd hfd
        rcases List.mem_append.mp (hmoved.mem_iff.mp hfd) with hnew | hold
        · exact ⟨fun h => hfresh fd hnew (List.mem_append_left _ h),
            (completion_arrival hsqe allowed hnew).2.1⟩
        · exact inv.apart fd hold
      listening := fun fd h => inv.listening fd (mem_armed.mpr (hperm.mem_iff.mp (mem_armed.mp h)))
      accepts := by
        have haccepts := inv.accepts
        rw [hwaiting] at haccepts
        rw [hwaiting', hcq, List.map_append, htask]
        simp only [armed_append, List.length_append] at haccepts ⊢
        omega
      queue := by
        have hqueue := inv.queue
        rw [queuedTasks] at hqueue ⊢
        rw [hsq]
        exact hqueue
      clients := by
        rw [hclients]
        exact inv.clients
      refused := hrefused.trans inv.refused
      entries := by
        rw [hentries]
        exact inv.entries }

/-- A timeout comes and goes without notice. -/
theorem skip (inv : Inv c serverFD l) {pre post : List Sqe}
    (found : l.ioEngine.inflight = pre ++ .link_timeout :: post) :
    Inv c serverFD { l with ioEngine := { l.ioEngine with inflight := pre ++ post } } := by
  have hwaiting : ({ l.ioEngine with inflight := pre ++ post } : Engine).waiting =
      l.ioEngine.waiting := by
    rw [Engine.waiting, Engine.waiting, found, List.filterMap_append, List.filterMap_append]
    rfl
  have htasks : ({ l.ioEngine with inflight := pre ++ post } : Engine).tasks =
      l.ioEngine.tasks := by
    rw [Engine.tasks, hwaiting]
    rfl
  exact
    { inv with
      busy := by
        rw [htasks]
        exact inv.busy
      known := by
        rw [htasks]
        exact inv.known
      listening := by
        rw [htasks]
        exact inv.listening
      accepts := by
        rw [hwaiting]
        exact inv.accepts }

/-! ## Taking the completions -/

/-- What waits to be submitted and what waits to be dealt with belong to different clients. -/
theorem busy_le (inv : Inv c serverFD l) :
    (IOURingEngine.busy (queuedTasks l.ioEngine)).length +
      (IOURingEngine.busy (l.ioEngine.pending.map FDEvent.task)).length ≤
        l.clients.fds.length := by
  have hlength := inv.busy.length_eq
  rw [Engine.tasks, Engine.waiting, busy_append, busy_append, List.length_append,
    List.length_append] at hlength
  rw [queuedTasks]
  omega

theorem queued_armed_le (inv : Inv c serverFD l) :
    (armed (queuedTasks l.ioEngine)).length +
      (armed ((l.ioEngine.cq.filterMap Cqe.event).map FDEvent.task)).length ≤
        c.conf_maxServersFD := by
  have haccepts := inv.accepts
  rw [Engine.waiting, armed_append, List.length_append] at haccepts
  rw [queuedTasks]
  omega

/-- There is room for all accepts that can be renewed at once. -/
theorem room_accepts (inv : Inv c serverFD l) :
    l.ioEngine.sq.length +
      (armed ((l.ioEngine.cq.filterMap Cqe.event).map FDEvent.task)).length ≤
        l.ioEngine.entries := by
  have hqueue := inv.queue
  have hbusy := inv.busy_le
  have harmed := inv.queued_armed_le
  have hclients := inv.clients
  have hentries := inv.entries
  omega

theorem wait (inv : Inv c serverFD l) (empty : l.ioEngine.events = []) :
    Inv c serverFD { l with ioEngine := l.ioEngine.wait } := by
  have hroom := inv.room_accepts
  rw [List.map_filterMap] at hroom
  obtain ⟨taken, rest, hcq, hwait⟩ :=
    Engine.forEachCqe_eq l.ioEngine.cq { l.ioEngine with events := [] } hroom
  have hengine : l.ioEngine.wait = { l.ioEngine with
      sq := l.ioEngine.sq ++ (taken.filterMap Cqe.event).flatMap FDEvent.again
      cq := rest
      events := taken.filterMap Cqe.event } := hwait
  have hpending : l.ioEngine.wait.pending = l.ioEngine.pending := by
    rw [hengine, Engine.pending, Engine.pending, empty, hcq, List.filterMap_append,
      List.nil_append]
  have hqueued : queuedTasks l.ioEngine.wait = queuedTasks l.ioEngine ++
      ((taken.filterMap Cqe.event).flatMap FDEvent.again).filterMap Sqe.task := by
    rw [hengine, queuedTasks, List.filterMap_append, queuedTasks]
  have hwaiting : l.ioEngine.wait.waiting = queuedTasks l.ioEngine.wait ++
      l.ioEngine.inflight.filterMap Sqe.task := by
    rw [hengine, Engine.waiting, queuedTasks]
  have htaken : armed ((l.ioEngine.cq.filterMap Cqe.event).map FDEvent.task) =
      armed ((taken.filterMap Cqe.event).map FDEvent.task) ++
        armed ((rest.filterMap Cqe.event).map FDEvent.task) := by
    rw [hcq, List.filterMap_append, List.map_append, armed_append]
  have hbusy : IOURingEngine.busy l.ioEngine.wait.tasks = IOURingEngine.busy l.ioEngine.tasks := by
    rw [Engine.tasks, hwaiting, hqueued, hpending, Engine.tasks, Engine.waiting, queuedTasks]
    simp only [busy_append, busy_again, List.append_nil]
  have harrivals : ({ l with ioEngine := l.ioEngine.wait } : Loop).arrivals = l.arrivals :=
    congrArg (List.filterMap arrival) hpending
  -- a task that was not there before is an accept on a descriptor that had one
  have hnew : ∀ task ∈ l.ioEngine.wait.tasks, task ∈ l.ioEngine.tasks ∨
      task.1 = .accept ∧ task.2 ∈ armed l.ioEngine.tasks := by
    intro task htask
    rw [Engine.tasks, hwaiting, hqueued, hpending] at htask
    simp only [List.mem_append] at htask
    rcases htask with ((hold | hagain) | hold) | hold
    · exact .inl (List.mem_append_left _ (List.mem_append_left _ hold))
    · have haccept : task.1 = .accept := again_task hagain
      obtain ⟨op, fd⟩ := task
      subst haccept
      have harmed := mem_armed.mpr hagain
      rw [armed_again] at harmed
      refine .inr ⟨rfl, mem_armed.mpr (List.mem_append_right _ ?_)⟩
      rw [Engine.pending, List.map_append]
      refine List.mem_append_right _ (mem_armed.mp ?_)
      rw [htaken]
      exact List.mem_append_left _ harmed
    · exact .inl (List.mem_append_left _ (List.mem_append_right _ hold))
    · exact .inl (List.mem_append_right _ hold)
  exact
    { busy := by
        rw [hbusy]
        exact inv.busy
      known := by
        intro task htask
        rcases hnew task htask with hold | ⟨haccept, _⟩
        · exact inv.known task hold
        · rw [haccept]
          decide
      nodup := by
        rw [harrivals]
        exact inv.nodup
      opened := by
        rw [harrivals]
        exact inv.opened
      apart := by
        rw [harrivals]
        exact inv.apart
      listening := by
        intro fd hfd
        rcases hnew _ (mem_armed.mp hfd) with hold | ⟨_, hold⟩
        · exact inv.listening fd (mem_armed.mpr hold)
        · exact inv.listening fd hold
      accepts := by
        have haccepts := inv.accepts
        rw [Engine.waiting, htaken] at haccepts
        rw [hwaiting, hqueued, queuedTasks, hengine]
        simp only [armed_append, armed_again, List.length_append] at haccepts ⊢
        omega
      queue := by
        have hqueue := inv.queue
        rw [hqueued]
        rw [hengine]
        simp only [busy_append, busy_again, List.append_nil, armed_append, armed_again,
          List.length_append, flatMap_again_length]
        omega
      clients := inv.clients
      refused := by
        rw [hengine]
        exact inv.refused
      entries := by
        rw [hengine]
        exact inv.entries }

/-! ## Dealing with an event -/

section Deliver

variable {event : FDEvent} {rest : List FDEvent}

theorem pending_next (next : l.ioEngine.events = event :: rest) :
    l.ioEngine.pending = event :: (l.advance rest).ioEngine.pending := by
  rw [Engine.pending, next, List.cons_append]
  rfl

theorem tasks_next (next : l.ioEngine.events = event :: rest) :
    l.ioEngine.tasks.Perm
      (event.task :: (l.advance rest).ioEngine.tasks) := by
  rw [Engine.tasks, pending_next next, List.map_cons]
  exact List.perm_middle

theorem arrivals_next (next : l.ioEngine.events = event :: rest) :
    l.arrivals = (arrival event).toList ++
      (l.advance rest).arrivals := by
  rw [Loop.arrivals, pending_next next, ← List.singleton_append, List.filterMap_append,
    filterMap_single]
  rfl

/-- What holds after an event, if what was submitted upon it makes up for it. -/
theorem after (inv : Inv c serverFD l) (next : l.ioEngine.events = event :: rest) {l' : Loop}
    {sqes : List Sqe} (request : sqes = [] ∨ ∃ fd, Request fd sqes)
    (engine : l'.ioEngine = (l.advance rest).ioEngine.queued sqes)
    (hbusy : (IOURingEngine.busy (l.advance rest).ioEngine.tasks ++
      IOURingEngine.busy (sqes.filterMap Sqe.task)).Perm l'.clients.fds)
    (nodup : (l'.arrivals ++ l'.clients.fds).Nodup)
    (opened : ∀ fd ∈ serverFD ++ (l'.arrivals ++ l'.clients.fds), fd ∈ l'.opened)
    (apart : ∀ fd ∈ l'.arrivals ++ l'.clients.fds, fd ∉ serverFD ∧ fd < 2 ^ 31)
    (clients : l'.clients.fds.length ≤ c.maxClients) : Inv c serverFD l' := by
  obtain ⟨hlength, hnone, harmed⟩ := request_tasks request
  have hperm : l'.ioEngine.tasks.Perm
      ((l.advance rest).ioEngine.tasks ++ sqes.filterMap Sqe.task) := by
    rw [engine]
    refine List.perm_iff_count.mpr fun task => ?_
    simp only [Engine.tasks, Engine.waiting, Engine.pending, Engine.queued,
      List.filterMap_append, List.count_append]
    omega
  have hold : ∀ task ∈ (l.advance rest).ioEngine.tasks,
      task ∈ l.ioEngine.tasks := fun task h =>
    (tasks_next next).mem_iff.mpr (List.mem_cons_of_mem _ h)
  have hqueued : queuedTasks l'.ioEngine =
      queuedTasks l.ioEngine ++ sqes.filterMap Sqe.task := by
    rw [engine, queuedTasks, Engine.queued, List.filterMap_append]
    rfl
  have hsq : l'.ioEngine.sq = l.ioEngine.sq ++ sqes := by
    rw [engine]
    rfl
  exact
    { busy := by
        refine (busy_perm hperm).trans ?_
        rw [busy_append]
        exact hbusy
      known := by
        intro task htask
        rcases List.mem_append.mp (hperm.mem_iff.mp htask) with h | h
        · exact inv.known task (hold task h)
        · exact hnone task h
      nodup := nodup
      opened := opened
      apart := apart
      listening := by
        intro fd hfd
        rcases List.mem_append.mp (hperm.mem_iff.mp (mem_armed.mp hfd)) with h | h
        · exact inv.listening fd (mem_armed.mpr (hold _ h))
        · have hmem := mem_armed.mpr h
          rw [harmed] at hmem
          exact absurd hmem List.not_mem_nil
      accepts := by
        have haccepts := inv.accepts
        rw [Engine.waiting] at haccepts ⊢
        rw [engine, Engine.queued, List.filterMap_append]
        simp only [armed_append, harmed, List.append_nil, List.length_append] at haccepts ⊢
        exact haccepts
      queue := by
        have hqueue := inv.queue
        rw [hqueued, hsq]
        simp only [busy_append, armed_append, harmed, List.append_nil, List.length_append]
        omega
      clients := clients
      refused := by
        rw [engine]
        exact inv.refused
      entries := by
        rw [engine]
        exact inv.entries }

/-- The client whose operation has ended is the only one that is not busy. -/
theorem busy_next (inv : Inv c serverFD l) (next : l.ioEngine.events = event :: rest)
    (hop : event.op ≠ .accept) :
    (event.fd :: IOURingEngine.busy (l.advance rest).ioEngine.tasks).Perm
      l.clients.fds := by
  rw [← busy_cons hop]
  exact (busy_perm (tasks_next next)).symm.trans inv.busy

/-- All clients are busy while an accept is dealt with. -/
theorem busy_next_accept (inv : Inv c serverFD l) (next : l.ioEngine.events = event :: rest)
    (hop : event.op = .accept) :
    (IOURingEngine.busy (l.advance rest).ioEngine.tasks).Perm
      l.clients.fds := by
  rw [← busy_cons_accept event.fd, ← hop]
  exact (busy_perm (tasks_next next)).symm.trans inv.busy

theorem arrivals_next_of_ne (next : l.ioEngine.events = event :: rest)
    (hop : event.op ≠ .accept) :
    (l.advance rest).arrivals = l.arrivals := by
  have hnone : arrival event = none := if_neg fun h => hop h.1
  rw [arrivals_next next, hnone, Option.toList_none, List.nil_append]

theorem mem_clients (inv : Inv c serverFD l) (next : l.ioEngine.events = event :: rest)
    (hop : event.op ≠ .accept) : event.fd ∈ l.clients.fds :=
  (inv.busy_next next hop).mem_iff.mp List.mem_cons_self

theorem room_event (inv : Inv c serverFD l) (next : l.ioEngine.events = event :: rest)
    (hop : event.op ≠ .accept) : Room (l.advance rest).ioEngine := by
  have hbusy := inv.busy_le
  rw [pending_next next, List.map_cons, FDEvent.task, busy_cons hop, List.length_cons] at hbusy
  have hqueue := inv.queue
  have harmed := inv.queued_armed_le
  have hclients := inv.clients
  have hentries := inv.entries
  show l.ioEngine.sq.length + 2 ≤ l.ioEngine.entries
  omega

theorem room_accept (inv : Inv c serverFD l) (h : l.clients.fds.length < c.maxClients) :
    Room (l.advance rest).ioEngine := by
  have hqueue := inv.queue
  have hbusy := inv.busy_le
  have harmed := inv.queued_armed_le
  have hentries := inv.entries
  show l.ioEngine.sq.length + 2 ≤ l.ioEngine.entries
  omega

/-- A request upon an event keeps the invariant. -/
theorem serve (inv : Inv c serverFD l) (next : l.ioEngine.events = event :: rest)
    (hop : event.op ≠ .accept) {l' : Loop}
    (serves : Serves event.fd (l.advance rest) l') :
    Inv c serverFD l' := by
  obtain ⟨_, hfds, hopened, sqes, hrequest, hengine⟩ := serves
  obtain ⟨op, haccept, _, htasks⟩ := hrequest.tasks
  have harrivals : l'.arrivals = l.arrivals := by
    rw [← arrivals_next_of_ne next hop, Loop.arrivals, hengine]
    rfl
  refine inv.after next (.inr ⟨event.fd, hrequest⟩) hengine ?_ ?_ ?_ ?_ ?_
  · rw [htasks, busy_singleton haccept, hfds]
    exact List.perm_append_comm.trans (inv.busy_next next hop)
  · rw [harrivals, hfds]
    exact inv.nodup
  · rw [harrivals, hfds, hopened]
    exact inv.opened
  · rw [harrivals, hfds]
    exact inv.apart
  · rw [hfds]
    exact inv.clients

/-- A client leaves when its close has come back. -/
theorem close (inv : Inv c serverFD l) (next : l.ioEngine.events = event :: rest)
    (hop : event.op ≠ .accept) :
    Inv c serverFD
      ((l.advance rest).done_Close event.fd) := by
  obtain ⟨client, hfind⟩ := Storage.find_of_mem (inv.mem_clients next hop)
  have hdone : (l.advance rest).done_Close event.fd =
      { l with
        ioEngine := (l.advance rest).ioEngine
        clients := l.clients.remove event.fd
        opened := l.opened.filter fun x => decide (x ≠ event.fd) } := by
    rw [Loop.done_Close, Loop.removeFD]
    simp only [Loop.clients_advance, hfind]
    rfl
  have hremoved : (l.clients.remove event.fd).fds = l.clients.fds.erase event.fd := by
    rw [Storage.fds_remove, (List.nodup_append.mp inv.nodup).2.1.erase_eq_filter]
    simp [bne, BEq.beq]
  have harrivals := arrivals_next_of_ne next hop
  have hmem := inv.mem_clients next hop
  have hsub : ∀ fd ∈ l.arrivals ++ l.clients.fds.erase event.fd,
      fd ∈ l.arrivals ++ l.clients.fds ∧ fd ≠ event.fd := by
    intro fd hfd
    rcases List.mem_append.mp hfd with h | h
    · refine ⟨List.mem_append_left _ h, ?_⟩
      rintro rfl
      exact (List.nodup_append.mp inv.nodup).2.2 _ h _ hmem rfl
    · obtain ⟨hne, hold⟩ := (List.nodup_append.mp inv.nodup).2.1.mem_erase_iff.mp h
      exact ⟨List.mem_append_right _ hold, hne⟩
  have hafter : ({ l with
        ioEngine := (l.advance rest).ioEngine
        clients := l.clients.remove event.fd
        opened := l.opened.filter fun x => decide (x ≠ event.fd) } : Loop).arrivals =
      l.arrivals := harrivals
  rw [hdone]
  refine inv.after next (.inl rfl) ?_ ?_ ?_ ?_ ?_ ?_
  · rw [Engine.queued, List.append_nil]
  · rw [hremoved]
    exact (List.append_nil _).symm ▸
      (List.cons_perm_iff_perm_erase.mp (inv.busy_next next hop)).2
  · rw [hafter, hremoved]
    exact inv.nodup.sublist ((List.Sublist.refl _).append List.erase_sublist)
  · intro fd hfd
    rw [hafter, hremoved] at hfd
    refine List.mem_filter.mpr ?_
    rcases List.mem_append.mp hfd with h | h
    · refine ⟨inv.opened fd (List.mem_append_left _ h), decide_eq_true ?_⟩
      rintro rfl
      exact (inv.apart _ (List.mem_append_right _ hmem)).1 h
    · obtain ⟨hold, hne⟩ := hsub fd h
      exact ⟨inv.opened fd (List.mem_append_right _ hold), decide_eq_true hne⟩
  · intro fd hfd
    rw [hafter, hremoved] at hfd
    exact inv.apart fd (hsub fd hfd).1
  · rw [hremoved]
    exact List.erase_sublist.length_le.trans inv.clients

/-- What an accept brings is dropped, or nothing is brought. -/
theorem drop (inv : Inv c serverFD l) (next : l.ioEngine.events = event :: rest)
    (hop : event.op = .accept) {l' : Loop}
    (engine : l'.ioEngine = (l.advance rest).ioEngine)
    (clients : l'.clients = l.clients)
    (opened : ∀ fd ∈ l.opened, fd ∉ arrival event → fd ∈ l'.opened) : Inv c serverFD l' := by
  have hnext := arrivals_next next
  have harrivals : l'.arrivals =
      (l.advance rest).arrivals := by
    rw [Loop.arrivals, engine]
    rfl
  have hsub : ∀ fd ∈ l'.arrivals ++ l'.clients.fds, fd ∈ l.arrivals ++ l.clients.fds := by
    intro fd hfd
    rw [harrivals, clients] at hfd
    rw [hnext, List.append_assoc]
    exact List.mem_append_right _ hfd
  have hnodup := inv.nodup
  rw [hnext, List.append_assoc, ← harrivals, ← clients] at hnodup
  refine inv.after next (.inl rfl) ?_ ?_ ?_ ?_ ?_ ?_
  · rw [engine, Engine.queued, List.append_nil]
  · rw [clients]
    exact (List.append_nil _).symm ▸ inv.busy_next_accept next hop
  · exact (List.nodup_append.mp hnodup).2.1
  · intro fd hfd
    rcases List.mem_append.mp hfd with h | h
    · refine opened fd (inv.opened fd (List.mem_append_left _ h)) fun hnew => ?_
      have hmem : fd ∈ l.arrivals ++ l.clients.fds := by
        rw [hnext]
        exact List.mem_append_left _ (List.mem_append_left _ (Option.mem_toList.mpr hnew))
      exact (inv.apart fd hmem).1 h
    · refine opened fd (inv.opened fd (List.mem_append_right _ (hsub fd h))) fun hnew => ?_
      exact (List.nodup_append.mp hnodup).2.2 fd (Option.mem_toList.mpr hnew) fd h rfl
  · exact fun fd hfd => inv.apart fd (hsub fd hfd)
  · rw [clients]
    exact inv.clients

/-- What an accept brings is closed. -/
theorem socket_close (inv : Inv c serverFD l) (next : l.ioEngine.events = event :: rest)
    (hop : event.op = .accept) {fd : ℕ} (new : arrival event = some fd) :
    Inv c serverFD
      ((l.advance rest).socket_close fd) := by
  refine inv.drop next hop rfl rfl fun x hx hne => List.mem_filter.mpr ⟨hx, decide_eq_true ?_⟩
  rintro rfl
  exact hne new

theorem not_mem_of_arrival (inv : Inv c serverFD l) (next : l.ioEngine.events = event :: rest)
    {fd : ℕ} (new : arrival event = some fd) : fd ∉ l.clients.fds := by
  have hnodup := inv.nodup
  rw [arrivals_next next, new] at hnodup
  exact fun h => (List.nodup_append.mp hnodup).2.2 fd
    (List.mem_append_left _ (List.mem_singleton_self fd)) fd h rfl

theorem mem_tasks (next : l.ioEngine.events = event :: rest) :
    event.task ∈ l.ioEngine.tasks :=
  (tasks_next next).mem_iff.mpr List.mem_cons_self

/-- What an accept brings becomes a client, with its first request. -/
theorem connect (inv : Inv c serverFD l) (next : l.ioEngine.events = event :: rest)
    (hop : event.op = .accept) {fd : ℕ} (new : arrival event = some fd) {l' : Loop}
    {sqes : List Sqe} (request : Request fd sqes)
    (engine : l'.ioEngine = (l.advance rest).ioEngine.queued sqes)
    (fds : l'.clients.fds = l.clients.fds ++ [fd])
    (opened : l'.opened = l.opened) (room : l.clients.fds.length < c.maxClients) :
    Inv c serverFD l' := by
  obtain ⟨op, haccept, _, htasks⟩ := request.tasks
  have harrivals : l'.arrivals =
      (l.advance rest).arrivals := by
    rw [Loop.arrivals, engine]
    rfl
  have hperm : (l'.arrivals ++ l'.clients.fds).Perm (l.arrivals ++ l.clients.fds) := by
    rw [arrivals_next next, new, harrivals, fds, Option.toList_some]
    refine List.perm_iff_count.mpr fun x => ?_
    simp only [List.count_append]
    omega
  refine inv.after next (.inr ⟨fd, request⟩) engine ?_ ?_ ?_ ?_ ?_
  · rw [htasks, busy_singleton haccept, fds]
    exact (inv.busy_next_accept next hop).append_right _
  · exact hperm.nodup_iff.mpr inv.nodup
  · intro x hx
    rw [opened]
    refine inv.opened x ?_
    rcases List.mem_append.mp hx with h | h
    · exact List.mem_append_left _ h
    · exact List.mem_append_right _ (hperm.mem_iff.mp h)
  · exact fun x hx => inv.apart x (hperm.mem_iff.mp hx)
  · rw [fds, List.length_append]
    exact room

theorem accept (inv : Inv c serverFD l) (next : l.ioEngine.events = event :: rest)
    (hop : event.op = .accept) (mm : MemoryManager) :
    Inv c serverFD
      ((l.advance rest).done_Accept c mm event.result) := by
  rw [Loop.done_Accept]
  split_ifs with hnegative hfull
  · exact inv.drop next hop rfl rfl fun fd h _ => h
  · have hnew : arrival event = some event.result.toNat := if_pos ⟨hop, not_lt.mp hnegative⟩
    have hcount : l.clients.fds.length < c.maxClients := by
      rw [Storage.fds, List.length_map]
      exact hfull
    rw [Loop.insertFD]
    cases hinsert : Storage.insert c.maxClients c.conf_rlimitNoFile (l.advance rest).clients
        event.result.toNat ⟨IOBuffer.clear, none⟩ with
    | none => exact inv.socket_close next hop hnew
    | some after =>
      have hfds := Storage.fds_insert (inv.not_mem_of_arrival next hnew) hinsert
      obtain ⟨_, hsame, hopened, sqes, hrequest, hengine⟩ := Loop.req_Read_serves
        (l := { l.advance rest with clients := after }) (inv.room_accept hcount) mm
        ⟨IOBuffer.clear, none⟩
      exact inv.connect next hop hnew hrequest hengine (hsame.trans hfds) hopened hcount
  · exact inv.socket_close next hop (if_pos ⟨hop, not_lt.mp hnegative⟩)

/-- Whatever the event and what comes of it, the invariant is kept until a shutdown. -/
theorem process (inv : Inv c serverFD l) (next : l.ioEngine.events = event :: rest)
    (mm : MemoryManager) (worker : Worker) (received : Key)
    (running : ((l.advance rest).process c mm worker received event).keepProcessing = true) :
    Inv c serverFD
      ((l.advance rest).process c mm worker received event) := by
  rw [Loop.process] at running ⊢
  cases hop : event.op with
  | none => exact absurd hop (inv.known event.task (mem_tasks next))
  | accept => exact inv.accept next hop mm
  | close => exact inv.close next (by rw [hop]; decide)
  | read =>
    have hne : event.op ≠ .accept := by rw [hop]; decide
    rw [hop] at running
    rcases Loop.done_Read_serves (inv.room_event next hne) c mm worker received event.result with
      hstopped | hserves
    · exact absurd (running.symm.trans hstopped) Bool.false_ne_true.symm
    · exact inv.serve next hne hserves
  | write =>
    have hne : event.op ≠ .accept := by rw [hop]; decide
    rw [hop] at running
    exact inv.serve next hne (Loop.done_Write_serves (inv.room_event next hne) mm event.result)

end Deliver

end Inv

/-! ## The start -/

/-- The size of the queue is computed without overflow. -/
def Config.Sized (c : Config) : Prop :=
  (c.conf_maxClients + c.conf_maxServersFD) * 2 + max RESERVED_FD c.conf_maxServersFD < 2 ^ 32

/-- The queue has room for a request with its timeout from each client, and for all accepts. -/
theorem le_entries {c : Config} (sized : c.Sized) :
    2 * c.maxClients + c.conf_maxServersFD ≤
      (Engine.init c.conf_maxClients c.conf_maxServersFD).entries := by
  have hentries : qsize c.conf_maxClients c.conf_maxServersFD ≤
      (Engine.init c.conf_maxClients c.conf_maxServersFD).entries :=
    Nat.le_pow_clog (by decide) _
  rw [Config.Sized, RESERVED_FD] at sized
  rw [qsize, RESERVED_FD, Nat.mod_eq_of_lt sized] at hentries
  rw [Config.maxClients, MIN_CLIENTS]
  omega

/-- An engine that has only been given servers to accept on. -/
structure Arming (c : Config) (serverFD : List ℕ) (e : Engine) : Prop where
  accepts : ∃ fds : List ℕ, (∀ fd ∈ fds, fd ∈ serverFD) ∧ e.sq = fds.map Sqe.accept ∧
    fds.length + e.conf_maxServersFD = c.conf_maxServersFD
  inflight : e.inflight = []
  cq : e.cq = []
  events : e.events = []
  refused : e.refused = 0
  entries : 2 * c.maxClients + c.conf_maxServersFD ≤ e.entries

namespace Arming

variable {c : Config} {serverFD : List ℕ} {e : Engine}

theorem addServerFD (arming : Arming c serverFD e) {fd : ℕ} (h : fd ∈ serverFD) :
    Arming c serverFD (e.addServerFD fd 1).1 := by
  obtain ⟨⟨fds, hmem, hsq, hlength⟩, hinflight, hcq, hevents, hrefused, hentries⟩ := arming
  rw [Engine.addServerFD, if_neg Nat.one_ne_zero, Engine.addServerFDLoop]
  by_cases hfull : e.conf_maxServersFD = 0
  · rw [if_pos hfull]
    exact ⟨⟨fds, hmem, hsq, hlength⟩, hinflight, hcq, hevents, hrefused, hentries⟩
  · have hroom : e.sq.length + [Sqe.accept fd].length ≤ e.entries := by
      rw [hsq, List.length_map, List.length_singleton]
      omega
    rw [if_neg hfull, Engine.add_accept, Engine.add_of_room hroom]
    refine ⟨⟨fds ++ [fd], ?_, ?_, ?_⟩, hinflight, hcq, hevents, hrefused, hentries⟩
    · exact fun x hx => (List.mem_append.mp hx).elim (hmem x) fun hx =>
        List.mem_singleton.mp hx ▸ h
    · show e.sq ++ [Sqe.accept fd] = (fds ++ [fd]).map Sqe.accept
      rw [hsq, List.map_append, List.map_singleton]
    · show (fds ++ [fd]).length + (e.conf_maxServersFD - 1) = c.conf_maxServersFD
      rw [List.length_append, List.length_singleton]
      omega

theorem foldl {fds : List ℕ} (arming : Arming c serverFD e) (h : ∀ fd ∈ fds, fd ∈ serverFD) :
    Arming c serverFD (fds.foldl (fun e fd => (e.addServerFD fd 1).1) e) := by
  induction fds generalizing e with
  | nil => exact arming
  | cons fd fds ih =>
    rw [List.forall_mem_cons] at h
    exact ih (arming.addServerFD h.1) h.2

end Arming

theorem filterMap_accept (fds : List ℕ) :
    (fds.map Sqe.accept).filterMap Sqe.task = fds.map fun fd => (FDOperation.accept, fd) := by
  rw [List.filterMap_map, ← List.filterMap_eq_map]
  rfl

theorem busy_accepts (fds : List ℕ) :
    busy (fds.map fun fd => (FDOperation.accept, fd)) = [] := by
  induction fds with
  | nil => rfl
  | cons fd fds ih => rw [List.map_cons, busy_cons_accept, ih]

theorem armed_accepts (fds : List ℕ) :
    armed (fds.map fun fd => (FDOperation.accept, fd)) = fds := by
  induction fds with
  | nil => rfl
  | cons fd fds ih =>
    rw [List.map_cons, ← List.singleton_append, armed_append, ih]
    rfl

/-- The invariant holds at the start. -/
theorem Inv.start {c : Config} {serverFD : List ℕ} (sized : c.Sized) :
    Inv c serverFD (Loop.init c serverFD) := by
  have hempty : Arming c serverFD (Engine.init c.conf_maxClients c.conf_maxServersFD) :=
    ⟨⟨[], fun _ h => absurd h List.not_mem_nil, rfl, Nat.zero_add _⟩, rfl, rfl, rfl, rfl,
      le_entries sized⟩
  have harming : Arming c serverFD (Loop.init c serverFD).ioEngine :=
    hempty.foldl fun _ h => h
  obtain ⟨⟨fds, hmem, hsq, hlength⟩, hinflight, hcq, hevents, hrefused, hentries⟩ := harming
  have hqueued : queuedTasks (Loop.init c serverFD).ioEngine =
      fds.map fun fd => (FDOperation.accept, fd) := by
    rw [queuedTasks, hsq, filterMap_accept]
  have hpending : (Loop.init c serverFD).ioEngine.pending = [] := by
    rw [Engine.pending, hevents, hcq, List.filterMap_nil, List.append_nil]
  have hwaiting : (Loop.init c serverFD).ioEngine.waiting =
      fds.map fun fd => (FDOperation.accept, fd) := by
    rw [Engine.waiting, hinflight, List.filterMap_nil, List.append_nil, ← hqueued, queuedTasks]
  have htasks : (Loop.init c serverFD).ioEngine.tasks =
      fds.map fun fd => (FDOperation.accept, fd) := by
    rw [Engine.tasks, hwaiting, hpending, List.map_nil, List.append_nil]
  have harrivals : (Loop.init c serverFD).arrivals = [] := by
    rw [Loop.arrivals, hpending, List.filterMap_nil]
  have hclients : (Loop.init c serverFD).clients.fds = [] := rfl
  exact
    { busy := by
        rw [htasks, busy_accepts, hclients]
      known := by
        intro task htask
        rw [htasks] at htask
        obtain ⟨fd, _, rfl⟩ := List.mem_map.mp htask
        show FDOperation.accept ≠ .none
        decide
      nodup := by
        rw [harrivals, hclients]
        exact List.nodup_nil
      opened := by
        intro fd hfd
        rw [harrivals, hclients, List.append_nil, List.append_nil] at hfd
        exact hfd
      apart := by
        intro fd hfd
        rw [harrivals, hclients] at hfd
        exact absurd hfd List.not_mem_nil
      listening := by
        intro fd hfd
        rw [htasks, armed_accepts] at hfd
        exact hmem fd hfd
      accepts := by
        rw [hwaiting, hcq, armed_accepts]
        exact Nat.le_of_add_right_le hlength.le
      queue := by
        rw [hqueued, armed_accepts, hsq, List.length_map]
        exact Nat.le_add_left _ _
      clients := Nat.zero_le _
      refused := hrefused
      entries := hentries }

/-! ## Runs -/

namespace Loop

variable {c : Config} {mm : MemoryManager} {worker : Worker} {received : Key} {l : Loop} {fd : ℕ}

theorem client_Worker_running {client : Client}
    (h : (client_Worker mm worker l fd client).keepProcessing = true) :
    l.keepProcessing = true := by
  rw [client_Worker] at h
  cases hstatus : (worker client.buffer).1 <;> rw [hstatus] at h
  case shutdown => exact absurd h Bool.false_ne_true
  all_goals exact h

theorem done_Read_running {result : ℤ}
    (h : (l.done_Read c mm worker received fd result).keepProcessing = true) :
    l.keepProcessing = true := by
  rw [done_Read] at h
  cases hfind : l.clients.find fd with
  | none =>
    rw [hfind] at h
    exact h
  | some client =>
    rw [hfind] at h
    dsimp only at h
    split_ifs at h
    · exact h
    · exact h
    · exact h
    · exact h
    · exact (client_Worker_running h : (l.store fd _).keepProcessing = true)

theorem done_Write_running {result : ℤ}
    (h : (l.done_Write mm fd result).keepProcessing = true) : l.keepProcessing = true := by
  rw [done_Write] at h
  cases hfind : l.clients.find fd with
  | none =>
    rw [hfind] at h
    exact h
  | some client =>
    rw [hfind] at h
    dsimp only at h
    split_ifs at h <;> exact h

theorem done_Close_running (h : (l.done_Close fd).keepProcessing = true) :
    l.keepProcessing = true := by
  rw [done_Close, removeFD] at h
  cases hfind : l.clients.find fd <;> rw [hfind] at h <;> exact h

theorem done_Accept_running {result : ℤ}
    (h : (l.done_Accept c mm result).keepProcessing = true) : l.keepProcessing = true := by
  rw [done_Accept, insertFD] at h
  cases hinsert : l.clients.insert c.maxClients c.conf_rlimitNoFile result.toNat
      ⟨IOBuffer.clear, none⟩ <;> rw [hinsert] at h <;> split_ifs at h <;> exact h

/-- The loop does not start again by itself. -/
theorem process_running {event : FDEvent}
    (h : (l.process c mm worker received event).keepProcessing = true) :
    l.keepProcessing = true := by
  rw [process] at h
  cases hop : event.op <;> rw [hop] at h
  case none => exact h
  case accept => exact done_Accept_running h
  case close => exact done_Close_running h
  case read => exact done_Read_running h
  case write => exact done_Write_running h

end Loop

theorem step_running {c : Config} {l l' : Loop} (next : Step c l l')
    (running : l'.keepProcessing = true) : l.keepProcessing = true := by
  cases next with
  | submit => exact running
  | complete pre post sqe res found allowed => exact running
  | skip pre post found => exact running
  | wait empty hrunning => exact running
  | deliver event rest mm worker received hnext filled =>
    exact (Loop.process_running running : (l.advance rest).keepProcessing = true)

/-- A step that is no shutdown keeps the invariant. -/
theorem Inv.step {c : Config} {serverFD : List ℕ} {l l' : Loop} (inv : Inv c serverFD l)
    (hserver : ∀ fd ∈ serverFD, fd < 2 ^ 31) (next : Step c l l')
    (running : l'.keepProcessing = true) : Inv c serverFD l' := by
  cases next with
  | submit => exact inv.submit
  | complete pre post sqe res found allowed => exact inv.complete hserver found allowed
  | skip pre post found => exact inv.skip found
  | wait empty hrunning => exact inv.wait empty
  | deliver event rest mm worker received hnext filled =>
    exact inv.process hnext mm worker received running

/-- Until a shutdown the invariant holds in every run. -/
theorem reachable_inv {c : Config} {serverFD : List ℕ} (sized : c.Sized)
    (hserver : ∀ fd ∈ serverFD, fd < 2 ^ 31) {l : Loop} (h : Reachable c serverFD l)
    (running : l.keepProcessing = true) : Inv c serverFD l := by
  induction h with
  | start => exact Inv.start sized
  | step _ next ih => exact (ih (step_running next running)).step hserver next running

/-- The operations outstanding on a descriptor. -/
def Loop.outstanding (l : Loop) (fd : ℕ) : List FDOperation :=
  (l.ioEngine.tasks.filter fun task => decide (task.2 = fd)).map Prod.fst

theorem mem_outstanding {l : Loop} {op : FDOperation} {fd : ℕ} :
    op ∈ l.outstanding fd ↔ (op, fd) ∈ l.ioEngine.tasks := by
  simp [Loop.outstanding]

/-- Before a shutdown each client has exactly one operation outstanding, nothing was refused for
lack of room, and a descriptor that is neither a client nor listening has nothing outstanding. -/
theorem one_in_flight {c : Config} {serverFD : List ℕ} (sized : c.Sized)
    (hserver : ∀ fd ∈ serverFD, fd < 2 ^ 31) {l : Loop} (h : Reachable c serverFD l)
    (running : l.keepProcessing = true) :
    (∀ fd ∈ l.clients.fds, ∃ op : FDOperation, (op = .read ∨ op = .write ∨ op = .close) ∧
      l.outstanding fd = [op]) ∧
    l.ioEngine.refused = 0 ∧
    ∀ fd, fd ∉ l.clients.fds → fd ∉ serverFD → l.outstanding fd = [] := by
  have inv := reachable_inv sized hserver h running
  have hlength : ∀ fd, fd ∉ serverFD → (l.outstanding fd).length = l.clients.fds.count fd := by
    intro fd hfd
    rw [Loop.outstanding, List.length_map,
      busy_count _ fun harmed => hfd (inv.listening fd harmed), inv.busy.count_eq]
  refine ⟨fun fd hfd => ?_, inv.refused, fun fd hclient hlistening => ?_⟩
  · have hlistening : fd ∉ serverFD := (inv.apart fd (List.mem_append_right _ hfd)).1
    have hone : (l.outstanding fd).length = 1 := by
      rw [hlength fd hlistening]
      exact List.count_eq_one_of_mem (List.nodup_append.mp inv.nodup).2.1 hfd
    obtain ⟨op, hop⟩ := List.length_eq_one_iff.mp hone
    have hmem : (op, fd) ∈ l.ioEngine.tasks := by
      rw [← mem_outstanding, hop]
      exact List.mem_singleton_self op
    refine ⟨op, ?_, hop⟩
    cases op with
    | none => exact absurd rfl (inv.known _ hmem)
    | accept => exact absurd (inv.listening fd (mem_armed.mpr hmem)) hlistening
    | close => exact .inr (.inr rfl)
    | read => exact .inl rfl
    | write => exact .inr (.inl rfl)
  · refine List.length_eq_zero_iff.mp ?_
    rw [hlength fd hlistening]
    exact List.count_eq_zero_of_not_mem hclient

/-- One client is accepted on one listening descriptor, and is then being read from. -/
theorem one_in_flight_connected :
    ∃ l, Reachable ⟨1024, 4, 1, 4096⟩ [3] l ∧ l.clients.fds = [5] ∧
      (∀ fd ∈ l.clients.fds, ∃ op : FDOperation, (op = .read ∨ op = .write ∨ op = .close) ∧
        l.outstanding fd = [op]) ∧
      l.ioEngine.refused = 0 ∧
      ∀ fd, fd ∉ l.clients.fds → fd ∉ [3] → l.outstanding fd = [] := by
  have initial : Reachable ⟨1024, 4, 1, 4096⟩ [3] (Loop.init ⟨1024, 4, 1, 4096⟩ [3]) := .start
  have submitted := Reachable.step initial (.submit _)
  have completed := Reachable.step submitted
    (.complete _ [] [] (.accept 3) 5 rfl fun _ => ⟨by decide, by decide⟩)
  have waited := Reachable.step completed (.wait _ rfl rfl)
  have delivered := Reachable.step waited
    (.deliver _ ⟨3, 5, .accept⟩ [] (fun _ => none) (fun b => (.pass, b)) [0, 0, 0, 0, 0] rfl rfl)
  exact ⟨_, delivered, rfl, one_in_flight (by unfold Config.Sized RESERVED_FD; decide) (by decide)
    delivered rfl⟩

end HM4.AsyncCompletionLoop
