import HM4.SparseMap
import HM4.General.Overwritten

/-!
# Selectors

Three selectors wait for events of file descriptors, each with an array that lives from one wait to
the next. `EPollSelector` bounds its array by the number of events and takes an interruption for no
event. `KQueueSelector` gives away its whole array, and `PollSelector` that of its descriptors; both
take an interruption for success, so that events of an earlier wait may come again.
-/

namespace HM4.Selectors

open SparseMap Overwritten

/-! ## Definitions of all selectors -/

/-- `WaitStatus`. -/
inductive WaitStatus
  | OK
  | NONE
  | ERROR
  deriving DecidableEq

/-- `FDEvent`. -/
inductive FDEvent
  | READ
  | WRITE
  deriving DecidableEq

/-- `FDStatus`. -/
inductive FDStatus
  | NONE
  | READ
  | WRITE
  | ERROR
  deriving DecidableEq

/-- A file descriptor, an `int`. -/
abbrev Fd := BitVec 32

/-- `FDResult`. -/
structure FDResult where
  fd : Fd
  status : FDStatus
  deriving DecidableEq

/-- What the loop over a selector does not skip. -/
def FDResult.isEvent (r : FDResult) : Bool := r.status != .NONE

/-- `errno`, as far as it is told apart. -/
inductive Errno
  | EINTR
  | EAGAIN
  | other
  deriving DecidableEq

/-- What the kernel does in a wait: it reports something, or it fails and leaves the array alone. -/
inductive Answer (ρ : Type)
  | ready (reports : ρ)
  | error (errno : Errno)

/-- A call of a selector, with what the kernel does in it. -/
inductive Call (κ ω : Type)
  | insertFD (fd : Fd) (event : FDEvent) (kernel : κ)
  | updateFD (fd : Fd) (event : FDEvent) (kernel : κ)
  | removeFD (fd : Fd) (kernel : κ)
  | wait (kernel : ω)

/-- A selector with the states `σ`; the first three calls may be undefined. -/
structure Selector (σ κ ω : Type) where
  insertFD : Fd → FDEvent → κ → σ → Option (Bool × σ)
  updateFD : Fd → FDEvent → κ → σ → Option (Bool × σ)
  removeFD : Fd → κ → σ → Option (Bool × σ)
  wait : ω → σ → WaitStatus × σ
  /-- What `begin()` to `end()` yield. -/
  range : σ → List FDResult
  /-- The events that the kernel reports in a wait. -/
  reported : ω → σ → List FDResult

namespace Selector

variable {σ κ ω : Type} (sel : Selector σ κ ω)

/-- One call. -/
def step : Call κ ω → σ → Option σ
  | .insertFD fd event kernel, s => (sel.insertFD fd event kernel s).map Prod.snd
  | .updateFD fd event kernel, s => (sel.updateFD fd event kernel s).map Prod.snd
  | .removeFD fd kernel, s => (sel.removeFD fd kernel s).map Prod.snd
  | .wait kernel, s => some (sel.wait kernel s).2

/-- The events that a selector yields. -/
def yields (s : σ) : List FDResult := (sel.range s).filter FDResult.isEvent

/-- After a wait that returns `OK` the selector yields the events that were reported in it. -/
def Fresh (kernel : ω) (s : σ) : Prop :=
  (sel.wait kernel s).1 = .OK → sel.yields (sel.wait kernel s).2 = sel.reported kernel s

/-- In a history of calls, all are defined and all waits have a property. -/
def Always (P : ω → σ → Prop) : List (Call κ ω) → σ → Prop
  | [], _ => True
  | c :: calls, s =>
    (∀ kernel, c = .wait kernel → P kernel s) ∧ ∃ s', sel.step c s = some s' ∧ Always P calls s'

variable {sel} {P : ω → σ → Prop} {calls : List (Call κ ω)} {s : σ}

theorem always_wait {kernel : ω} : sel.Always P (.wait kernel :: calls) s ↔
    P kernel s ∧ sel.Always P calls (sel.wait kernel s).2 := by
  simp only [Always, step, Call.wait.injEq, forall_eq', Option.some.injEq, exists_eq_left']

theorem always_other {c : Call κ ω} {s' : σ} (hc : ∀ kernel, c ≠ .wait kernel)
    (hs' : sel.step c s = some s') : sel.Always P (c :: calls) s ↔ sel.Always P calls s' := by
  have hnot : ∀ kernel, c = .wait kernel → P kernel s := fun kernel heq => absurd heq (hc kernel)
  simp only [Always, hs', Option.some.injEq, exists_eq_left']
  exact and_iff_right hnot

/-- Two properties of waits that agree in all states that can be reached agree in all histories. -/
theorem always_iff {Q : ω → σ → Prop} {Inv : σ → Prop}
    (hstep : ∀ c s, Inv s → ∃ s', sel.step c s = some s' ∧ Inv s')
    (h : ∀ kernel s, Inv s → (P kernel s ↔ Q kernel s)) (hs : Inv s) : sel.Always P calls s ↔ sel.Always Q calls s := by
  induction calls generalizing s with
  | nil => exact Iff.rfl
  | cons c calls ih =>
    obtain ⟨s', hs', hinv⟩ := hstep c s hs
    have hrest := ih hinv
    simp only [Always, hs', Option.some.injEq, exists_eq_left', hrest]
    refine and_congr_left fun _ => forall_congr' fun kernel => imp_congr_right fun _ => ?_
    exact h kernel s hs

theorem always_of {Inv : σ → Prop}
    (hstep : ∀ c s, Inv s → ∃ s', sel.step c s = some s' ∧ Inv s')
    (h : ∀ kernel s, Inv s → P kernel s) (hs : Inv s) : sel.Always P calls s := by
  induction calls generalizing s with
  | nil => trivial
  | cons c calls ih =>
    obtain ⟨s', hs', hinv⟩ := hstep c s hs
    exact ⟨fun kernel _ => h kernel s hs, s', hs', ih hinv⟩

end Selector

/-! ## `EPollSelector` -/

namespace EPoll

/-- `EPOLLIN`. -/
def EPOLLIN : BitVec 32 := 0x1#32

/-- `EPOLLOUT`. -/
def EPOLLOUT : BitVec 32 := 0x4#32

/-- `EPOLLERR`. -/
def EPOLLERR : BitVec 32 := 0x8#32

/-- `EPOLLHUP`. -/
def EPOLLHUP : BitVec 32 := 0x10#32

/-- `epoll_event`. -/
structure EpollEvent where
  events : BitVec 32
  fd : Fd
  deriving DecidableEq

/-- `event2native`. -/
def event2native : FDEvent → BitVec 32
  | .READ => EPOLLIN
  | .WRITE => EPOLLOUT

/-- `create_epoll_event`. -/
def create_epoll_event (fd : Fd) (event : FDEvent) : EpollEvent := ⟨event2native event, fd⟩

/-- What the kernel reports of a descriptor: what it was asked for, an error or a hang-up. -/
structure Report where
  event : EpollEvent
  asked : event.events &&& (EPOLLIN ||| EPOLLOUT ||| EPOLLERR ||| EPOLLHUP) ≠ 0#32

/-- The changes that the kernel is asked for. -/
inductive Ctl
  | ADD
  | MOD
  | DEL

/-- `EPollSelector`. -/
structure EPollSelector where
  epollFD_ : ℤ
  fds_ : List EpollEvent
  fdsCount_ : ℤ

/-- The constructor, with the descriptor that the kernel gives. -/
def create (epollFD : ℤ) (conf_max_clients : BitVec 32) : EPollSelector :=
  ⟨epollFD, List.replicate conf_max_clients.toNat ⟨0#32, 0#32⟩, 0⟩

/-- The events that the kernel writes, as many as there is room for. -/
def written (reports : List Report) (s : EPollSelector) : List EpollEvent :=
  (reports.map Report.event).take s.fds_.length

/-- `wait`. -/
def wait (kernel : Answer (List Report)) (s : EPollSelector) : WaitStatus × EPollSelector :=
  if s.epollFD_ < 0 then (.ERROR, s)
  else
    match kernel with
    | .ready reports =>
      let s' := { s with
        fds_ := overwrite s.fds_ (written reports s), fdsCount_ := (written reports s).length }
      (if s'.fdsCount_ = 0 then .NONE else .OK, s')
    | .error errno =>
      (match errno with
      | .EINTR => .NONE
      | _ => .ERROR, { s with fdsCount_ := -1 })

/-- `getFDStatus`. -/
def getFDStatus (ev : EpollEvent) : FDResult :=
  if ev.events &&& EPOLLERR ≠ 0 then ⟨ev.fd, .ERROR⟩
  else if ev.events &&& EPOLLIN ≠ 0 ∨ ev.events &&& EPOLLHUP ≠ 0 then ⟨ev.fd, .READ⟩
  else if ev.events &&& EPOLLOUT ≠ 0 then ⟨ev.fd, .WRITE⟩
  else ⟨ev.fd, .NONE⟩

/-- The selector; the kernel accepts a change or not. -/
def selector : Selector EPollSelector (Ctl → EpollEvent → Bool) (Answer (List Report)) where
  insertFD fd event kernel s := some (kernel .ADD (create_epoll_event fd event), s)
  updateFD fd event kernel s := some (kernel .MOD (create_epoll_event fd event), s)
  removeFD fd kernel s := some (kernel .DEL ⟨0#32, fd⟩, s)
  wait := wait
  -- `fdsCount_` is negative only after a wait that failed
  range s := (s.fds_.take s.fdsCount_.toNat).map getFDStatus
  reported kernel s :=
    match kernel with
    | .ready reports => (written reports s).map getFDStatus
    | .error _ => []

/-- The last branch of `getFDStatus` is not taken. -/
theorem isEvent_getFDStatus (r : Report) : (getFDStatus r.event).isEvent = true := by
  have hasked := r.asked
  unfold getFDStatus
  split
  · rfl
  next herr =>
  split
  · rfl
  next hin =>
  split
  · rfl
  next hout =>
  simp only [ne_eq, not_not, not_or] at herr hin hout
  refine absurd ?_ hasked
  rw [BitVec.and_or_distrib_left, BitVec.and_or_distrib_left, BitVec.and_or_distrib_left, herr,
    hin.1, hin.2, hout]
  rfl

/-- Only what was written in the wait is yielded. -/
theorem fresh (kernel : Answer (List Report)) (s : EPollSelector) : selector.Fresh kernel s := by
  unfold Selector.Fresh Selector.yields
  simp only [selector]
  unfold wait
  split
  · intro hok
    exact nomatch hok
  · cases kernel with
    | error errno => cases errno <;> exact fun hok => nomatch hok
    | ready reports =>
      intro _
      have hall : ∀ r ∈ (written reports s).map getFDStatus, r.isEvent = true := by
        intro r hr
        obtain ⟨ev, hev, rfl⟩ := List.mem_map.mp hr
        obtain ⟨report, -, rfl⟩ := List.mem_map.mp (List.mem_of_mem_take hev)
        exact isEvent_getFDStatus report
      simp only [overwrite, Int.toNat_natCast, List.take_left, List.filter_eq_self.mpr hall]

theorem always_fresh (calls : List (Call (Ctl → EpollEvent → Bool) (Answer (List Report))))
    (s : EPollSelector) : selector.Always selector.Fresh calls s := by
  refine @Selector.always_of _ _ _ _ _ calls s (fun _ => True) (fun c s _ => ?_)
    (fun kernel s _ => fresh kernel s) trivial
  cases c with
  | insertFD fd event kernel => exact ⟨s, rfl, trivial⟩
  | updateFD fd event kernel => exact ⟨s, rfl, trivial⟩
  | removeFD fd kernel => exact ⟨s, rfl, trivial⟩
  | wait kernel => exact ⟨_, rfl, trivial⟩

end EPoll

/-! ## `KQueueSelector` -/

namespace KQueue

/-- `EVFILT_READ` and `EVFILT_WRITE`. -/
inductive Filter
  | EVFILT_READ
  | EVFILT_WRITE
  deriving DecidableEq

/-- The number of a filter. -/
def Filter.toInt : Filter → ℤ
  | EVFILT_READ => -1
  | EVFILT_WRITE => -2

/-- `EV_ERROR`. -/
def EV_ERROR : BitVec 16 := 0x4000#16

/-- What the kernel is asked to do with a filter. -/
inductive EV
  | EV_ADD
  | EV_DELETE
  | EV_ENABLE
  | EV_DISABLE

/-- `struct kevent`, as far as it is read. -/
structure Kevent where
  ident : BitVec 64
  filter : ℤ
  flags : BitVec 16
  deriving DecidableEq

/-- What the kernel reports of a descriptor, for one of the filters that were added. -/
structure Report where
  ident : BitVec 64
  filter : Filter
  flags : BitVec 16
  deriving DecidableEq

/-- The record of a report. -/
def Report.toKevent (r : Report) : Kevent := ⟨r.ident, r.filter.toInt, r.flags⟩

/-- The answer of the kernel to a change of one filter of a descriptor. -/
abbrev Apply := Fd → Filter → EV → Bool

/-- `k_op`. -/
def k_op (kernel : Apply) (fd : Fd) (op1 op2 : EV) : Bool :=
  let result1 := kernel fd .EVFILT_READ op1
  let result2 := kernel fd .EVFILT_WRITE op2
  result1 && result2

/-- `k_add`. -/
def k_add (kernel : Apply) (fd : Fd) : Bool := k_op kernel fd .EV_ADD .EV_ADD

/-- `k_rem`. -/
def k_rem (kernel : Apply) (fd : Fd) : Bool := k_op kernel fd .EV_DELETE .EV_DELETE

/-- `makeEV`. -/
def makeEV (e event : FDEvent) : EV := if e = event then .EV_ENABLE else .EV_DISABLE

/-- `k_update`. -/
def k_update (kernel : Apply) (fd : Fd) (event : FDEvent) : Bool :=
  k_op kernel fd (makeEV .READ event) (makeEV .WRITE event)

/-- `KQueueSelector`. -/
structure KQueueSelector where
  kqueueFD_ : ℤ
  fds_ : List Kevent
  fdsCount_ : ℤ

/-- The constructor, with the descriptor that the kernel gives. -/
def create (kqueueFD : ℤ) (conf_max_clients : BitVec 32) : KQueueSelector :=
  ⟨kqueueFD, List.replicate conf_max_clients.toNat ⟨0#64, 0, 0#16⟩, 0⟩

/-- The events that the kernel writes, as many as there is room for. -/
def written (reports : List Report) (room : ℕ) : List Kevent :=
  (reports.map Report.toKevent).take room

/-- `wait`. -/
def wait (kernel : Answer (List Report)) (s : KQueueSelector) : WaitStatus × KQueueSelector :=
  if s.kqueueFD_ < 0 then (.ERROR, s)
  else
    match kernel with
    | .ready reports =>
      let events := written reports s.fds_.length
      let s' := { s with fds_ := overwrite s.fds_ events, fdsCount_ := events.length }
      (if s'.fdsCount_ = 0 then .NONE else .OK, s')
    | .error errno =>
      (match errno with
      | .EINTR => .OK
      | _ => .ERROR, { s with fdsCount_ := -1 })

/-- `getFDStatus`. -/
def getFDStatus (ev : Kevent) : FDResult :=
  let fd := ev.ident.truncate 32
  if ev.flags &&& EV_ERROR ≠ 0 then ⟨fd, .ERROR⟩
  else if ev.filter = Filter.EVFILT_READ.toInt then ⟨fd, .READ⟩
  else if ev.filter = Filter.EVFILT_WRITE.toInt then ⟨fd, .WRITE⟩
  else ⟨fd, .NONE⟩

/-- The selector. -/
def selector : Selector KQueueSelector Apply (Answer (List Report)) where
  insertFD fd event kernel s := some (k_add kernel fd && k_update kernel fd event, s)
  updateFD fd event kernel s := some (k_update kernel fd event, s)
  removeFD fd kernel s := some (k_rem kernel fd, s)
  wait := wait
  range s := s.fds_.map getFDStatus
  reported kernel s :=
    match kernel with
    | .ready reports => (written reports s.fds_.length).map getFDStatus
    | .error _ => []

/-- The number of events in each wait with events is as large as all before, and interruptions come
before all events. -/
def Rising (room : ℕ) : ℕ → List (Call Apply (Answer (List Report))) → Prop
  | _, [] => True
  | mark, .wait (.ready reports) :: calls =>
    let count := (written reports room).length
    (count = 0 ∨ mark ≤ count) ∧ Rising room (max mark count) calls
  | mark, .wait (.error .EINTR) :: calls => mark = 0 ∧ Rising room mark calls
  | mark, _ :: calls => Rising room mark calls

/-- The last branch of `getFDStatus` is not taken for a report. -/
theorem isEvent_getFDStatus (r : Report) : (getFDStatus r.toKevent).isEvent = true := by
  have hfilter : r.toKevent.filter = r.filter.toInt := rfl
  unfold getFDStatus
  rw [hfilter]
  dsimp only
  split
  · rfl
  · cases r.filter with
    | EVFILT_READ => rfl
    | EVFILT_WRITE => rfl

/-- A record that is yielded as an event. -/
def used (ev : Kevent) : Bool := (getFDStatus ev).isEvent

theorem used_written {reports : List Report} {room : ℕ} :
    ∀ ev ∈ written reports room, used ev = true := by
  intro ev hev
  obtain ⟨report, -, rfl⟩ := List.mem_map.mp (List.mem_of_mem_take hev)
  exact isEvent_getFDStatus report

theorem yields_eq (s : KQueueSelector) :
    selector.yields s = (s.fds_.filter used).map getFDStatus := by
  unfold Selector.yields
  simp only [selector]
  rw [List.filter_map]
  rfl

section Waits

variable {s : KQueueSelector} {mark : ℕ} (hopen : ¬s.kqueueFD_ < 0)
  (hmark : Marked used mark s.fds_) (hle : mark ≤ s.fds_.length)

include hopen

theorem wait_ready (reports : List Report) : wait (.ready reports) s =
    (if ((written reports s.fds_.length).length : ℤ) = 0 then .NONE else .OK,
      { s with
        fds_ := overwrite s.fds_ (written reports s.fds_.length)
        fdsCount_ := (written reports s.fds_.length).length }) := by
  unfold wait
  rw [if_neg hopen]

theorem wait_error (errno : Errno) : wait (.error errno) s =
    (if errno = .EINTR then .OK else .ERROR, { s with fdsCount_ := -1 }) := by
  unfold wait
  rw [if_neg hopen]
  cases errno <;> rfl

include hmark hle

/-- Events of earlier waits stay behind fewer new ones. -/
theorem fresh_ready_iff (reports : List Report) : selector.Fresh (.ready reports) s ↔
    (written reports s.fds_.length).length = 0 ∨
      mark ≤ (written reports s.fds_.length).length := by
  have hlen : (written reports s.fds_.length).length ≤ s.fds_.length := List.length_take_le _ _
  have hiff := hmark.map_filter_overwrite_iff getFDStatus hle hlen used_written
  have hwait : selector.wait (.ready reports) s = _ := wait_ready hopen reports
  unfold Selector.Fresh
  rw [hwait, yields_eq]
  dsimp only
  split
  · next hzero => exact iff_of_true (fun hok => nomatch hok) (.inl (by omega))
  · next hne =>
    have hpos : ¬(written reports s.fds_.length).length = 0 := by omega
    rw [or_iff_right hpos, ← hiff]
    exact ⟨fun h => h rfl, fun h _ => h⟩

/-- An interruption yields all earlier events again. -/
theorem fresh_error_iff (errno : Errno) : selector.Fresh (.error errno) s ↔
    (errno = .EINTR → mark = 0) := by
  have hwait : selector.wait (.error errno) s = _ := wait_error hopen errno
  unfold Selector.Fresh
  rw [hwait, yields_eq]
  dsimp only
  split
  · next heq =>
    have hreported : selector.reported (.error errno) s = [] := rfl
    rw [hmark.filter_eq, hreported, List.map_eq_nil_iff, List.take_eq_nil_iff]
    constructor
    · intro h _
      rcases h rfl with hzero | hnil
      · exact hzero
      · rw [hnil] at hle
        exact Nat.le_zero.mp hle
    · exact fun h _ => .inl (h heq)
  · next hne => exact iff_of_true (fun hok => nomatch hok) fun heq => absurd heq hne

end Waits

/-- All waits are fresh if and only if the numbers of events rise. -/
theorem always_fresh_iff (calls : List (Call Apply (Answer (List Report)))) {s : KQueueSelector}
    {mark : ℕ} (hopen : ¬s.kqueueFD_ < 0) (hmark : Marked used mark s.fds_)
    (hle : mark ≤ s.fds_.length) :
    selector.Always selector.Fresh calls s ↔ Rising s.fds_.length mark calls := by
  induction calls generalizing s mark with
  | nil => exact Iff.rfl
  | cons c calls ih =>
    cases c with
    | insertFD fd event kernel =>
      rw [Selector.always_other (by simp) rfl]
      exact ih hopen hmark hle
    | updateFD fd event kernel =>
      rw [Selector.always_other (by simp) rfl]
      exact ih hopen hmark hle
    | removeFD fd kernel =>
      rw [Selector.always_other (by simp) rfl]
      exact ih hopen hmark hle
    | wait kernel =>
      rw [Selector.always_wait]
      cases kernel with
      | ready reports =>
        have hwait : selector.wait (.ready reports) s = _ := wait_ready hopen reports
        have hlen : (written reports s.fds_.length).length ≤ s.fds_.length :=
          List.length_take_le _ _
        have hrest := hmark.overwrite (@used_written reports s.fds_.length)
        rw [fresh_ready_iff hopen hmark hle, hwait, ih (by exact hopen) hrest]
        · simp only [Rising, length_overwrite hlen]
        · dsimp only
          rw [length_overwrite hlen]
          omega
      | error errno =>
        have hwait : selector.wait (.error errno) s = _ := wait_error hopen errno
        have hrest := @ih { s with fdsCount_ := -1 } mark hopen hmark hle
        rw [fresh_error_iff hopen hmark hle, hwait, hrest]
        cases errno with
        | EINTR => simp [Rising]
        | EAGAIN => simp [Rising]
        | other => simp [Rising]

/-- A selector that is closed returns no `OK`. -/
theorem always_fresh_of_closed {calls : List (Call Apply (Answer (List Report)))}
    {s : KQueueSelector} (hclosed : s.kqueueFD_ < 0) :
    selector.Always selector.Fresh calls s := by
  have hwait : ∀ kernel (s : KQueueSelector), s.kqueueFD_ < 0 →
      selector.wait kernel s = (.ERROR, s) := fun kernel s hs => if_pos hs
  refine @Selector.always_of _ _ _ _ _ calls s (fun s => s.kqueueFD_ < 0) (fun c s hs => ?_)
    (fun kernel s hs => ?_) hclosed
  · cases c with
    | insertFD fd event kernel => exact ⟨s, rfl, hs⟩
    | updateFD fd event kernel => exact ⟨s, rfl, hs⟩
    | removeFD fd kernel => exact ⟨s, rfl, hs⟩
    | wait kernel =>
      refine ⟨s, ?_, hs⟩
      simp only [Selector.step, hwait kernel s hs]
  · unfold Selector.Fresh
    rw [hwait kernel s hs]
    exact fun hok => nomatch hok

/-- All waits of a new selector are fresh if and only if it is closed or the numbers rise. -/
theorem always_fresh_create (kqueueFD : ℤ) (conf_max_clients : BitVec 32)
    (calls : List (Call Apply (Answer (List Report)))) :
    selector.Always selector.Fresh calls (create kqueueFD conf_max_clients) ↔
      kqueueFD < 0 ∨ Rising conf_max_clients.toNat 0 calls := by
  by_cases hclosed : kqueueFD < 0
  · exact iff_of_true (always_fresh_of_closed hclosed) (.inl hclosed)
  · have hmark : Marked used 0 (create kqueueFD conf_max_clients).fds_ :=
      marked_replicate (by decide) conf_max_clients.toNat
    have hlen : (create kqueueFD conf_max_clients).fds_.length = conf_max_clients.toNat :=
      List.length_replicate
    rw [always_fresh_iff calls hclosed hmark (Nat.zero_le _), hlen, or_iff_right hclosed]

end KQueue

/-! ## `PollSelector` -/

namespace Poll

/-- `POLLIN`. -/
def POLLIN : BitVec 16 := 0x1#16

/-- `POLLOUT`. -/
def POLLOUT : BitVec 16 := 0x4#16

/-- `POLLERR`. -/
def POLLERR : BitVec 16 := 0x8#16

/-- `pollfd`. -/
structure Pollfd where
  fd : Fd
  events : BitVec 16
  revents : BitVec 16
  deriving DecidableEq

/-- `SparseMapController`. -/
def controller : Controller 32 Pollfd (BitVec 16 × BitVec 16) Pollfd where
  getKey := Pollfd.fd
  getVal := id
  make fd ts := ⟨fd, ts.1, ts.2⟩
  getKey_make _ _ := rfl

/-- `event2native`. -/
def event2native : FDEvent → BitVec 16
  | .READ => POLLIN
  | .WRITE => POLLOUT

/-- `PollSelector`. -/
abbrev PollSelector := SparseArray 32 Pollfd

/-- The constructor. -/
def create (conf_rlimitNoFile conf_max_clients : BitVec 32) : PollSelector :=
  SparseArray.create Pollfd conf_rlimitNoFile conf_max_clients

/-- The kernel writes what it has to report of a descriptor, also if this is nothing. -/
def Pollfd.report (reports : Fd → BitVec 16) (p : Pollfd) : Pollfd :=
  { p with revents := reports p.fd }

/-- The descriptors after a wait that did not fail. -/
def polled (reports : Fd → BitVec 16) (fds_ : PollSelector) : PollSelector :=
  { fds_ with dense_ := fds_.dense_.map (Pollfd.report reports) }

/-- The descriptors of which the kernel has something to report. -/
def active (reports : Fd → BitVec 16) (fds_ : PollSelector) : List Pollfd :=
  (polled reports fds_).dense_.toList.filter fun p => p.revents != 0#16

/-- `wait`. -/
def wait (kernel : Answer (Fd → BitVec 16)) (fds_ : PollSelector) : WaitStatus × PollSelector :=
  match kernel with
  | .ready reports =>
    (if (active reports fds_).length = 0 then .NONE else .OK, polled reports fds_)
  | .error errno =>
    (match errno with
    | .EAGAIN => .OK
    | .EINTR => .OK
    | .other => .ERROR, fds_)

/-- `insertFD`, which does not look at what `insert` answers. -/
def insertFD (fd : Fd) (event : FDEvent) (fds_ : PollSelector) : Option (Bool × PollSelector) :=
  if fds_.size < fds_.capacity then
    (fds_.insertF controller ⟨fd, event2native event, 0#16⟩).map fun r => (true, r.2)
  else some (false, fds_)

/-- `updateFD`; the entry is changed through the pointer that `find` gives. -/
def updateFD (fd : Fd) (event : FDEvent) (fds_ : PollSelector) : Option (Bool × PollSelector) := do
  if ¬(← fds_.exists_ fd) then return (false, fds_)
  let index ← fds_.sparse_[fd.toNat]?
  let item ← fds_.dense_[index.toNat]?
  let dense ← write fds_.dense_ index.toNat
    { item with events := event2native event, revents := 0#16 }
  return (true, { fds_ with dense_ := dense })

/-- `getFDStatus`. -/
def getFDStatus (p : Pollfd) : FDResult :=
  if p.revents &&& POLLERR ≠ 0 then ⟨p.fd, .ERROR⟩
  else if p.revents &&& POLLIN ≠ 0 then ⟨p.fd, .READ⟩
  else if p.revents &&& POLLOUT ≠ 0 then ⟨p.fd, .WRITE⟩
  else ⟨p.fd, .NONE⟩

/-- The selector; the kernel is asked in a wait only. -/
def selector : Selector PollSelector Unit (Answer (Fd → BitVec 16)) where
  insertFD fd event _ := insertFD fd event
  updateFD fd event _ := updateFD fd event
  removeFD fd _ fds_ := fds_.remove controller fd
  wait := wait
  range fds_ := fds_.dense_.toList.map getFDStatus
  reported kernel fds_ :=
    match kernel with
    | .ready reports => (active reports fds_).map getFDStatus
    | .error _ => []

/-- A report that has a status; a hang-up alone has none. -/
def Told (revents : BitVec 16) : Prop := revents &&& (POLLERR ||| POLLIN ||| POLLOUT) ≠ 0#16

/-- What is reported of a descriptor, if anything, has a status, and an interruption finds nothing
with a status that an earlier wait has left. -/
def Meets (kernel : Answer (Fd → BitVec 16)) (fds_ : PollSelector) : Prop :=
  match kernel with
  | .ready reports => ∀ p ∈ fds_.dense_.toList, reports p.fd ≠ 0#16 → Told (reports p.fd)
  | .error .other => True
  | .error _ => ∀ p ∈ fds_.dense_.toList, ¬Told p.revents

theorem isEvent_iff (p : Pollfd) : (getFDStatus p).isEvent = true ↔ Told p.revents := by
  unfold getFDStatus Told
  rw [BitVec.and_or_distrib_left, BitVec.and_or_distrib_left]
  by_cases herr : p.revents &&& POLLERR = 0#16
  · by_cases hin : p.revents &&& POLLIN = 0#16
    · by_cases hout : p.revents &&& POLLOUT = 0#16
      · simp [herr, hin, hout, FDResult.isEvent]
      · simp [herr, hin, hout, FDResult.isEvent]
    · simp [herr, hin, FDResult.isEvent]
  · simp [herr, FDResult.isEvent]

/-- A descriptor of which nothing is reported has no event. -/
theorem isEvent_of_zero {p : Pollfd} (h : p.revents = 0#16) :
    (getFDStatus p).isEvent = false := by
  rw [← Bool.not_eq_true, isEvent_iff, h, Told, BitVec.zero_and, not_not]

theorem active_told_iff (reports : Fd → BitVec 16) (fds_ : PollSelector) :
    (∀ p ∈ active reports fds_, (getFDStatus p).isEvent = true) ↔ Meets (.ready reports) fds_ := by
  simp only [active, polled, Array.toList_map, List.mem_filter, List.mem_map, and_imp,
    forall_exists_index, forall_apply_eq_imp_iff₂, isEvent_iff, Meets, Pollfd.report, bne_iff_ne]

/-- The entries with an event are those with a report, if each report is an event. -/
theorem map_filter_iff (ps : List Pollfd) :
    (ps.map getFDStatus).filter FDResult.isEvent =
        (ps.filter fun p => p.revents != 0#16).map getFDStatus ↔
      ∀ p ∈ ps.filter fun p => p.revents != 0#16, (getFDStatus p).isEvent = true := by
  constructor
  · intro heq p hp
    have hmem := List.mem_map_of_mem (f := getFDStatus) hp
    rw [← heq] at hmem
    exact (List.mem_filter.mp hmem).2
  · intro h
    rw [List.filter_map]
    congr 1
    refine List.filter_congr fun p hp => ?_
    by_cases hzero : p.revents = 0#16
    · simp [hzero, isEvent_of_zero hzero]
    · have hmem : p ∈ ps.filter fun p => p.revents != 0#16 :=
        List.mem_filter.mpr ⟨hp, bne_iff_ne.mpr hzero⟩
      simp [hzero, h p hmem]

theorem fresh_iff_meets (kernel : Answer (Fd → BitVec 16)) (fds_ : PollSelector) :
    selector.Fresh kernel fds_ ↔ Meets kernel fds_ := by
  have hnone : ∀ errno : Errno, (fds_.dense_.toList.map getFDStatus).filter FDResult.isEvent =
      selector.reported (.error errno) fds_ ↔
      ∀ p ∈ fds_.dense_.toList, ¬Told p.revents := fun errno => by
    have hreported : selector.reported (.error errno) fds_ = [] := rfl
    rw [hreported, List.filter_eq_nil_iff, List.forall_mem_map]
    simp only [isEvent_iff]
  unfold Selector.Fresh Selector.yields
  cases kernel with
  | ready reports =>
    have hiff := map_filter_iff (polled reports fds_).dense_.toList
    rw [← active_told_iff]
    simp only [selector, wait]
    split
    · next hzero =>
      rw [List.length_eq_zero_iff.mp hzero]
      simp
    · exact ⟨fun h => hiff.mp (h rfl), fun h _ => hiff.mpr h⟩
  | error errno =>
    cases errno with
    | EINTR => exact ⟨fun h => (hnone _).mp (h rfl), fun h _ => (hnone _).mpr h⟩
    | EAGAIN => exact ⟨fun h => (hnone _).mp (h rfl), fun h _ => (hnone _).mpr h⟩
    | other => exact iff_of_true (fun hok => nomatch hok) trivial

/-! ### The descriptors -/

section Calls

variable {fds_ : PollSelector} (h : Good controller fds_)

include h

theorem good_insertFD (fd : Fd) (event : FDEvent) :
    ∃ r fds', insertFD fd event fds_ = some (r, fds') ∧ Good controller fds' := by
  unfold insertFD
  split
  · obtain ⟨r, fds', hinsert, hgood, -⟩ := (insertAt_spec h
      (x := (⟨fd, event2native event, 0#16⟩ : Pollfd)) rfl).exists_eq
    refine ⟨true, fds', ?_, hgood⟩
    rw [SparseArray.insertF, hinsert, Option.map_some]
  · exact ⟨false, fds_, rfl, h⟩

theorem good_updateFD (fd : Fd) (event : FDEvent) :
    ∃ r fds', updateFD fd event fds_ = some (r, fds') ∧ Good controller fds' := by
  unfold updateFD
  rw [h.exists_eq]
  cases hentry : fds_.entry fd with
  | none => exact ⟨false, fds_, rfl, h⟩
  | some item =>
    obtain ⟨index, hindex, hitem⟩ := Option.bind_eq_some_iff.mp hentry
    have hset := (h.set (x := { item with events := event2native event, revents := 0#16 }) hitem
      rfl).1
    refine ⟨true, _, ?_, hset⟩
    simp [hindex, hitem, write_eq _ (lt_of_get hitem)]

theorem good_polled (reports : Fd → BitVec 16) : Good controller (polled reports fds_) where
  slot k index hk := by
    refine (h.slot k index hk).imp_right fun hused => ?_
    obtain ⟨p, hp, hkey⟩ := hused
    refine ⟨p.report reports, ?_, hkey⟩
    simp [polled, hp]
  here i p hp := by
    simp only [polled, Array.getElem?_map, Option.map_eq_some_iff] at hp
    obtain ⟨q, hq, rfl⟩ := hp
    exact h.here i q hq
  domain_lt := h.domain_lt
  size_le := by
    rw [polled, Array.size_map]
    exact h.size_le

/-- All calls are defined. -/
theorem good_step (c : Call Unit (Answer (Fd → BitVec 16))) :
    ∃ fds', selector.step c fds_ = some fds' ∧ Good controller fds' := by
  cases c with
  | insertFD fd event kernel =>
    obtain ⟨r, fds', hcall, hgood⟩ := good_insertFD h fd event
    exact ⟨fds', congrArg (Option.map Prod.snd) hcall, hgood⟩
  | updateFD fd event kernel =>
    obtain ⟨r, fds', hcall, hgood⟩ := good_updateFD h fd event
    exact ⟨fds', congrArg (Option.map Prod.snd) hcall, hgood⟩
  | removeFD fd kernel =>
    obtain ⟨r, fds', hcall, hgood, -⟩ := (remove_spec h fd).exists_eq
    exact ⟨fds', congrArg (Option.map Prod.snd) hcall, hgood⟩
  | wait kernel =>
    cases kernel with
    | ready reports => exact ⟨_, rfl, good_polled h reports⟩
    | error errno => exact ⟨_, rfl, h⟩

end Calls

end Poll

/-! ## Histories -/

/-- In every history each wait of `EPollSelector` that returns `OK` yields the events that the kernel
reported in it; `KQueueSelector` does if it is closed or the numbers of events rise, and
`PollSelector` does if the reports are told apart and no event is left when it is interrupted. -/
theorem histories_fresh_iff (fd : ℤ) (rlimit clients : BitVec 32) :
    (∀ calls, EPoll.selector.Always EPoll.selector.Fresh calls (EPoll.create fd clients)) ∧
    (∀ calls, KQueue.selector.Always KQueue.selector.Fresh calls (KQueue.create fd clients) ↔
      fd < 0 ∨ KQueue.Rising clients.toNat 0 calls) ∧
    (∀ calls, Poll.selector.Always Poll.selector.Fresh calls (Poll.create rlimit clients) ↔
      Poll.selector.Always Poll.Meets calls (Poll.create rlimit clients)) := by
  refine ⟨fun calls => EPoll.always_fresh calls _, fun calls => ?_, fun calls => ?_⟩
  · exact KQueue.always_fresh_create fd clients calls
  · exact Selector.always_iff (fun c s hs => Poll.good_step hs c)
      (fun kernel s _ => Poll.fresh_iff_meets kernel s) (good_create _ rlimit clients)

/-- Two events, then one of them alone. -/
def twoThenOne : List (Call KQueue.Apply (Answer (List KQueue.Report))) :=
  [.insertFD 5#32 .READ fun _ _ _ => true, .insertFD 6#32 .READ fun _ _ _ => true,
    .wait (.ready [⟨5#64, .EVFILT_READ, 0#16⟩, ⟨6#64, .EVFILT_READ, 0#16⟩]),
    .wait (.ready [⟨6#64, .EVFILT_READ, 0#16⟩])]

/-- One event, then an interruption. -/
def interrupted : List (Call Unit (Answer (Fd → BitVec 16))) :=
  [.insertFD 5#32 .READ (), .wait (.ready fun _ => Poll.POLLIN), .wait (.error .EINTR)]

/-- Earlier events come again. -/
theorem earlier_events_again :
    ¬KQueue.selector.Always KQueue.selector.Fresh twoThenOne (KQueue.create 3 4#32) ∧
      ¬Poll.selector.Always Poll.selector.Fresh interrupted (Poll.create 16#32 4#32) := by
  constructor
  · intro h
    rcases (KQueue.always_fresh_create 3 4#32 twoThenOne).mp h with hclosed | hrising
    · exact absurd hclosed (by decide)
    · have hcount : (1 = 0 ∨ 2 ≤ 1) := hrising.2.1
      exact absurd hcount (by decide)
  · intro h
    obtain ⟨-, s1, hs1, -, s2, hs2, hfresh, -⟩ := h
    have hmeets := (Poll.fresh_iff_meets _ _).mp (hfresh _ rfl)
    obtain rfl := Option.some.inj hs1
    obtain rfl := Option.some.inj hs2
    have hmem : (⟨5#32, Poll.POLLIN, Poll.POLLIN⟩ : Poll.Pollfd) ∈
        (Poll.polled (fun _ => Poll.POLLIN) { Poll.create 16#32 4#32 with
          dense_ := #[⟨5#32, Poll.POLLIN, 0#16⟩] }).dense_.toList := by
      simp [Poll.polled, Poll.Pollfd.report]
    have htold : Poll.Told Poll.POLLIN := by
      unfold Poll.Told
      decide
    exact hmeets _ hmem htold

end HM4.Selectors
