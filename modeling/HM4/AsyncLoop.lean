import HM4.AsyncCompletionLoop

/-!
# The loop over ready sockets

When a socket is ready, the loop lets the kernel read into the whole rest of the client's buffer,
cuts the buffer back by what came, and calls the worker. The number that `read` returns is made
unsigned before it is looked at.
-/

namespace HM4.AsyncLoop

open Bytes KeyValueWorker
open AsyncCompletionLoop (DisconnectStatus Worker)

/-! ## The code -/

/-- What the loop is made with, and whether it was compiled with assertions. -/
structure Config where
  conf_maxRequestSize : ℕ
  asserts : Bool

/-- What `read` finds: at least one octet, the end, nothing yet, or an error. -/
inductive ReadResult
  | bytes (first : Byte) (rest : Key)
  | eof
  | eagain
  | error

namespace ReadResult

/-- The octets that are read, if there is room for so many. -/
def received (room : ℕ) : ReadResult → Key
  | bytes first rest => (first :: rest).take room
  | eof => []
  | eagain => []
  | error => []

/-- The number that is returned. -/
def ssize (room : ℕ) : ReadResult → ℤ
  | bytes first rest => ((first :: rest).take room).length
  | eof => 0
  | eagain => -1
  | error => -1

end ReadResult

/-- What became of an event. -/
inductive Outcome
  /-- `client_Disconnect_`. -/
  | disconnected (status : DisconnectStatus)
  /-- An assertion failed. -/
  | aborted
  /-- The worker was not called. -/
  | idle (buffer : IOBuffer)
  /-- The worker was called with these octets. -/
  | worked (handed : Key) (status : WorkerStatus) (buffer : IOBuffer)

/-- The client afterwards, if it is still there. -/
def Outcome.client : Outcome → Option IOBuffer
  | disconnected _ => none
  | aborted => none
  | idle buffer => some buffer
  | worked _ .disconnect _ => none
  | worked _ .disconnectError _ => none
  | worked _ _ buffer => some buffer

/-- `static_cast<size_t>`. -/
def toSize (n : ℤ) : ℕ := (n % 2 ^ 64).toNat

/-- `finalizeBuffer`, with the octets that the kernel has put at the offset. -/
def finalizeBuffer (c : Config) (mm : MemoryManager) (offset actualSize : ℕ) (received : Key)
    (b : IOBuffer) : Option IOBuffer :=
  let filled : IOBuffer :=
    { b with
      block := b.block.take offset ++ received ++ b.block.drop (offset + received.length) }
  let size := (offset + actualSize) % 2 ^ 64
  if c.asserts = true ∧ filled.block.length < size then none
  else (filled.resize mm size).or (if c.asserts = true then none else some filled)

/-- `client_SocketOps_`. -/
def client_SocketOps (r : ReadResult) (size : ℤ) (b : IOBuffer) : Outcome :=
  if size < 0 then
    match r with
    | .eagain => .idle b
    | _ => .disconnected .error
  else if size = 0 then .disconnected .normal
  else .idle b

/-- `client_Worker_`. -/
def client_Worker (worker : Worker) (b : IOBuffer) : Outcome :=
  .worked b.view (worker b).1 (worker b).2

/-- `client_Read_` of a client that is there. -/
def client_Read (c : Config) (mm : MemoryManager) (worker : Worker) (r : ReadResult)
    (b : IOBuffer) : Outcome :=
  let provided := b.provideBufferAtLeast mm IOBuffer.STANDARD_READ_SIZE
  match provided.2.1 with
  | none => .disconnected .error
  | some p =>
    let ssize := r.ssize provided.2.2
    let size := toSize ssize
    match finalizeBuffer c mm p size (r.received provided.2.2) provided.1 with
    | none => .aborted
    | some buffer =>
      if size ≤ 0 then client_SocketOps r ssize buffer
      else if buffer.size > c.conf_maxRequestSize then .disconnected .error
      else client_Worker worker buffer

/-- What `write` does: it takes at least one octet, or none, or it fails. -/
inductive WriteResult
  | wrote (more : ℕ)
  | zero
  | eagain
  | error

/-- `client_Write_` of a client that is there. -/
def client_Write (r : WriteResult) (b : IOBuffer) : Outcome :=
  if b.size > 0 then
    match r with
    | .wrote more => .idle (b.pop (min (more + 1) b.size))
    | .zero => .disconnected .normal
    | .eagain => .idle b
    | .error => .disconnected .error
  else .idle b

/-- An event of one client, with what the memory manager and the worker do then. -/
inductive Event
  | read (result : ReadResult) (mm : MemoryManager) (worker : Worker)
  | write (result : WriteResult)

/-- The switch of `process`. -/
def Event.step (c : Config) (b : IOBuffer) : Event → Outcome
  | read result mm worker => client_Read c mm worker result b
  | write result => client_Write result b

/-! ## What is promised -/

/-- There is memory to read into. -/
def Provided (mm : MemoryManager) (b : IOBuffer) : Prop :=
  (b.provideBufferAtLeast mm IOBuffer.STANDARD_READ_SIZE).2.1.isSome = true

/-- The room that is provided. -/
def room (mm : MemoryManager) (b : IOBuffer) : ℕ :=
  (b.provideBufferAtLeast mm IOBuffer.STANDARD_READ_SIZE).2.2

/-- What a read may do where so many octets wait to be consumed. -/
def ReadResult.Conforms (c : Config) (room : ℕ) (pending : Key) (o : Outcome) :
    ReadResult → Prop
  | bytes first rest =>
    let all := pending ++ (first :: rest).take room
    if all.length > c.conf_maxRequestSize then o = .disconnected .error
    else ∃ status buffer, o = .worked all status buffer
  | eof => ∃ status, o = .disconnected status
  | eagain => ∃ buffer, o = .idle buffer ∧ buffer.view = pending ∧ buffer.size = pending.length
  | error => ∃ status, o = .disconnected status

/-- What an event may do; nothing is promised where nothing can be read, or of a write. -/
def Event.Conforms (c : Config) (pending : Key) (b : IOBuffer) (o : Outcome) : Event → Prop
  | read result mm _ => Provided mm b → result.Conforms c (room mm b) pending o
  | write _ => True

/-- What waits to be consumed afterwards. -/
def Event.left (pending : Key) (o : Outcome) : Event → Key
  | read _ _ _ =>
    match o with
    | .worked _ _ buffer => buffer.view
    | _ => pending
  | write (.wrote more) => pending.drop (more + 1)
  | write _ => pending

/-- A history in which each event does what it may. -/
def Faithful (c : Config) : (pending : Key) → Option IOBuffer → List Event → Prop
  | _, none, _ => True
  | _, some _, [] => True
  | pending, some b, e :: es =>
    e.Conforms c pending b (e.step c b) ∧
      Faithful c (e.left pending (e.step c b)) (e.step c b).client es

/-- A buffer that is cut back by one octet, or is empty, still holds too much. -/
def Oversized (c : Config) (mm : MemoryManager) (b : IOBuffer) : Prop :=
  if b.used = 0 then c.asserts = false ∧ c.conf_maxRequestSize < room mm b
  else c.conf_maxRequestSize < b.used - 1 - b.head

/-- A read that does not return -1, or meets a buffer that holds too much anyway. -/
def Event.Good (c : Config) (b : IOBuffer) : Event → Prop
  | read (.bytes _ _) _ _ => True
  | read .eof _ _ => True
  | read .eagain mm _ => ¬Provided mm b
  | read .error mm _ => Provided mm b → Oversized c mm b
  | write _ => True

/-- A history of such reads. -/
def AllGood (c : Config) : Option IOBuffer → List Event → Prop
  | none, _ => True
  | some _, [] => True
  | some b, e :: es => e.Good c b ∧ AllGood c (e.step c b).client es

/-! ## Buffers -/

/-- A buffer as the loop and the worker leave it: if nothing is left in it, it is clear. -/
structure Valid (b : IOBuffer) : Prop where
  head_lt : b.head = 0 ∨ b.head < b.used
  used_le : b.used ≤ b.block.length
  length_lt : b.block.length < 2 ^ 32

/-- A block has a capacity of 32 bits. -/
def Sized (mm : MemoryManager) : Prop := ∀ n, ∀ block ∈ mm n, block.length < 2 ^ 32

section Buffers

variable {b : IOBuffer} {mm : MemoryManager} {n : ℕ}

theorem length_view (h : Valid b) : b.view.length = b.size := by
  have hused := h.used_le
  simp only [IOBuffer.view, IOBuffer.size, List.length_drop, List.length_take]
  omega

theorem valid_clear : Valid IOBuffer.clear := ⟨.inl rfl, le_rfl, by decide⟩

/-- A block that is asked for, and what is kept in it. -/
theorem reserve_spec (hmm : Sized mm) (h : Valid b) (hn : b.used ≤ n) {grown : IOBuffer}
    (hgrown : b.reserve mm n = some grown) :
    grown.head = b.head ∧ n ≤ grown.block.length ∧ grown.block.length < 2 ^ 32 ∧
      grown.block.take b.used = b.block.take b.used := by
  obtain ⟨block, hblock, rfl⟩ := Option.map_eq_some_iff.mp hgrown
  obtain ⟨hgranted, hle⟩ := Option.filter_eq_some_iff.mp hblock
  have hlarge := of_decide_eq_true hle
  have hlt := hmm n block hgranted
  have hkept : (b.block.take b.used).length = b.used := List.length_take_of_le h.used_le
  have hlength : (b.block.take b.used ++ block.drop b.used).length = block.length := by
    rw [List.length_append, hkept, List.length_drop]
    omega
  dsimp only
  rw [hlength]
  exact ⟨rfl, hlarge, hlt, List.take_left' hkept⟩

/-- What is provided to read into: the whole block behind what is used. -/
theorem provideBufferAtLeast_spec (hmm : Sized mm) (h : Valid b) (hprovided : Provided mm b) :
    ∃ whole : IOBuffer, b.provideBufferAtLeast mm IOBuffer.STANDARD_READ_SIZE =
        (whole, some b.used, whole.block.length - b.used) ∧
      whole.head = b.head ∧ whole.used = whole.block.length ∧
      b.used < whole.block.length ∧ whole.block.length < 2 ^ 32 ∧
      whole.block.take b.used = b.block.take b.used := by
  have hpos : 0 < IOBuffer.STANDARD_READ_SIZE := by decide
  unfold Provided at hprovided
  unfold IOBuffer.provideBufferAtLeast at hprovided ⊢
  cases hgrow : b.resize mm (b.used + IOBuffer.STANDARD_READ_SIZE) with
  | none =>
    rw [hgrow] at hprovided
    exact absurd hprovided Bool.false_ne_true
  | some grown =>
    have hwhole : grown.resize mm grown.block.length =
        some { grown with used := grown.block.length } := by
      rw [IOBuffer.resize, if_neg (lt_irrefl _)]
    dsimp only
    rw [hwhole]
    refine ⟨{ grown with used := grown.block.length }, rfl, ?_⟩
    unfold IOBuffer.resize at hgrow
    split at hgrow
    · obtain ⟨grown', hreserve, rfl⟩ := Option.map_eq_some_iff.mp hgrow
      obtain ⟨hhead, hlarge, hlt, hkept⟩ := reserve_spec hmm h (Nat.le_add_right _ _) hreserve
      exact ⟨hhead, rfl, by dsimp only; omega, hlt, hkept⟩
    · next hroom =>
      obtain rfl := Option.some.inj hgrow
      exact ⟨rfl, rfl, by dsimp only; omega, h.length_lt, rfl⟩

/-- The buffer cut back behind what the kernel has put there. -/
def cut (whole : IOBuffer) (offset : ℕ) (received : Key) (size : ℕ) : IOBuffer where
  head := whole.head
  block := whole.block.take offset ++ received ++ whole.block.drop (offset + received.length)
  used := size

theorem length_block_cut {whole : IOBuffer} {offset : ℕ} {received : Key} (size : ℕ)
    (hfits : offset + received.length ≤ whole.block.length) :
    (cut whole offset received size).block.length = whole.block.length := by
  simp only [cut, List.length_append, List.length_take, List.length_drop]
  omega

/-- Cut back to a size within its block a buffer needs no memory. -/
theorem finalizeBuffer_eq (c : Config) {whole : IOBuffer} {offset actualSize : ℕ} {received : Key}
    (hfits : offset + received.length ≤ whole.block.length)
    (hsize : (offset + actualSize) % 2 ^ 64 ≤ whole.block.length) :
    finalizeBuffer c mm offset actualSize received whole =
      some (cut whole offset received ((offset + actualSize) % 2 ^ 64)) := by
  have hlength := length_block_cut whole.used hfits
  have hroom : ¬(c.asserts = true ∧ (cut whole offset received whole.used).block.length <
      (offset + actualSize) % 2 ^ 64) := by
    rw [hlength]
    omega
  have hresize : (cut whole offset received whole.used).resize mm ((offset + actualSize) % 2 ^ 64) =
      some (cut whole offset received ((offset + actualSize) % 2 ^ 64)) := by
    have hsmall : ¬(offset + actualSize) % 2 ^ 64 >
        (cut whole offset received whole.used).block.length := by
      rw [hlength]
      omega
    rw [IOBuffer.resize, if_neg hsmall]
    rfl
  change (if c.asserts = true ∧ (cut whole offset received whole.used).block.length <
      (offset + actualSize) % 2 ^ 64 then none
    else ((cut whole offset received whole.used).resize mm
      ((offset + actualSize) % 2 ^ 64)).or _) = _
  rw [if_neg hroom, hresize, Option.some_or]

/-- Cut back to a size that no block has, a buffer stays whole, or an assertion fails. -/
theorem finalizeBuffer_of_large (c : Config) (hmm : Sized mm) {whole : IOBuffer}
    (hlt : whole.block.length < 2 ^ 32) {offset actualSize : ℕ}
    (hoffset : offset ≤ whole.block.length)
    (hlarge : 2 ^ 32 ≤ (offset + actualSize) % 2 ^ 64) :
    finalizeBuffer c mm offset actualSize [] whole =
      if c.asserts = true then none else some (cut whole offset [] whole.used) := by
  have hlength : (cut whole offset [] whole.used).block.length <
      (offset + actualSize) % 2 ^ 64 := by
    rw [length_block_cut whole.used hoffset]
    omega
  have hresize : (cut whole offset [] whole.used).resize mm ((offset + actualSize) % 2 ^ 64) =
      none := by
    have hrefused : (mm ((offset + actualSize) % 2 ^ 64)).filter
        (fun block => (offset + actualSize) % 2 ^ 64 ≤ block.length) = none := by
      rw [Option.filter_eq_none_iff]
      intro block hblock hle
      have hsmall := hmm _ block hblock
      have hlarge' := of_decide_eq_true hle
      omega
    rw [IOBuffer.resize, if_pos hlength, IOBuffer.reserve, hrefused]
    rfl
  change (if c.asserts = true ∧ (cut whole offset [] whole.used).block.length <
      (offset + actualSize) % 2 ^ 64 then none
    else ((cut whole offset [] whole.used).resize mm ((offset + actualSize) % 2 ^ 64)).or _) = _
  by_cases hasserts : c.asserts = true
  · rw [if_pos ⟨hasserts, hlength⟩, if_pos hasserts]
  · rw [if_neg fun hboth => hasserts hboth.1, hresize, Option.none_or, if_neg hasserts,
      if_neg hasserts]
    rfl

end Buffers

/-! ## A read -/

section Read

variable {c : Config} {mm : MemoryManager} {worker : Worker} {b : IOBuffer}

/-- What a read does with the buffer that is cut back. -/
def afterRead (c : Config) (worker : Worker) (buffer : IOBuffer) : Outcome :=
  if buffer.size > c.conf_maxRequestSize then .disconnected .error else client_Worker worker buffer

theorem client_Read_eq {whole : IOBuffer} {n size : ℕ} {r : ReadResult} {ssize : ℤ}
    {received : Key}
    (hprovide : b.provideBufferAtLeast mm IOBuffer.STANDARD_READ_SIZE = (whole, some b.used, n))
    (hssize : r.ssize n = ssize) (hsize : toSize ssize = size)
    (hreceived : r.received n = received) :
    client_Read c mm worker r b =
      (finalizeBuffer c mm b.used size received whole).elim .aborted fun buffer =>
        if size ≤ 0 then client_SocketOps r ssize buffer else afterRead c worker buffer := by
  subst hssize hsize hreceived
  unfold client_Read
  rw [hprovide]
  dsimp only
  cases finalizeBuffer c mm b.used (toSize (r.ssize n)) (r.received n) whole <;> rfl

theorem toSize_natCast {n : ℕ} (h : n < 2 ^ 64) : toSize n = n := by
  unfold toSize
  omega

/-- Behind the octets that are kept lie those that were read. -/
theorem view_cut {whole : IOBuffer} (received : Key) (h : Valid b) (hhead : whole.head = b.head)
    (hkept : whole.block.take b.used = b.block.take b.used) :
    (cut whole b.used received (b.used + received.length)).view = b.view ++ received := by
  have hused : (b.block.take b.used).length = b.used := List.length_take_of_le h.used_le
  have hle : b.head ≤ (b.block.take b.used).length := by
    rw [hused]
    rcases h.head_lt with hzero | hlt
    · omega
    · exact hlt.le
  have hfront : (b.block.take b.used ++ received).length = b.used + received.length := by
    rw [List.length_append, hused]
  unfold IOBuffer.view cut
  dsimp only
  rw [hkept, List.take_left' hfront, hhead, List.drop_append_of_le_length hle]

/-- Octets within the block are appended. -/
theorem finalizeBuffer_append {whole : IOBuffer} {received : Key} (h : Valid b)
    (hhead : whole.head = b.head) (hkept : whole.block.take b.used = b.block.take b.used)
    (hlt : whole.block.length < 2 ^ 32)
    (hfits : b.used + received.length ≤ whole.block.length) :
    ∃ b', Valid b' ∧ b'.view = b.view ++ received ∧
      finalizeBuffer c mm b.used received.length received whole = some b' := by
  have hsum : (b.used + received.length) % 2 ^ 64 = b.used + received.length :=
    Nat.mod_eq_of_lt (by omega)
  refine ⟨cut whole b.used received (b.used + received.length), ⟨?_, ?_, ?_⟩,
    view_cut received h hhead hkept, ?_⟩
  · change whole.head = 0 ∨ whole.head < b.used + received.length
    rw [hhead]
    rcases h.head_lt with hzero | hlt
    · exact .inl hzero
    · exact .inr (by omega)
  · rw [length_block_cut _ hfits]
    exact hfits
  · rw [length_block_cut _ hfits]
    exact hlt
  · rw [finalizeBuffer_eq c hfits (by omega), hsum]

variable (hmm : Sized mm) (h : Valid b) (hprovided : Provided mm b)
include hmm h hprovided

/-- What was read is behind what was there. -/
theorem client_Read_bytes (first : Byte) (rest : Key) :
    ∃ b', Valid b' ∧ b'.view = b.view ++ (first :: rest).take (room mm b) ∧
      client_Read c mm worker (.bytes first rest) b = afterRead c worker b' := by
  obtain ⟨whole, hprovide, hhead, -, hroom, hlt, hkept⟩ :=
    provideBufferAtLeast_spec hmm h hprovided
  have hn : room mm b = whole.block.length - b.used := by rw [room, hprovide]
  obtain ⟨received, hreceived⟩ : ∃ received, (first :: rest).take (room mm b) = received :=
    ⟨_, rfl⟩
  have hlength : received.length ≤ room mm b := hreceived ▸ List.length_take_le _ _
  have hpos : 0 < received.length := by
    rw [← hreceived, List.length_take, List.length_cons]
    omega
  obtain ⟨b', hvalid, hview, hfinal⟩ :=
    @finalizeBuffer_append c mm b whole received h hhead hkept hlt (by omega)
  rw [hreceived]
  rw [hn] at hreceived
  have hssize : (ReadResult.bytes first rest).ssize (whole.block.length - b.used) =
      (received.length : ℤ) := by
    rw [← hreceived]
    rfl
  refine ⟨b', hvalid, hview, ?_⟩
  rw [client_Read_eq hprovide hssize (toSize_natCast (by omega)) hreceived, hfinal,
    Option.elim_some, if_neg (by omega)]

/-- The end of the input disconnects the client. -/
theorem client_Read_eof : client_Read c mm worker .eof b = .disconnected .normal := by
  obtain ⟨whole, hprovide, hhead, -, hroom, hlt, hkept⟩ :=
    provideBufferAtLeast_spec hmm h hprovided
  obtain ⟨b', -, -, hfinal⟩ := @finalizeBuffer_append c mm b whole [] h hhead hkept hlt hroom.le
  rw [client_Read_eq hprovide rfl rfl rfl]
  change (finalizeBuffer c mm b.used ([] : Key).length [] whole).elim _ _ = _
  rw [hfinal]
  rfl

/-- A read that returns -1 takes the last octet away, or leaves the whole block of an empty buffer,
and goes on as if something had come. -/
theorem client_Read_failed {r : ReadResult} (hr : r = .eagain ∨ r = .error) :
    client_Read c mm worker r b = .aborted ∧ b.used = 0 ∧ c.asserts = true ∨
      ∃ b', b'.size = (if b.used = 0 then room mm b else b.used - 1 - b.head) ∧
        (b.used = 0 → c.asserts = false) ∧
        client_Read c mm worker r b = afterRead c worker b' := by
  obtain ⟨whole, hprovide, hhead, hused, hroom, hlt, -⟩ :=
    provideBufferAtLeast_spec hmm h hprovided
  have hn : room mm b = whole.block.length - b.used := by rw [room, hprovide]
  have hminus : toSize (-1) = 18446744073709551615 := by decide
  have hssize : r.ssize (whole.block.length - b.used) = -1 := by
    rcases hr with rfl | rfl <;> rfl
  have hreceived : r.received (whole.block.length - b.used) = [] := by
    rcases hr with rfl | rfl <;> rfl
  rw [client_Read_eq hprovide hssize hminus hreceived]
  by_cases hempty : b.used = 0
  · have hlarge := finalizeBuffer_of_large c hmm hlt hroom.le
      (by omega : 2 ^ 32 ≤ (b.used + 18446744073709551615) % 2 ^ 64)
    rw [hlarge]
    by_cases hasserts : c.asserts = true
    · rw [if_pos hasserts]
      exact .inl ⟨rfl, hempty, hasserts⟩
    · rw [if_neg hasserts, Option.elim_some, if_neg (by omega), if_pos hempty, hn]
      refine .inr ⟨_, ?_, fun _ => Bool.eq_false_iff.mpr hasserts, rfl⟩
      change whole.used - whole.head = _
      have hzero : b.head = 0 := by
        rcases h.head_lt with hzero | hlt
        · exact hzero
        · omega
      rw [hused, hhead, hzero, hempty]
  · have hsize : (b.used + 18446744073709551615) % 2 ^ 64 = b.used - 1 := by
      have hle := h.used_le
      have hlength := h.length_lt
      omega
    rw [finalizeBuffer_eq c (by simpa using hroom.le) (by omega), Option.elim_some,
      if_neg (by omega), hsize, if_neg hempty]
    refine .inr ⟨_, ?_, fun hzero => absurd hzero hempty, rfl⟩
    change b.used - 1 - whole.head = _
    rw [hhead]

omit hmm h hprovided in
/-- Without memory the client is disconnected, and nothing is read. -/
theorem client_Read_refused (hrefused : ¬Provided mm b) (r : ReadResult) :
    client_Read c mm worker r b = .disconnected .error := by
  have hnone : (b.provideBufferAtLeast mm IOBuffer.STANDARD_READ_SIZE).2.1 = none :=
    Option.not_isSome_iff_eq_none.mp hrefused
  unfold client_Read
  dsimp only
  rw [hnone]

end Read

/-! ## A write -/

section Write

variable {b : IOBuffer}

theorem valid_pop (h : Valid b) (n : ℕ) : Valid (b.pop n) := by
  unfold IOBuffer.pop
  split
  · exact h
  · next hn =>
    split
    · exact valid_clear
    · next hrest =>
      have hless : b.head + n < b.used := by
        unfold IOBuffer.size at hn hrest
        omega
      exact ⟨.inr hless, h.used_le, h.length_lt⟩

/-- Popped octets are not seen any more. -/
theorem view_pop (h : Valid b) {n : ℕ} (hn : n ≤ b.size) : (b.pop n).view = b.view.drop n := by
  unfold IOBuffer.pop
  split
  · next hnone =>
    have hzero : n = 0 := by omega
    rw [hzero, List.drop_zero]
  · split
    · next hall =>
      rw [List.drop_eq_nil_of_le (by rw [length_view h, hall])]
      rfl
    · unfold IOBuffer.view
      rw [List.drop_drop]

end Write

/-! ## Histories -/

/-- What is promised of the memory manager and the worker. -/
def Event.Sound : Event → Prop
  | read _ mm worker => Sized mm ∧ ∀ b, Valid b → Valid (worker b).2
  | write _ => True

section Histories

variable {c : Config} {b : IOBuffer}

theorem afterRead_disconnected_iff {worker : Worker} {b' : IOBuffer} :
    (∃ status, afterRead c worker b' = .disconnected status) ↔ c.conf_maxRequestSize < b'.size := by
  unfold afterRead
  split
  · next hlarge => exact ⟨fun _ => hlarge, fun _ => ⟨_, rfl⟩⟩
  · next hsmall =>
    exact ⟨fun ⟨_, heq⟩ => Outcome.noConfusion heq, fun hlarge => absurd hlarge hsmall⟩

/-- An event does what it may, just if it is good. -/
theorem Event.conforms_iff (h : Valid b) {e : Event} (he : e.Sound) :
    e.Conforms c b.view b (e.step c b) ↔ e.Good c b := by
  cases e with
  | write result => exact Iff.rfl
  | read result mm worker =>
    obtain ⟨hmm, -⟩ := he
    cases result with
    | bytes first rest =>
      refine iff_of_true (fun hprovided => ?_) trivial
      obtain ⟨b', hvalid, hview, heq⟩ := @client_Read_bytes c mm worker b hmm h hprovided first rest
      have hsize : (b.view ++ (first :: rest).take (room mm b)).length = b'.size := by
        rw [← hview, length_view hvalid]
      unfold ReadResult.Conforms
      dsimp only [step]
      rw [heq, afterRead, hsize]
      split
      · rfl
      · exact ⟨_, _, by rw [client_Worker, hview]⟩
    | eof => exact iff_of_true (fun hprovided => ⟨_, client_Read_eof hmm h hprovided⟩) trivial
    | eagain =>
      constructor
      · intro hconforms hprovided
        obtain ⟨b', heq, -⟩ := hconforms hprovided
        dsimp only [step] at heq
        rcases @client_Read_failed c mm worker b hmm h hprovided _ (.inl rfl) with
          ⟨habort, -⟩ | ⟨b'', -, -, hafter⟩
        · rw [habort] at heq
          exact Outcome.noConfusion heq
        · rw [hafter, afterRead] at heq
          split at heq <;> exact Outcome.noConfusion heq
      · exact fun hrefused hprovided => absurd hprovided hrefused
    | error =>
      refine forall_congr' fun hprovided => ?_
      change (∃ status, client_Read c mm worker .error b = .disconnected status) ↔ _
      unfold Oversized
      rcases @client_Read_failed c mm worker b hmm h hprovided _ (.inr rfl) with
        ⟨habort, hempty, hasserts⟩ | ⟨b', hsize, hasserts, hafter⟩
      · rw [habort, if_pos hempty, hasserts]
        exact ⟨fun ⟨_, heq⟩ => Outcome.noConfusion heq, fun hboth => Bool.noConfusion hboth.1⟩
      · rw [hafter, afterRead_disconnected_iff, hsize]
        by_cases hempty : b.used = 0
        · rw [if_pos hempty, if_pos hempty]
          exact (and_iff_right (hasserts hempty)).symm
        · rw [if_neg hempty, if_neg hempty]

/-- Where a write leaves the client, it takes octets from the front. -/
theorem client_Write_left (h : Valid b) (result : WriteResult) {b' : IOBuffer}
    (hclient : (client_Write result b).client = some b') :
    Valid b' ∧ (Event.write result).left b.view (client_Write result b) = b'.view := by
  unfold client_Write at hclient
  by_cases hsize : b.size > 0
  · rw [if_pos hsize] at hclient
    cases result with
    | wrote more =>
      obtain rfl := Option.some.inj hclient
      refine ⟨valid_pop h _, ?_⟩
      rw [view_pop h (min_le_right _ _)]
      change b.view.drop (more + 1) = _
      rcases le_total (more + 1) b.size with hle | hle
      · rw [min_eq_left hle]
      · have hlength := length_view h
        rw [min_eq_right hle, List.drop_eq_nil_of_le (by omega), List.drop_eq_nil_of_le hlength.le]
    | zero => exact nomatch hclient
    | eagain =>
      obtain rfl := Option.some.inj hclient
      exact ⟨h, rfl⟩
    | error => exact nomatch hclient
  · rw [if_neg hsize] at hclient
    obtain rfl := Option.some.inj hclient
    refine ⟨h, ?_⟩
    have hnil : b.view = [] := by
      have hlength := length_view h
      exact List.length_eq_zero_iff.mp (by omega)
    cases result with
    | wrote more =>
      rw [hnil]
      exact List.drop_nil
    | zero => rfl
    | eagain => rfl
    | error => rfl

theorem client_Worker_left {worker : Worker} {b' : IOBuffer}
    (hclient : (client_Worker worker b).client = some b') : (worker b).2 = b' := by
  unfold client_Worker Outcome.client at hclient
  cases hstatus : (worker b).1 <;> rw [hstatus] at hclient
  all_goals first | exact Option.some.inj hclient | exact nomatch hclient

/-- After a good event the buffer of a client that is still there holds what waits. -/
theorem Event.left_eq (h : Valid b) {e : Event} (he : e.Sound) (hgood : e.Good c b)
    {b' : IOBuffer} (hclient : (e.step c b).client = some b') :
    Valid b' ∧ e.left b.view (e.step c b) = b'.view := by
  cases e with
  | write result =>
    exact client_Write_left h result hclient
  | read result mm worker =>
    obtain ⟨hmm, hworker⟩ := he
    change (client_Read c mm worker result b).client = some b' at hclient
    by_cases hprovided : Provided mm b
    · cases result with
      | bytes first rest =>
        obtain ⟨b1, hvalid, hview, heq⟩ :=
          @client_Read_bytes c mm worker b hmm h hprovided first rest
        change _ ∧ (Event.read (.bytes first rest) mm worker).left b.view
          (client_Read c mm worker (.bytes first rest) b) = _
        rw [heq] at hclient ⊢
        unfold afterRead at hclient ⊢
        by_cases hlarge : b1.size > c.conf_maxRequestSize
        · rw [if_pos hlarge] at hclient
          exact nomatch hclient
        · rw [if_neg hlarge] at hclient ⊢
          obtain rfl := client_Worker_left hclient
          exact ⟨hworker b1 hvalid, rfl⟩
      | eof =>
        rw [client_Read_eof hmm h hprovided] at hclient
        exact nomatch hclient
      | eagain => exact absurd hprovided hgood
      | error =>
        obtain ⟨status, heq⟩ : ∃ status, client_Read c mm worker .error b = .disconnected status :=
          (@conforms_iff c b h (.read .error mm worker) ⟨hmm, hworker⟩).mpr hgood hprovided
        rw [heq] at hclient
        exact nomatch hclient
    · rw [client_Read_refused hprovided] at hclient
      exact nomatch hclient

/-- In a history each event does what it may, just if each is good. -/
theorem faithful_iff (hb : Valid b) {es : List Event} (hes : ∀ e ∈ es, e.Sound) :
    Faithful c b.view (some b) es ↔ AllGood c (some b) es := by
  induction es generalizing b with
  | nil => exact Iff.rfl
  | cons e es ih =>
    obtain ⟨he, hmore⟩ := List.forall_mem_cons.mp hes
    have hstep := @Event.conforms_iff c b hb e he
    unfold Faithful AllGood
    rw [hstep]
    refine and_congr_right fun hgood => ?_
    cases hclient : (e.step c b).client with
    | none => simp only [Faithful, AllGood]
    | some b' =>
      obtain ⟨hvalid, hleft⟩ := Event.left_eq hb he hgood hclient
      rw [hleft]
      exact ih hvalid hmore

end Histories

/-- A memory manager with small blocks. -/
def plenty : MemoryManager := fun n => if n ≤ 8192 then some (List.replicate n 0) else none

/-- A worker that waits for more. -/
def waiting : Worker := fun b => (.pass, b)

theorem sound_waiting (r : ReadResult) : (Event.read r plenty waiting).Sound := by
  refine ⟨fun n block hblock => ?_, fun b hb => hb⟩
  unfold plenty at hblock
  split at hblock
  · obtain rfl := Option.some.inj hblock
    rw [List.length_replicate]
    omega
  · exact nomatch hblock

/-- One octet is read, and the worker is called with it. -/
theorem faithful_iff_octet : Faithful ⟨65536, true⟩ [] (some IOBuffer.clear)
    [.read (.bytes 42 []) plenty waiting] := by
  refine (faithful_iff valid_clear (List.forall_mem_singleton.mpr (sound_waiting _))).mpr
    ⟨trivial, ?_⟩
  cases ((Event.read (.bytes 42 []) plenty waiting).step ⟨65536, true⟩ IOBuffer.clear).client with
  | none => exact trivial
  | some b => exact trivial

/-- Where nothing has come yet, the worker is called without the octet that waits. -/
theorem not_faithful : ¬Faithful ⟨65536, true⟩ [42] (some ⟨0, [42], 1⟩)
    [.read .eagain plenty waiting] := by
  have hvalid : Valid ⟨0, [42], 1⟩ := ⟨.inl rfl, le_rfl, by decide⟩
  have hprovided : Provided plenty ⟨0, [42], 1⟩ :=
    show ((IOBuffer.mk 0 [42] 1).provideBufferAtLeast plenty
      IOBuffer.STANDARD_READ_SIZE).2.1.isSome = true by decide +kernel
  intro hfaithful
  exact (Event.conforms_iff hvalid (sound_waiting _)).mp hfaithful.1 hprovided

end HM4.AsyncLoop
