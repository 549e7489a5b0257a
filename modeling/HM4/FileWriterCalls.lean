import HM4.FileWriter
import HM4.General.FileCalls

/-!
# The calls of the buffered file writer

`FileWriterFD` opens a file, collects what is written and hands it to `::write`.
It looks at the file descriptor only: without one it does nothing, with one it
ignores how its calls end. Its calls are those of the writer for which every call
is complete, so what they hand over, and what waits, is everything written.
-/

namespace HM4.FileWriterCalls

open Bytes FileWriter FileCalls

/-- The files of a table. -/
inductive FileName where
  /-- `filenameMetaTemp`. -/
  | metaTemp
  /-- `filenameMeta_string_view`, the final name. -/
  | metaFile
  /-- `filenameIndx`. -/
  | indx
  /-- `filenameLine`. -/
  | line
  /-- `filenameData`. -/
  | data
  /-- `filenameHash`. -/
  | hash
  deriving DecidableEq

/-- A system call on the files of a table. -/
abbrev SysCall := Call FileName Byte

/-- `FileWriterFD`. -/
structure Writer where
  /-- The file that `fd_` was opened for. -/
  file : FileName
  /-- `fd_` is not negative. -/
  isOpen : Bool
  /-- The size of the buffer, if one was given. -/
  buffer : Option ℕ
  /-- The octets that wait in the buffer, `pos_` of them. -/
  waiting : Key

namespace Writer

/-- The constructor. -/
def create (o : Outcomes FileName) (file : FileName) (buffer : Option ℕ) :
    Writer × List SysCall :=
  (⟨file, o.opens file, buffer, []⟩, [.create file])

/-- `FileWriterFD::flush`. -/
def flush (w : Writer) : Writer × List SysCall :=
  if 0 < w.waiting.length then ({ w with waiting := [] }, [.write w.file w.waiting]) else (w, [])

/-- The loop of `FileWriterFD::write` for a buffer of `size` octets. -/
def writeLoop (size : ℕ) (w : Writer) (data : Key) : Writer × List SysCall :=
  if data = [] then (w, [])
  else if size - w.waiting.length = 0 then
    -- as in the writer without outcomes, a buffer is never full and empty at once
    if w.waiting = [] then (w, [])
    else
      let r := writeLoop size w.flush.1 data
      (r.1, w.flush.2 ++ r.2)
  else
    writeLoop size
      { w with waiting := w.waiting ++ data.take (min (size - w.waiting.length) data.length) }
      (data.drop (min (size - w.waiting.length) data.length))
termination_by (data.length, w.waiting.length)
decreasing_by
  · rename_i hstuck
    have hpos : 0 < w.waiting.length := List.length_pos_iff.mpr hstuck
    rw [flush, if_pos hpos]
    exact Prod.Lex.right _ hpos
  · rename_i hdata _
    have hpos : 0 < data.length := List.length_pos_iff.mpr hdata
    rw [List.length_drop]
    exact Prod.Lex.left _ _ (by omega)

/-- `FileWriterFD::write`. -/
def write (w : Writer) (data : Key) : Writer × List SysCall :=
  if w.isOpen = false then (w, [])
  else
    match w.buffer with
    | none => (w, [.write w.file data])
    | some size =>
      if size < data.length then (w.flush.1, w.flush.2 ++ [.write w.file data])
      else writeLoop size w data

/-- `FileWriterFD::put`. -/
def put (w : Writer) (c : Byte) : Writer × List SysCall := w.write [c]

/-- `FileWriterFD::close`, and the calls of the destructor. -/
def close (w : Writer) : List SysCall :=
  if w.isOpen = false then [] else w.flush.2 ++ [.close w.file]

/-- Writes one after another. -/
def writeAll (w : Writer) : List Key → Writer × List SysCall
  | [] => (w, [])
  | data :: rest =>
    let r := w.write data
    let r' := r.1.writeAll rest
    (r'.1, r.2 ++ r'.2)

/-! ### The writer for which every call is complete -/

/-- The writer with everything that it has handed over so far. -/
def handed (w : Writer) (given : Key) : FileWriterFD := ⟨w.buffer, w.waiting, given⟩

@[simp] theorem handed_waiting (w : Writer) (given : Key) :
    (w.handed given).waiting = w.waiting := rfl

@[simp] theorem handed_buffer (w : Writer) (given : Key) :
    (w.handed given).buffer = w.buffer := rfl

theorem buffer_flush (w : Writer) : w.flush.1.buffer = w.buffer := by
  unfold flush
  split <;> rfl

/-- The calls hand over some pieces, as the other writer does. -/
structure Simulates (w : Writer) (r : Writer × List SysCall)
    (f : FileWriterFD → FileWriterFD) (cs : List Key) : Prop where
  /-- The calls write the pieces. -/
  calls : r.2 = cs.map (Call.write w.file)
  /-- No piece is empty. -/
  nonempty : ∀ c ∈ cs, c ≠ []
  /-- The other writer hands over the same. -/
  same : ∀ given, f (w.handed given) = r.1.handed (given ++ cs.flatten)
  /-- The file stays. -/
  file : r.1.file = w.file
  /-- The descriptor stays. -/
  isOpen : r.1.isOpen = w.isOpen

theorem simulates_flush (w : Writer) :
    ∃ cs, Simulates w w.flush FileWriterFD.flush cs := by
  unfold flush
  by_cases h : 0 < w.waiting.length
  · rw [if_pos h]
    refine ⟨[w.waiting], rfl, ?_, ?_, rfl, rfl⟩
    · intro c hc
      rw [List.mem_singleton.mp hc]
      exact List.length_pos_iff.mp h
    · intro given
      unfold FileWriterFD.flush handed
      dsimp only
      rw [if_pos h, List.flatten_singleton]
  · rw [if_neg h]
    refine ⟨[], rfl, fun c hc => absurd hc List.not_mem_nil, ?_, rfl, rfl⟩
    intro given
    unfold FileWriterFD.flush handed
    dsimp only
    rw [if_neg h, List.flatten_nil, List.append_nil]

/-- Steps one after another. -/
theorem Simulates.comp {w : Writer} {r r' : Writer × List SysCall}
    {f g : FileWriterFD → FileWriterFD} {cs cs' : List Key} (h : Simulates w r f cs)
    (h' : Simulates r.1 r' g cs') :
    Simulates w (r'.1, r.2 ++ r'.2) (g ∘ f) (cs ++ cs') where
  calls := by rw [h.calls, h'.calls, h.file, List.map_append]
  nonempty c hc := (List.mem_append.mp hc).elim (h.nonempty c) (h'.nonempty c)
  same given := by
    rw [Function.comp_apply, h.same, h'.same, List.flatten_append, List.append_assoc]
  file := h'.file.trans h.file
  isOpen := h'.isOpen.trans h.isOpen

theorem simulates_writeLoop (size : ℕ) (w : Writer) (data : Key) :
    ∃ cs, Simulates w (writeLoop size w data) (FileWriterFD.writeLoop size · data) cs := by
  induction w, data using writeLoop.induct size with
  | case1 w =>
    refine ⟨[], ?_, fun c hc => absurd hc List.not_mem_nil, fun given => ?_, ?_, ?_⟩
    · rw [writeLoop, if_pos rfl]
      rfl
    · rw [FileWriterFD.writeLoop, if_pos rfl, writeLoop, if_pos rfl, List.flatten_nil,
        List.append_nil]
    · rw [writeLoop, if_pos rfl]
    · rw [writeLoop, if_pos rfl]
  | case2 w data hdata hspace hstuck =>
    have hloop : writeLoop size w data = (w, []) := by
      rw [writeLoop, if_neg hdata, if_pos hspace, if_pos hstuck]
    rw [hloop]
    refine ⟨[], rfl, fun c hc => absurd hc List.not_mem_nil, fun given => ?_, rfl, rfl⟩
    rw [FileWriterFD.writeLoop, handed_waiting, if_neg hdata, if_pos hspace, if_pos hstuck,
      List.flatten_nil, List.append_nil]
  | case3 w data hdata hspace hstuck ih =>
    obtain ⟨cs, hflush⟩ := simulates_flush w
    obtain ⟨cs', hrest⟩ := ih
    have hloop : writeLoop size w data =
        ((writeLoop size w.flush.1 data).1, w.flush.2 ++ (writeLoop size w.flush.1 data).2) := by
      rw [writeLoop, if_neg hdata, if_pos hspace, if_neg hstuck]
    have hcomp := hflush.comp hrest
    rw [hloop]
    refine ⟨cs ++ cs', hcomp.calls, hcomp.nonempty, fun given => ?_, hcomp.file, hcomp.isOpen⟩
    rw [← hcomp.same, FileWriterFD.writeLoop, handed_waiting, if_neg hdata, if_pos hspace,
      if_neg hstuck]
    rfl
  | case4 w data hdata hspace ih =>
    obtain ⟨cs, hrest⟩ := ih
    have hloop : writeLoop size w data = writeLoop size
        { w with waiting := w.waiting ++ data.take (min (size - w.waiting.length) data.length) }
        (data.drop (min (size - w.waiting.length) data.length)) := by
      rw [writeLoop, if_neg hdata, if_neg hspace]
    rw [hloop]
    refine ⟨cs, hrest.calls, hrest.nonempty, fun given => ?_, hrest.file, hrest.isOpen⟩
    rw [← hrest.same, FileWriterFD.writeLoop, handed_waiting, if_neg hdata, if_neg hspace]
    rfl

/-- With a descriptor a write is a write of the other writer. -/
theorem simulates_write {w : Writer} (hopen : w.isOpen = true) {data : Key} (hdata : data ≠ []) :
    ∃ cs, Simulates w (w.write data) (FileWriterFD.write · data) cs := by
  have hone : ∀ c ∈ [data], c ≠ [] := fun c hc => by
    rw [List.mem_singleton.mp hc]
    exact hdata
  unfold write
  rw [hopen, if_neg Bool.false_ne_true.symm]
  cases hb : w.buffer with
  | none =>
    refine ⟨[data], rfl, hone, fun given => ?_, rfl, rfl⟩
    unfold FileWriterFD.write handed
    dsimp only
    rw [hb, List.flatten_singleton]
  | some size =>
    dsimp only
    by_cases hlt : size < data.length
    · obtain ⟨cs, hflush⟩ := simulates_flush w
      rw [if_pos hlt]
      refine ⟨cs ++ [data], ?_, ?_, fun given => ?_, hflush.file, hflush.isOpen⟩
      · rw [hflush.calls, List.map_append]
        rfl
      · intro c hc
        exact (List.mem_append.mp hc).elim (hflush.nonempty c) (hone c)
      · unfold FileWriterFD.write
        rw [handed_buffer, hb]
        dsimp only
        rw [if_pos hlt, hflush.same given, List.flatten_append, List.flatten_singleton,
          ← List.append_assoc]
        unfold handed
        dsimp only
        rw [buffer_flush, hb]
    · obtain ⟨cs, hloop⟩ := simulates_writeLoop size w data
      rw [if_neg hlt]
      refine ⟨cs, hloop.calls, hloop.nonempty, fun given => ?_, hloop.file, hloop.isOpen⟩
      rw [← hloop.same]
      unfold FileWriterFD.write
      rw [handed_buffer, hb]
      dsimp only
      rw [if_neg hlt]

/-! ### What a writer adds -/

/-- A writer without a buffer has nothing waiting. -/
def WellFormed (w : Writer) : Prop := w.buffer = none → w.waiting = []

/-- Some data goes to the writer: its calls write pieces, and with a descriptor the
pieces and what waits are everything so far. -/
structure Adds (w : Writer) (r : Writer × List SysCall) (cs : List Key) (data : Key) : Prop where
  /-- The calls write the pieces. -/
  calls : r.2 = cs.map (Call.write w.file)
  /-- No piece is empty. -/
  nonempty : ∀ c ∈ cs, c ≠ []
  /-- The file stays. -/
  file : r.1.file = w.file
  /-- The descriptor stays. -/
  isOpen : r.1.isOpen = w.isOpen
  /-- Without a descriptor there are no calls. -/
  silent : w.isOpen = false → cs = []
  /-- With a descriptor nothing is lost. -/
  bytes : w.isOpen = true → cs.flatten ++ r.1.waiting = w.waiting ++ data
  /-- What the buffer promises stays. -/
  wellFormed : r.1.WellFormed

theorem adds_nothing {w : Writer} (hw : w.WellFormed) : Adds w (w, []) [] [] where
  calls := rfl
  nonempty _ hc := absurd hc List.not_mem_nil
  file := rfl
  isOpen := rfl
  silent _ := rfl
  bytes _ := (List.append_nil _).symm
  wellFormed := hw

/-- Data after data. -/
theorem Adds.comp {w : Writer} {r r' : Writer × List SysCall} {cs cs' : List Key} {a b : Key}
    (h : Adds w r cs a) (h' : Adds r.1 r' cs' b) :
    Adds w (r'.1, r.2 ++ r'.2) (cs ++ cs') (a ++ b) where
  calls := by rw [h.calls, h'.calls, h.file, List.map_append]
  nonempty c hc := (List.mem_append.mp hc).elim (h.nonempty c) (h'.nonempty c)
  file := h'.file.trans h.file
  isOpen := h'.isOpen.trans h.isOpen
  silent hw := by rw [h.silent hw, h'.silent (h.isOpen.trans hw), List.append_nil]
  bytes hw := by
    have hfst := h.bytes hw
    have hsnd := h'.bytes (h.isOpen.trans hw)
    rw [List.flatten_append, List.append_assoc, hsnd, ← List.append_assoc, hfst,
      List.append_assoc]
  wellFormed := h'.wellFormed

/-- A write adds its data. -/
theorem write_adds {w : Writer} (hw : w.WellFormed) {data : Key} (hdata : data ≠ []) :
    ∃ cs, Adds w (w.write data) cs data := by
  cases ho : w.isOpen with
  | false =>
    have hwrite : w.write data = (w, []) := if_pos ho
    rw [hwrite]
    refine ⟨[], rfl, fun c hc => absurd hc List.not_mem_nil, rfl, rfl, fun _ => rfl, ?_, hw⟩
    intro h
    rw [ho] at h
    exact absurd h Bool.false_ne_true
  | true =>
    obtain ⟨cs, h⟩ := simulates_write ho hdata
    obtain ⟨hcontent, hwf⟩ := FileWriterFD.write_spec (w := w.handed []) hw data
    have hsame := h.same []
    rw [List.nil_append] at hsame
    rw [hsame] at hcontent hwf
    refine ⟨cs, h.calls, h.nonempty, h.file, h.isOpen, fun hf => ?_, fun _ => hcontent, hwf⟩
    rw [ho] at hf
    exact absurd hf.symm Bool.false_ne_true

/-- Writes one after another add their data. -/
theorem writeAll_adds {w : Writer} (hw : w.WellFormed) {datas : List Key}
    (hdatas : ∀ data ∈ datas, data ≠ []) : ∃ cs, Adds w (w.writeAll datas) cs datas.flatten := by
  induction datas generalizing w with
  | nil => exact ⟨[], adds_nothing hw⟩
  | cons data datas ih =>
    obtain ⟨hdata, hdatas⟩ := List.forall_mem_cons.mp hdatas
    obtain ⟨cs, h⟩ := write_adds hw hdata
    obtain ⟨cs', h'⟩ := ih h.wellFormed hdatas
    exact ⟨cs ++ cs', h.comp h'⟩

/-- From opening to closing the calls are a session that hands over all data. -/
theorem session_of_adds {o : Outcomes FileName} {f : FileName} {buffer : Option ℕ}
    {r : Writer × List SysCall} {cs : List Key} {data : Key}
    (h : Adds (create o f buffer).1 r cs data) :
    ∃ cs', (create o f buffer).2 ++ r.2 ++ r.1.close = session o f cs' ∧
      (∀ c ∈ cs', c ≠ []) ∧ (o.opens f = true → cs'.flatten = data) := by
  by_cases ho : o.opens f = true
  · have hopen : r.1.isOpen = true := h.isOpen.trans ho
    obtain ⟨cs', hflush⟩ := simulates_flush r.1
    have hclose : r.1.close = cs'.map (Call.write f) ++ [Call.close f] := by
      unfold close
      rw [hopen, if_neg Bool.false_ne_true.symm, hflush.calls, h.file]
      rfl
    have hwaiting : cs'.flatten = r.1.waiting := by
      have hfile := FileWriterFD.close_eq_content (r.1.handed [])
      unfold FileWriterFD.close at hfile
      rw [hflush.same []] at hfile
      exact hfile
    have hbytes : cs.flatten ++ r.1.waiting = data := h.bytes ho
    refine ⟨cs ++ cs', ?_, ?_, fun _ => ?_⟩
    · unfold session
      rw [if_pos ho, h.calls, hclose, List.map_append, List.append_assoc, List.append_assoc]
      rfl
    · intro c hc
      exact (List.mem_append.mp hc).elim (h.nonempty c) (hflush.nonempty c)
    · rw [List.flatten_append, hwaiting, hbytes]
  · have hclosed : o.opens f = false := Bool.eq_false_iff.mpr ho
    have hclose : r.1.close = [] := by
      unfold close
      rw [h.isOpen.trans hclosed, if_pos rfl]
    refine ⟨[], ?_, fun c hc => absurd hc List.not_mem_nil, fun hf => absurd hf ho⟩
    unfold session
    rw [if_neg ho, h.calls, hclose, h.silent hclosed]
    rfl

end Writer

end HM4.FileWriterCalls
