import HM4.Bytes

/-!
# The buffered file writer

`FileWriterFD` collects what is written in a buffer that its owner lends it and
hands full buffers to the system. Without a buffer, or for a write that the
buffer could never hold, it goes to the system directly. Whatever the sizes, the
file and the waiting octets together are everything written so far, in order.
-/

namespace HM4.FileWriter

open Bytes

/-- The writer's buffer and what went to the file. The system takes every write whole. -/
structure FileWriterFD where
  /-- The size of the buffer, if one was given. -/
  buffer : Option ℕ
  /-- The octets that wait in the buffer, `pos_` of them. -/
  waiting : Key
  /-- What the system has been given. -/
  file : Key

namespace FileWriterFD

/-- An opened file, truncated. -/
def create (buffer : Option ℕ) : FileWriterFD := ⟨buffer, [], []⟩

/-- `FileWriterFD::flush`. -/
def flush (w : FileWriterFD) : FileWriterFD :=
  if 0 < w.waiting.length then ⟨w.buffer, [], w.file ++ w.waiting⟩ else w

/-- The loop of `FileWriterFD::write` for a buffer of `size` octets. -/
def writeLoop (size : ℕ) (w : FileWriterFD) (data : Key) : FileWriterFD :=
  if data = [] then w
  else if size - w.waiting.length = 0 then
    -- the loop never meets a buffer that is full and empty at once: `write` sends such
    -- data to the system
    if w.waiting = [] then w else writeLoop size w.flush data
  else
    writeLoop size
      ⟨w.buffer, w.waiting ++ data.take (min (size - w.waiting.length) data.length), w.file⟩
      (data.drop (min (size - w.waiting.length) data.length))
termination_by (data.length, w.waiting.length)
decreasing_by
  · rename_i hstuck
    have hpos : 0 < w.waiting.length := List.length_pos_iff.mpr hstuck
    rw [flush, if_pos hpos]
    exact Prod.Lex.right _ hpos
  · rename_i hdata _
    have hpos : 0 < data.length := List.length_pos_iff.mpr hdata
    rw [List.length_drop]
    exact Prod.Lex.left _ _ (by omega)

/-- `FileWriterFD::write`. -/
def write (w : FileWriterFD) (data : Key) : FileWriterFD :=
  match w.buffer with
  | none => ⟨w.buffer, w.waiting, w.file ++ data⟩
  | some size =>
    if size < data.length then ⟨w.buffer, w.flush.waiting, w.flush.file ++ data⟩
    else writeLoop size w data

/-- `FileWriterFD::put`. -/
def put (w : FileWriterFD) (c : Byte) : FileWriterFD := w.write [c]

/-- `FileWriterFD::close`, and the file that is left. -/
def close (w : FileWriterFD) : Key := w.flush.file

/-- Everything written so far. -/
def content (w : FileWriterFD) : Key := w.file ++ w.waiting

/-- A writer without a buffer has nothing waiting. -/
def WellFormed (w : FileWriterFD) : Prop := w.buffer = none → w.waiting = []

theorem wellFormed_create (buffer : Option ℕ) : (create buffer).WellFormed := fun _ => rfl

theorem waiting_flush (w : FileWriterFD) : w.flush.waiting = [] := by
  unfold flush
  split
  · rfl
  · next h => exact List.length_eq_zero_iff.mp (by omega)

theorem content_flush (w : FileWriterFD) : w.flush.content = w.content := by
  unfold flush
  split
  · exact List.append_nil _
  · rfl

theorem buffer_flush (w : FileWriterFD) : w.flush.buffer = w.buffer := by
  unfold flush
  split <;> rfl

theorem close_eq_content (w : FileWriterFD) : w.close = w.content := by
  rw [← content_flush w, content, waiting_flush, List.append_nil, close]

/-- The loop adds its data, if the buffer can hold any. -/
theorem content_writeLoop {size : ℕ} (w : FileWriterFD) (data : Key)
    (hsize : data ≠ [] → 0 < size) :
    (writeLoop size w data).content = w.content ++ data ∧
      (writeLoop size w data).buffer = w.buffer := by
  induction w, data using writeLoop.induct size with
  | case1 w =>
    rw [writeLoop, if_pos rfl, List.append_nil]
    exact ⟨rfl, rfl⟩
  | case2 w data hdata hspace hstuck =>
    have hpos := hsize hdata
    rw [hstuck, List.length_nil] at hspace
    omega
  | case3 w data hdata hspace hstuck ih =>
    have hih := ih hsize
    rw [content_flush, buffer_flush] at hih
    rw [writeLoop, if_neg hdata, if_pos hspace, if_neg hstuck]
    exact hih
  | case4 w data hdata hspace ih =>
    have hih := ih fun _ => hsize hdata
    rw [writeLoop, if_neg hdata, if_neg hspace]
    refine ⟨?_, hih.2⟩
    rw [hih.1, content, content, List.append_assoc, List.append_assoc, List.append_assoc,
      List.take_append_drop]

/-- A write adds its data, whatever the buffer. -/
theorem write_spec {w : FileWriterFD} (hw : w.WellFormed) (data : Key) :
    (w.write data).content = w.content ++ data ∧ (w.write data).WellFormed := by
  unfold write
  cases hb : w.buffer with
  | none =>
    dsimp only
    have hnil := hw hb
    refine ⟨?_, fun _ => hnil⟩
    rw [content, content, hnil, List.append_nil, List.append_nil]
  | some size =>
    dsimp only
    by_cases hlt : size < data.length
    · rw [if_pos hlt]
      refine ⟨?_, fun h => absurd h (Option.some_ne_none size)⟩
      rw [← content_flush w, content, content, waiting_flush, List.append_nil, List.append_nil]
    · have hsize : data ≠ [] → 0 < size := by
        intro hne
        have hpos := List.length_pos_iff.mpr hne
        omega
      obtain ⟨hc, hbuf⟩ := content_writeLoop w data hsize
      rw [if_neg hlt]
      refine ⟨hc, fun h => ?_⟩
      rw [hbuf, hb] at h
      exact absurd h (Option.some_ne_none size)

end FileWriterFD

end HM4.FileWriter
