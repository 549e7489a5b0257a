import HM4.ConcurrentFlushList
import HM4.TableBuilderCalls

/-!
# Flushes that could not be written

The flusher builds the table and says that it did; what the system calls report is
looked at by nobody, from the writer up to the flush list, which clears the list at
the next flush. So a list is safe exactly if no call fails.
-/

namespace HM4.FlushOutcomes

open Bytes Pairs PairFactory FileCalls FileWriterCalls TableBuilder Compaction ArenaList
open ConcurrentFlushList (Stack Event DualListEraseType Config Good run getPair smallConfig)

/-- What the flusher works with: the write buffers, the clock, and the hash index for a
list of some size, if there is memory for one. -/
structure FlushConf where
  /-- `buffersWrite.data`. -/
  dataBuffer : Option ℕ
  /-- `buffersWrite.indx`. -/
  indxBuffer : Option ℕ
  /-- `buffersWrite.line`. -/
  lineBuffer : Option ℕ
  /-- `mytime::now32`. -/
  now : UInt32
  /-- The hash index for a list of some size. -/
  hash : Option (ℕ → HashConf)
  /-- `Pair::isOK` at the time of the writing. -/
  isOK : Pair → Bool
  /-- `tombstoneOptions_`. -/
  tombstoneOptions : TombstoneOptions

/-- What the builder is given for a list. -/
def FlushConf.buildConf (c : FlushConf) (list : MemList) : BuildConf where
  dataBuffer := c.dataBuffer
  indxBuffer := c.indxBuffer
  lineBuffer := c.lineBuffer
  fileWriteOptions := .ALIGNED
  now := c.now
  hash := c.hash.map fun conf => conf list.list.lc.size

/-- The pairs of the table. -/
def FlushConf.kept (c : FlushConf) (list : MemList) : List Pair :=
  copy c.isOK c.tombstoneOptions list.pairs

/-- `DiskFileFlush::operator()`, which drops what `build` returns. -/
def diskFileFlush (c : FlushConf) (o : Outcomes FileName) (list : MemList) : Bool × Calls :=
  if list.empty then (false, [])
  else (true, build o (c.buildConf list) c.isOK c.tombstoneOptions list.pairs)

/-- `flushlist_impl_::save`, which drops what the flusher returns. -/
def save (c : FlushConf) (o : Outcomes FileName) (list : MemList) : Calls :=
  (diskFileFlush c o list).2

/-- `ConcurrentFlushList::flush`: what it returns, the lists, and the calls of the thread that
saves the second list. -/
def flush (c : FlushConf) (o : Outcomes FileName) (found : List ConcurrentFlushList.Table)
    (s : Stack) : Option (Bool × Stack × Calls) :=
  if s.list1.empty then some (true, s, [])
  else do
    let s' ← ConcurrentFlushList.flush found s
    return (true, s', save c o s'.list2)

/-- The files hold all that the builders of a list had to write. -/
def Done (c : FlushConf) (o : Outcomes FileName) (list : MemList) (calls : Calls) : Prop :=
  ∀ f, (replay o calls).files f = wanted (c.buildConf list) (c.kept list) f

/-- Each key reads the pair or a newer one. -/
def Readable (pairs : List Pair) (s : Stack) : Prop :=
  ∀ p ∈ pairs, ∃ q, getPair s p.key = some (some q) ∧ p.created ≤ q.created

/-- A flush of the first list, if it is not empty, that could not be written is not treated
as done. -/
structure NotLost (et : DualListEraseType) (c : FlushConf) (o : Outcomes FileName)
    (s : Stack) : Prop where
  /-- If a following flush clears the list, its files hold everything. -/
  cleared : s.list1.empty = false → ∀ found b s' calls, flush c o found s = some (b, s', calls) →
    ∀ events s'', run et s' events = some s'' → s''.list2 = s'.list2 → s''.list1.empty = false →
      ∀ c' o' found' r, flush c' o' found' s'' = some r → Done c o s.list1 calls
  /-- If the files do not hold everything, the flush says so and the pairs stay. -/
  reported : s.list1.empty = false → ∀ found b s' calls, flush c o found s = some (b, s', calls) →
    ¬Done c o s.list1 calls → b = false ∧ Readable s.list1.pairs s'

variable {et : DualListEraseType} {c : FlushConf} {o : Outcomes FileName} {s : Stack}
  {m1 m2 : List Pair}

/-- A flush of a list that is not empty always succeeds, and saves this list. -/
theorem exists_flush (hg : Good s m1 m2) (hne : s.list1.empty = false)
    (found : List ConcurrentFlushList.Table) :
    ∃ s', flush c o found s = some (true, s', save c o s.list1) := by
  have hm : m1 ≠ [] := fun h => by
    rw [hg.shows1.empty_iff.mpr h] at hne
    exact Bool.false_ne_true hne.symm
  obtain ⟨s', e, -⟩ := hg.held.flush hm found
  have hlist : s'.list2 = s.list1 := by
    unfold ConcurrentFlushList.flush at e
    rw [hne, if_neg Bool.false_ne_true] at e
    split at e
    · rw [← Option.some.inj e]
    · obtain ⟨l, _, hl⟩ := Option.bind_eq_some_iff.mp e
      rw [← Option.some.inj hl]
  refine ⟨s', ?_⟩
  unfold flush
  rw [hne, if_neg Bool.false_ne_true, e, ← hlist]
  rfl

/-- A flush that is done saves the first list and returns true. -/
theorem of_flush (hg : Good s m1 m2) (hne : s.list1.empty = false)
    {found : List ConcurrentFlushList.Table} {b : Bool} {s' : Stack} {calls : Calls}
    (h : flush c o found s = some (b, s', calls)) :
    b = true ∧ calls = save c o s.list1 := by
  obtain ⟨t, e⟩ := exists_flush (c := c) (o := o) hg hne found
  rw [e, Option.some_inj, Prod.mk.injEq, Prod.mk.injEq] at h
  exact ⟨h.1.symm, h.2.2.symm⟩

theorem done_save_iff (hne : s.list1.empty = false) :
    Done c o s.list1 (save c o s.list1) ↔
      AllComplete o (c.buildConf s.list1) (c.kept s.list1) := by
  have hsave : save c o s.list1 =
      build o (c.buildConf s.list1) c.isOK c.tombstoneOptions s.list1.pairs := by
    unfold save diskFileFlush
    rw [hne, if_neg Bool.false_ne_true]
  unfold Done
  rw [hsave]
  exact files_build_iff o (c.buildConf s.list1) c.isOK c.tombstoneOptions s.list1.pairs

/-- In good lists nothing is lost exactly if no call fails. -/
theorem good_notLost_iff (hg : Good s m1 m2) :
    NotLost et c o s ↔
      (s.list1.empty = false → AllComplete o (c.buildConf s.list1) (c.kept s.list1)) := by
  constructor
  · intro h hne
    obtain ⟨s', e⟩ := exists_flush (c := c) (o := o) hg hne []
    rw [← done_save_iff hne]
    by_contra hdone
    exact Bool.false_ne_true (h.reported hne [] true s' _ e hdone).1.symm
  · intro h
    have hdone : s.list1.empty = false → ∀ found b s' calls,
        flush c o found s = some (b, s', calls) → Done c o s.list1 calls := by
      intro hne found b s' calls e
      rw [(of_flush hg hne e).2, done_save_iff hne]
      exact h hne
    constructor
    · intro hne found b s' calls e _ _ _ _ _ _ _ _ _ _
      exact hdone hne found b s' calls e
    · intro hne found b s' calls e hnot
      exact absurd (hdone hne found b s' calls e) hnot

/-- In every state that is reached, a flush that could not be written is not treated as done
exactly if there is no such flush: if every file that the flush creates opens and every write
is complete. -/
theorem notLost_iff (et : DualListEraseType) (config : Config) (events : List Event)
    (c : FlushConf) (o : Outcomes FileName) :
    ∃ s, run et config.start events = some s ∧
      (NotLost et c o s ↔
        (s.list1.empty = false → AllComplete o (c.buildConf s.list1) (c.kept s.list1))) := by
  obtain ⟨s, m1, m2, e, hg⟩ := (ConcurrentFlushList.good_start config).exists_run et events
  exact ⟨s, e, good_notLost_iff hg⟩

/-- No file can be opened. -/
def failing : Outcomes FileName := ⟨fun _ => false, fun _ _ => .failed⟩

/-- A flush without buffers and without a hash index. -/
def plainConf : FlushConf := ⟨none, none, none, 0, none, fun _ => true, .keep⟩

/-- The list after one key was written. -/
theorem exists_written : ∃ s m, run .TOMBSTONE smallConfig.start [.insert (tombstone [97] 0) 1 []] =
    some s ∧ Good s m [] ∧ s.list1.empty = false := by
  have hg := ConcurrentFlushList.good_start smallConfig
  have hk : isKeyValid [97] := by decide
  have hv : (tombstone [97] 0).valid = true := decide_eq_true hk
  have hpred : ConcurrentFlushList.predicate smallConfig.start.list1 (tombstone [97] 0).bytes =
      false := decide_eq_false (by decide)
  have hfits := ConcurrentFlushList.fits_of_predicate hpred
  obtain ⟨r, l, m, e, hplain, hl, ha⟩ := hg.shows1.insertF (tombstone [97] 0) 1
  rw [hfits] at hplain
  obtain ⟨hstatus, p, hp, _⟩ := @ConcurrentFlushList.plainInsert_tombstone [97] hk 1 true [] rfl
  rw [hplain] at hstatus hp
  refine ⟨{ smallConfig.start with list1 := l }, m, ?_, hg.with1 hl ha, ?_⟩
  · rw [ConcurrentFlushList.run, List.foldlM_cons, ConcurrentFlushList.step,
      ConcurrentFlushList.insertF, dif_pos hv, hpred, if_neg Bool.false_ne_true, e]
    simp only [Option.bind_eq_bind, Option.bind_some, if_pos hstatus, Option.pure_def,
      Option.map_some, List.foldlM_nil]
  · rw [Bool.eq_false_iff]
    intro he
    rw [hl.empty_iff.mp he] at hp
    exact Option.some_ne_none _ hp.symm

/-- When no file opens, the flush returns true and its files hold nothing. -/
theorem flush_lost : ¬ ∀ (et : DualListEraseType) (config : Config) (events : List Event)
    (c : FlushConf) (o : Outcomes FileName) (s : Stack),
    run et config.start events = some s → NotLost et c o s := by
  intro h
  obtain ⟨s, m, e, hg, hne⟩ := exists_written
  have hall := (good_notLost_iff hg).mp
    (h .TOMBSTONE smallConfig _ plainConf failing s e) hne
  exact Bool.false_ne_true (hall .indx (List.mem_append_left _ (by decide))).1

end HM4.FlushOutcomes
