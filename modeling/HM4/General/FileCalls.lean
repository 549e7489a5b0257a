import Mathlib.Data.List.Basic
import Mathlib.Logic.Function.Basic
import Mathlib.Order.Lattice
import Mathlib.Order.MinMax

/-!
# Programs that write files

A program is seen as the list of system calls that it makes. What the calls leave
on disk depends on their outcomes: a file may not open, a write may take nothing
or only the beginning of what it was given. A file that is opened once and then
only written holds what the calls gave it exactly if all of them were complete.
-/

namespace HM4.FileCalls

variable {N : Type*} [DecidableEq N] {α : Type*}

/-- How a call of `write` ends. -/
inductive Outcome where
  /-- Nothing was written. -/
  | failed
  /-- Some of the data was written, but not all. -/
  | short (n : ℕ)
  /-- All was written. -/
  | complete
  deriving DecidableEq

/-- The number of octets that a call of some size writes. -/
def Outcome.taken : Outcome → ℕ → ℕ
  | .failed, _ => 0
  | .short n, size => min n (size - 1)
  | .complete, size => size

/-- The outcomes of all calls: whether a file opens, and how each write on it ends. -/
structure Outcomes (N : Type*) where
  /-- Whether the file can be opened. -/
  opens : N → Bool
  /-- The outcome of each write, counted for the file. -/
  writes : N → ℕ → Outcome

/-- Every call does what it is asked to. -/
def Outcomes.perfect : Outcomes N := ⟨fun _ => true, fun _ _ => .complete⟩

/-- A system call. -/
inductive Call (N : Type*) (α : Type*) where
  /-- Open for writing, create or truncate. -/
  | create (f : N)
  /-- Write behind what was written. -/
  | write (f : N) (data : List α)
  /-- Fill the file through a mapping. -/
  | store (f : N) (data : List α)
  /-- Close the file. -/
  | close (f : N)
  /-- Give a file another name, over a file that has it. -/
  | rename (src dst : N)

/-- The files, and the number of writes on each. -/
structure Disk (N : Type*) (α : Type*) where
  /-- The content of each file that exists. -/
  files : N → Option (List α)
  /-- The writes so far. -/
  written : N → ℕ

/-- The disk without a file. -/
def Disk.none : Disk N α := ⟨fun _ => Option.none, fun _ => 0⟩

/-- What one call does. -/
def Call.run (o : Outcomes N) (d : Disk N α) : Call N α → Disk N α
  | .create f =>
    if o.opens f then { d with files := Function.update d.files f (some []) } else d
  | .write f data =>
    ⟨Function.update d.files f ((d.files f).map
        (· ++ data.take ((o.writes f (d.written f)).taken data.length))),
      Function.update d.written f (d.written f + 1)⟩
  | .store f data => { d with files := Function.update d.files f ((d.files f).map fun _ => data) }
  | .close _ => d
  | .rename src dst =>
    match d.files src with
    | Option.none => d
    | some data =>
      { d with files := Function.update (Function.update d.files src Option.none) dst (some data) }

/-- What a list of calls leaves on a disk. -/
def runAll (o : Outcomes N) (d : Disk N α) (t : List (Call N α)) : Disk N α :=
  t.foldl (Call.run o) d

/-- What a list of calls leaves on an empty disk. -/
def replay (o : Outcomes N) (t : List (Call N α)) : Disk N α := runAll o Disk.none t

/-- A call that has to do with a file. -/
def Call.names (f : N) : Call N α → Bool
  | .create g => g == f
  | .write g _ => g == f
  | .store g _ => g == f
  | .close g => g == f
  | .rename src dst => src == f || dst == f

/-- A call that gives a file another name. -/
def Call.renames : Call N α → Bool
  | .rename _ _ => true
  | _ => false

/-- The calls that have to do with a file. -/
def onFile (f : N) (t : List (Call N α)) : List (Call N α) := t.filter (Call.names f)

theorem onFile_append (f : N) (t u : List (Call N α)) :
    onFile f (t ++ u) = onFile f t ++ onFile f u :=
  List.filter_append t u

theorem onFile_eq_self {f : N} {t : List (Call N α)} (h : ∀ c ∈ t, c.names f = true) :
    onFile f t = t :=
  List.filter_eq_self.mpr h

theorem onFile_eq_nil {f : N} {t : List (Call N α)} (h : ∀ c ∈ t, c.names f = false) :
    onFile f t = [] :=
  List.filter_eq_nil_iff.mpr fun c hc => by rw [h c hc]; exact Bool.false_ne_true

/-- A write. -/
def Call.isWrite : Call N α → Bool
  | .write _ _ => true
  | _ => false

/-- The number of writes on a file. -/
def writesOn (f : N) (t : List (Call N α)) : ℕ := (onFile f t).countP Call.isWrite

/-- Two disks agree on a file. -/
def Agree (f : N) (d e : Disk N α) : Prop := d.files f = e.files f ∧ d.written f = e.written f

/-- Calls that have nothing to do with a file leave it alone. -/
theorem agree_run_of_not_names (o : Outcomes N) (d : Disk N α) {f : N} {c : Call N α}
    (h : c.names f = false) : Agree f (c.run o d) d := by
  cases c with
  | create g =>
    have hne : f ≠ g := (ne_of_beq_false h).symm
    unfold Call.run
    dsimp only
    split
    · exact ⟨Function.update_of_ne hne _ _, rfl⟩
    · exact ⟨rfl, rfl⟩
  | write g data =>
    have hne : f ≠ g := (ne_of_beq_false h).symm
    exact ⟨Function.update_of_ne hne _ _, Function.update_of_ne hne _ _⟩
  | store g data =>
    have hne : f ≠ g := (ne_of_beq_false h).symm
    exact ⟨Function.update_of_ne hne _ _, rfl⟩
  | close g => exact ⟨rfl, rfl⟩
  | rename src dst =>
    have hor : (src == f) = false ∧ (dst == f) = false := Bool.or_eq_false_iff.mp h
    have hsrc : f ≠ src := (ne_of_beq_false hor.1).symm
    have hdst : f ≠ dst := (ne_of_beq_false hor.2).symm
    unfold Call.run
    dsimp only
    split
    · exact ⟨rfl, rfl⟩
    · refine ⟨?_, rfl⟩
      dsimp only
      rw [Function.update_of_ne hdst, Function.update_of_ne hsrc]

/-- A call does the same to a file on disks that agree on it. -/
theorem agree_run (o : Outcomes N) {d e : Disk N α} {f : N} (h : Agree f d e) {c : Call N α}
    (hc : c.renames = false) : Agree f (c.run o d) (c.run o e) := by
  cases hf : c.names f with
  | false =>
    have hd := agree_run_of_not_names o d hf
    have he := agree_run_of_not_names o e hf
    exact ⟨hd.1.trans (h.1.trans he.1.symm), hd.2.trans (h.2.trans he.2.symm)⟩
  | true =>
    cases c with
    | create g =>
      obtain rfl : g = f := eq_of_beq hf
      unfold Call.run
      dsimp only
      split
      · refine ⟨?_, h.2⟩
        dsimp only
        rw [Function.update_self, Function.update_self]
      · exact h
    | write g data =>
      obtain rfl : g = f := eq_of_beq hf
      unfold Call.run
      refine ⟨?_, ?_⟩
      · dsimp only
        rw [Function.update_self, Function.update_self, h.1, h.2]
      · dsimp only
        rw [Function.update_self, Function.update_self, h.2]
    | store g data =>
      obtain rfl : g = f := eq_of_beq hf
      unfold Call.run
      refine ⟨?_, h.2⟩
      dsimp only
      rw [Function.update_self, Function.update_self, h.1]
    | close g => exact h
    | rename src dst => exact absurd hc.symm Bool.false_ne_true

/-- A file depends on its own calls only. -/
theorem agree_onFile (o : Outcomes N) {f : N} {t : List (Call N α)}
    (ht : ∀ c ∈ t, c.renames = false) {d e : Disk N α} (h : Agree f d e) :
    Agree f (runAll o d t) (runAll o e (onFile f t)) := by
  induction t generalizing d e with
  | nil => exact h
  | cons c t ih =>
    obtain ⟨hc, ht⟩ := List.forall_mem_cons.mp ht
    unfold onFile
    rw [List.filter_cons]
    cases hf : c.names f with
    | true =>
      rw [if_pos rfl]
      exact ih ht (agree_run o h hc)
    | false =>
      have hd := agree_run_of_not_names o d hf
      rw [if_neg Bool.false_ne_true]
      exact ih ht ⟨hd.1.trans h.1, hd.2.trans h.2⟩

/-- What reaches a file from its writes, the first of which is the `k`-th. -/
def takenAll (w : ℕ → Outcome) : ℕ → List (List α) → List α
  | _, [] => []
  | k, c :: cs => c.take ((w k).taken c.length) ++ takenAll w (k + 1) cs

theorem taken_le (out : Outcome) (size : ℕ) : out.taken size ≤ size := by
  cases out with
  | failed => exact Nat.zero_le size
  | short n => exact (Nat.min_le_right n _).trans (Nat.sub_le size 1)
  | complete => exact le_rfl

/-- Only a complete write takes all of something. -/
theorem taken_eq_iff {out : Outcome} {size : ℕ} (h : 0 < size) :
    out.taken size = size ↔ out = .complete := by
  cases out with
  | failed => exact iff_of_false (fun e => absurd e h.ne) (fun e => by cases e)
  | short n =>
    have hlt : min n (size - 1) < size := by omega
    exact iff_of_false hlt.ne (fun e => by cases e)
  | complete => exact iff_of_true rfl rfl

theorem takenAll_length_le (w : ℕ → Outcome) (k : ℕ) (cs : List (List α)) :
    (takenAll w k cs).length ≤ cs.flatten.length := by
  induction cs generalizing k with
  | nil => exact le_rfl
  | cons c cs ih =>
    have hi := ih (k + 1)
    rw [takenAll, List.flatten_cons, List.length_append, List.length_append, List.length_take]
    omega

/-- The writes reach the file as a whole exactly if every one of them is complete. -/
theorem takenAll_eq_iff (w : ℕ → Outcome) (k : ℕ) {cs : List (List α)}
    (hne : ∀ c ∈ cs, c ≠ []) :
    takenAll w k cs = cs.flatten ↔ ∀ i < cs.length, w (k + i) = .complete := by
  induction cs generalizing k with
  | nil => exact iff_of_true rfl (fun i hi => absurd hi (Nat.not_lt_zero i))
  | cons c cs ih =>
    obtain ⟨hc, hne⟩ := List.forall_mem_cons.mp hne
    have hpos : 0 < c.length := List.length_pos_iff.mpr hc
    rw [takenAll, List.flatten_cons]
    constructor
    · intro he
      have hlen := congrArg List.length he
      have hrest := takenAll_length_le w (k + 1) cs
      have hle := taken_le (w k) c.length
      rw [List.length_append, List.length_append, List.length_take] at hlen
      have htaken : (w k).taken c.length = c.length := by omega
      rw [htaken, List.take_length] at he
      have htail := (ih (k + 1) hne).mp (List.append_cancel_left he)
      intro i hi
      cases i with
      | zero => exact (taken_eq_iff hpos).mp htaken
      | succ i =>
        have hs : k + (i + 1) = k + 1 + i := by omega
        rw [hs]
        exact htail i (Nat.lt_of_succ_lt_succ hi)
    · intro hall
      have hhead : w k = .complete := hall 0 (Nat.succ_pos _)
      have htail : ∀ i < cs.length, w (k + 1 + i) = .complete := fun i hi => by
        have hs : k + 1 + i = k + (i + 1) := by omega
        rw [hs]
        exact hall (i + 1) (Nat.succ_lt_succ hi)
      rw [hhead, (ih (k + 1) hne).mpr htail, Outcome.taken, List.take_length]

/-- A row of writes to one file. -/
theorem runAll_writes (o : Outcomes N) (f : N) (cs : List (List α)) (d : Disk N α) :
    (runAll o d (cs.map (Call.write f))).files f =
      (d.files f).map (· ++ takenAll (o.writes f) (d.written f) cs) := by
  unfold runAll
  induction cs generalizing d with
  | nil =>
    have hid : (fun x : List α => x ++ takenAll (o.writes f) (d.written f) []) = id :=
      funext List.append_nil
    rw [hid, Option.map_id]
    rfl
  | cons c cs ih =>
    rw [List.map_cons, List.foldl_cons, ih]
    unfold Call.run
    dsimp only
    rw [Function.update_self, Function.update_self, Option.map_map]
    refine congrArg (fun g => Option.map g (d.files f)) (funext fun x => ?_)
    exact List.append_assoc _ _ _

/-- The calls on one file: it is opened, and if this succeeds, written and closed. -/
def session (o : Outcomes N) (f : N) (cs : List (List α)) : List (Call N α) :=
  if o.opens f then Call.create f :: (cs.map (Call.write f) ++ [Call.close f])
  else [Call.create f]

theorem files_session (o : Outcomes N) (f : N) (cs : List (List α)) :
    (replay o (session o f cs)).files f =
      if o.opens f then some (takenAll (o.writes f) 0 cs) else Option.none := by
  unfold session replay
  by_cases h : o.opens f = true
  · have hd : Call.run o (Disk.none : Disk N α) (.create f) =
        ⟨Function.update (fun _ => Option.none) f (some []), fun _ => 0⟩ := by
      unfold Call.run
      dsimp only
      rw [if_pos h]
      rfl
    have hclose : ∀ d : Disk N α, runAll o d [Call.close f] = d := fun _ => rfl
    have happ : ∀ (d : Disk N α) (t u : List (Call N α)),
        runAll o d (t ++ u) = runAll o (runAll o d t) u := fun d t u => List.foldl_append
    have hcons : ∀ (d : Disk N α) (c : Call N α) (t : List (Call N α)),
        runAll o d (c :: t) = runAll o (c.run o d) t := fun _ _ _ => rfl
    rw [if_pos h, if_pos h, hcons, happ, hclose, hd, runAll_writes]
    dsimp only
    rw [Function.update_self]
    rfl
  · rw [if_neg h, if_neg h]
    unfold runAll
    rw [List.foldl_cons, List.foldl_nil]
    unfold Call.run
    dsimp only
    rw [if_neg h]
    rfl

/-- A file whose calls are a session. -/
theorem files_of_session (o : Outcomes N) {f : N} {t : List (Call N α)}
    (ht : ∀ c ∈ t, c.renames = false) {cs : List (List α)} (h : onFile f t = session o f cs) :
    (replay o t).files f =
      if o.opens f then some (takenAll (o.writes f) 0 cs) else Option.none := by
  have ha := agree_onFile o (f := f) ht (⟨rfl, rfl⟩ : Agree f Disk.none Disk.none)
  rw [h] at ha
  exact ha.1.trans (files_session o f cs)

omit [DecidableEq N] in
theorem countP_session (o : Outcomes N) {f : N} (h : o.opens f = true) (cs : List (List α)) :
    (session o f cs).countP Call.isWrite = cs.length := by
  have hall : (cs.map (Call.write f)).countP Call.isWrite = cs.length := by
    rw [List.countP_map]
    exact List.countP_eq_length.mpr fun _ _ => rfl
  unfold session
  rw [if_pos h, List.countP_cons_of_neg (by exact Bool.false_ne_true), List.countP_append, hall]
  rfl

/-- A file whose calls are a session holds what they hand over exactly if it opens and
every write on it is complete. -/
theorem files_eq_iff (o : Outcomes N) {f : N} {t : List (Call N α)}
    (ht : ∀ c ∈ t, c.renames = false) {cs : List (List α)} (h : onFile f t = session o f cs)
    (hne : ∀ c ∈ cs, c ≠ []) :
    (replay o t).files f = some cs.flatten ↔
      o.opens f = true ∧ ∀ i < writesOn f t, o.writes f i = .complete := by
  rw [files_of_session o ht h]
  by_cases ho : o.opens f = true
  · unfold writesOn
    rw [if_pos ho, h, countP_session o ho, Option.some_inj, takenAll_eq_iff _ 0 hne]
    simp only [Nat.zero_add, ho, true_and]
  · rw [if_neg ho]
    exact iff_of_false (Option.some_ne_none _).symm fun hc => ho hc.1

/-- A call that stores a file as a whole, or closes it. -/
def Call.stores (f : N) : Call N α → Prop
  | .store g _ => g = f
  | .close g => g = f
  | _ => False

omit [DecidableEq N] in
theorem not_isWrite_of_stores {f : N} {c : Call N α} (h : c.stores f) : c.isWrite = false := by
  cases c with
  | store g data => rfl
  | close g => rfl
  | create g => exact h.elim
  | write g data => exact h.elim
  | rename src dst => exact h.elim

/-- The content of a mapped file after some calls. -/
def lastStore (x : List α) (t : List (Call N α)) : List α :=
  t.foldl (fun x c => match c with
    | .store _ data => data
    | _ => x) x

omit [DecidableEq N] in
theorem lastStore_append (x : List α) (t u : List (Call N α)) :
    lastStore x (t ++ u) = lastStore (lastStore x t) u :=
  List.foldl_append

/-- A mapped file holds what was stored last. -/
theorem runAll_stores (o : Outcomes N) {f : N} {t : List (Call N α)}
    (ht : ∀ c ∈ t, c.stores f) (d : Disk N α) :
    (runAll o d t).files f = (d.files f).map (fun x => lastStore x t) := by
  induction t generalizing d with
  | nil => exact (congrFun Option.map_id (d.files f)).symm
  | cons c t ih =>
    obtain ⟨hc, ht⟩ := List.forall_mem_cons.mp ht
    have hrest : (runAll o d (c :: t)).files f =
        ((c.run o d).files f).map (fun x => lastStore x t) := ih ht (c.run o d)
    rw [hrest]
    cases c with
    | store g data =>
      obtain rfl : g = f := hc
      unfold Call.run
      dsimp only
      rw [Function.update_self, Option.map_map]
      rfl
    | close g => rfl
    | create g => exact hc.elim
    | write g data => exact hc.elim
    | rename src dst => exact hc.elim

/-- A file that no call has to do with does not exist. -/
theorem files_of_not_named (o : Outcomes N) {f : N} {t : List (Call N α)}
    (h : ∀ c ∈ t, c.names f = false) : (replay o t).files f = Option.none := by
  have hall : ∀ d : Disk N α, (runAll o d t).files f = d.files f := by
    unfold runAll
    induction t with
    | nil => exact fun _ => rfl
    | cons c t ih =>
      obtain ⟨hc, h⟩ := List.forall_mem_cons.mp h
      intro d
      rw [List.foldl_cons, ih h]
      exact (agree_run_of_not_names o d hc).1
  exact hall Disk.none

/-- A renaming as the last call, to a name that was free. -/
theorem replay_rename (o : Outcomes N) {t : List (Call N α)} {src dst : N}
    (hdst : (replay o t).files dst = Option.none) (f : N) :
    (replay o (t ++ [.rename src dst])).files f =
      if f = dst then (replay o t).files src
      else if f = src then Option.none
      else (replay o t).files f := by
  have hrun : replay o (t ++ [.rename src dst]) = Call.run o (replay o t) (.rename src dst) :=
    List.foldl_append
  rw [hrun]
  unfold Call.run
  dsimp only
  cases hs : (replay o t).files src with
  | none =>
    dsimp only
    by_cases hfd : f = dst
    · rw [if_pos hfd, hfd, hdst]
    · rw [if_neg hfd]
      by_cases hfs : f = src
      · rw [if_pos hfs, hfs, hs]
      · rw [if_neg hfs]
  | some data =>
    dsimp only
    by_cases hfd : f = dst
    · rw [if_pos hfd, hfd, Function.update_self]
    · rw [if_neg hfd, Function.update_of_ne hfd]
      by_cases hfs : f = src
      · rw [if_pos hfs, hfs, Function.update_self]
      · rw [if_neg hfs, Function.update_of_ne hfs]

end HM4.FileCalls
