import HM4.PairFactory
import HM4.General.KeyedList

/-!
# What the lists in memory share

A list takes its memory from an allocator, of which nothing is known but that it
hands out an address or refuses, answers which addresses it owns and may be reset as
a whole. Every list counts its pairs and their octets. A pair of the same key is
kept, changed in place or replaced; a plain map does the same to its entries.
-/

namespace HM4.MemList

open Bytes Pairs PairFactory KeyedList

/-- An allocator with its state. -/
structure Allocator (σ : Type*) where
  /-- `xallocate`: an address, or nothing. -/
  xallocate : ℕ → σ → Option ℕ × σ
  /-- `xdeallocate`. -/
  xdeallocate : ℕ → σ → σ
  /-- `owns`. -/
  owns : ℕ → σ → Bool
  /-- `reset`: whether it was done. -/
  reset : σ → Bool × σ

/-- `ListCounter`: what memory holds bounds both numbers from above; `wrapped` tells
that one of them has gone below zero. -/
structure ListCounter where
  /-- The number of pairs. -/
  size : ℕ
  /-- The sum of their sizes. -/
  bytes : ℕ
  /-- A number went below zero. -/
  wrapped : Bool
  deriving DecidableEq

namespace ListCounter

/-- `ListCounter::clr`. -/
def clr (lc : ListCounter) : ListCounter := { lc with size := 0, bytes := 0 }

/-- `ListCounter::inc`. -/
def inc (lc : ListCounter) (s : ℕ) : ListCounter :=
  { lc with size := lc.size + 1, bytes := lc.bytes + s }

/-- `ListCounter::dec`. -/
def dec (lc : ListCounter) (s : ℕ) : ListCounter where
  size := lc.size - 1
  bytes := lc.bytes - s
  wrapped := lc.wrapped || lc.size < 1 || lc.bytes < s

/-- `ListCounter::upd`: the number of pairs stays. -/
def upd (lc : ListCounter) (so sn : ℕ) : ListCounter where
  size := lc.size
  bytes := lc.bytes - so + sn
  wrapped := lc.wrapped || lc.bytes < so

/-- The counter of an empty list. -/
def zero : ListCounter := ⟨0, 0, false⟩

end ListCounter

/-- The octets of some pairs. -/
def bytesOf (pairs : List Pair) : ℕ := (pairs.map Pair.bytes).sum

/-- The counter tells the number of the pairs and of their octets, and no number
has gone below zero. -/
def Counts (lc : ListCounter) (pairs : List Pair) : Prop :=
  lc = ⟨pairs.length, bytesOf pairs, false⟩

theorem bytesOf_append (l1 l2 : List Pair) : bytesOf (l1 ++ l2) = bytesOf l1 + bytesOf l2 := by
  rw [bytesOf, List.map_append, List.sum_append]
  rfl

theorem bytesOf_cons (p : Pair) (l : List Pair) : bytesOf (p :: l) = p.bytes + bytesOf l := rfl

theorem counts_zero : Counts ListCounter.zero [] := rfl

theorem Counts.clr {lc : ListCounter} {pairs : List Pair} (h : Counts lc pairs) :
    Counts lc.clr [] := by
  rw [h]
  rfl

/-- A pair more. -/
theorem Counts.inc {lc : ListCounter} {l1 l2 : List Pair} (h : Counts lc (l1 ++ l2)) {p : Pair}
    {s : ℕ} (hs : p.bytes = s) : Counts (lc.inc s) (l1 ++ p :: l2) := by
  unfold Counts at h ⊢
  rw [h, ListCounter.inc]
  simp only [List.length_append, List.length_cons, bytesOf_append, bytesOf_cons,
    ListCounter.mk.injEq, and_true]
  omega

/-- A pair less. -/
theorem Counts.dec {lc : ListCounter} {l1 l2 : List Pair} {p : Pair}
    (h : Counts lc (l1 ++ p :: l2)) {s : ℕ} (hs : p.bytes = s) :
    Counts (lc.dec s) (l1 ++ l2) := by
  unfold Counts at h ⊢
  rw [h, ListCounter.dec]
  simp only [List.length_append, List.length_cons, bytesOf_append, bytesOf_cons,
    ListCounter.mk.injEq, Bool.false_or, Bool.or_eq_false_iff, decide_eq_false_iff_not]
  omega

/-- A pair changed. -/
theorem Counts.upd {lc : ListCounter} {l1 l2 : List Pair} {p q : Pair}
    (h : Counts lc (l1 ++ p :: l2)) {so sn : ℕ} (hso : p.bytes = so) (hsn : q.bytes = sn) :
    Counts (lc.upd so sn) (l1 ++ q :: l2) := by
  unfold Counts at h ⊢
  rw [h, ListCounter.upd]
  simp only [List.length_append, List.length_cons, bytesOf_append, bytesOf_cons,
    ListCounter.mk.injEq, Bool.false_or, decide_eq_false_iff_not, true_and]
  omega

/-- `InsertResult::Status`. -/
inductive Status where
  | INSERTED
  | DELETED
  | UPDATED_IN_PLACE
  | REPLACED
  | SKIP_INSERTED
  | SKIP_DELETED
  | ERROR_NO_MEMORY
  | ERROR_INVALID
  | ERROR
  deriving DecidableEq

/-- `InsertResult`, with the pair it points to. -/
structure InsertResult where
  /-- The status, from which `ok` follows. -/
  status : Status
  /-- The pair that was written. -/
  pair : Option Pair
  deriving DecidableEq

/-- `InsertResult::ok`. -/
def InsertResult.ok (r : InsertResult) : Bool :=
  match r.status with
  | .SKIP_DELETED | .ERROR_NO_MEMORY | .ERROR_INVALID | .ERROR => false
  | _ => true

/-- `tryUpdateInPlaceLC`: the changed pair and the counter, if the pair lies in the
allocator's memory and is large enough. -/
def tryUpdateInPlaceLC {σ : Type*} (allocator : Allocator σ) (s : σ) (addr : ℕ) (pair : Pair)
    (factory : Factory) (h : factory.valid = true) (now : UInt64) (lc : ListCounter) :
    Option (Pair × ListCounter) :=
  if allocator.owns addr s = true ∧ factory.bytes ≤ pair.bytes then
    some (factory.createHint h now pair,
      lc.upd pair.bytes (factory.createHint h now pair).bytes)
  else none

/-! ## The plain map -/

/-- The pair of a key in a list that is ordered by keys. -/
abbrev get (key : Key) (m : List Pair) : Option Pair := lookup Pair.key key m

/-- What an insert does to a plain map. Whether the pair of the key lies where it may be
changed in place, and whether there is memory for a new one, is for the allocator to
say. -/
def plainInsert (factory : Factory) (now : UInt64) (owned memory : Bool) (m : List Pair) :
    InsertResult × List Pair :=
  if h : factory.valid = true then
    match get factory.getKey m with
    | none =>
      if memory then
        (⟨.INSERTED, some (factory.create h now)⟩, put Pair.key (factory.create h now) m)
      else (⟨.ERROR_NO_MEMORY, none⟩, m)
    | some old =>
      if ¬isValidForReplace factory.getCreated old then (⟨.SKIP_INSERTED, none⟩, m)
      else if owned = true ∧ factory.bytes ≤ old.bytes then
        (⟨.UPDATED_IN_PLACE, some (factory.createHint h now old)⟩,
          put Pair.key (factory.createHint h now old) m)
      else if memory then
        (⟨.REPLACED, some (factory.create h now)⟩, put Pair.key (factory.create h now) m)
      else (⟨.ERROR_NO_MEMORY, none⟩, m)
  else (⟨.ERROR_INVALID, none⟩, m)

/-- What an erase does to a plain map. -/
def plainErase (key : Key) (m : List Pair) : InsertResult × List Pair :=
  match get key m with
  | none => (⟨.SKIP_DELETED, none⟩, m)
  | some _ => (⟨.DELETED, none⟩, remove Pair.key key m)

/-- The operations on a list. -/
inductive Op where
  | insert (factory : Factory) (now : UInt64)
  | erase (key : Key)
  | clear

/-- What an allocator has to say to an operation: whether the pair lies in its memory, and
whether there is memory for a new one. Lists that make room before they look at the pair of
the key may be refused that. -/
structure Answer where
  /-- The pair lies in the allocator's memory. -/
  owned : Bool
  /-- There is memory for what the insert needs. -/
  memory : Bool
  /-- There was no room before the pair was looked at. -/
  refused : Bool

/-- One operation on a plain map; a clear has no result. -/
def plainStep (op : Op) (answer : Answer) (m : List Pair) : Option InsertResult × List Pair :=
  match op with
  | .insert factory now =>
    if factory.valid = true ∧ answer.refused = true then (some ⟨.ERROR_NO_MEMORY, none⟩, m)
    else
      let (r, m) := plainInsert factory now answer.owned answer.memory m
      (some r, m)
  | .erase key =>
    let (r, m) := plainErase key m
    (some r, m)
  | .clear => (none, [])

theorem plainInsert_invalid {factory : Factory} (h : ¬factory.valid = true) (now : UInt64)
    (owned memory : Bool) (m : List Pair) :
    plainInsert factory now owned memory m = (⟨.ERROR_INVALID, none⟩, m) := dif_neg h

section Insert

variable {factory : Factory} (h : factory.valid = true) (now : UInt64) (owned memory : Bool)
  {l1 l2 : List Pair} {old : Pair} (h1 : ∀ p ∈ l1, p.key < factory.getKey)
  (h2 : ∀ p ∈ l2, factory.getKey < p.key)

include h1 h2 in
/-- A key that is not there. -/
theorem plainInsert_new : plainInsert factory now owned memory (l1 ++ l2) =
    if memory then (⟨.INSERTED, some (factory.create h now)⟩, l1 ++ factory.create h now :: l2)
    else (⟨.ERROR_NO_MEMORY, none⟩, l1 ++ l2) := by
  have hget : get factory.getKey (l1 ++ l2) = none := by
    refine lookup_eq_none fun y hy => ?_
    rcases List.mem_append.mp hy with hy | hy
    · exact (h1 y hy).ne
    · exact (h2 y hy).ne'
  have hkey : (factory.create h now).key = factory.getKey := factory.create_key h now
  rw [plainInsert, dif_pos h, hget]
  dsimp only
  rw [put_new (hkey ▸ h1) (hkey ▸ h2)]

include h1 in
/-- A key that is there. -/
theorem plainInsert_old (hold : old.key = factory.getKey) :
    plainInsert factory now owned memory (l1 ++ old :: l2) =
      if ¬isValidForReplace factory.getCreated old then
        (⟨.SKIP_INSERTED, none⟩, l1 ++ old :: l2)
      else if owned = true ∧ factory.bytes ≤ old.bytes then
        (⟨.UPDATED_IN_PLACE, some (factory.createHint h now old)⟩,
          l1 ++ factory.createHint h now old :: l2)
      else if memory then
        (⟨.REPLACED, some (factory.create h now)⟩, l1 ++ factory.create h now :: l2)
      else (⟨.ERROR_NO_MEMORY, none⟩, l1 ++ old :: l2) := by
  have hget : get factory.getKey (l1 ++ old :: l2) = some old := lookup_at h1 hold
  have hkey : (factory.create h now).key = factory.getKey := factory.create_key h now
  have hhint : (factory.createHint h now old).key = factory.getKey :=
    factory.createHint_key h now old hold
  rw [plainInsert, dif_pos h, hget]
  dsimp only
  rw [put_same (hkey ▸ h1) (hold.trans hkey.symm), put_same (hhint ▸ h1) (hold.trans hhint.symm)]

end Insert

/-- An erase of a key that is not there. -/
theorem plainErase_absent {key : Key} {m : List Pair} (h : ∀ p ∈ m, p.key ≠ key) :
    plainErase key m = (⟨.SKIP_DELETED, none⟩, m) := by
  have hget : get key m = none := lookup_eq_none h
  rw [plainErase, hget]

/-- An erase of a key that is there. -/
theorem plainErase_old {key : Key} {l1 l2 : List Pair} {old : Pair} (h1 : ∀ p ∈ l1, p.key < key)
    (hold : old.key = key) :
    plainErase key (l1 ++ old :: l2) = (⟨.DELETED, none⟩, l1 ++ l2) := by
  have hget : get key (l1 ++ old :: l2) = some old := lookup_at h1 hold
  rw [plainErase, hget]
  dsimp only
  rw [remove_at h1 hold]

theorem increasing_plainInsert {m : List Pair} (hm : Increasing Pair.key m) (factory : Factory)
    (now : UInt64) (owned memory : Bool) :
    Increasing Pair.key (plainInsert factory now owned memory m).2 := by
  unfold plainInsert
  split
  · split
    · split
      · exact hm.put
      · exact hm
    · split_ifs
      all_goals first | exact hm.put | exact hm
  · exact hm

theorem increasing_plainErase {m : List Pair} (hm : Increasing Pair.key m) (key : Key) :
    Increasing Pair.key (plainErase key m).2 := by
  unfold plainErase
  split
  · exact hm
  · exact hm.remove

/-- An operation without success leaves the plain map as it is. -/
theorem plainStep_unchanged {op : Op} {answer : Answer} {m m' : List Pair} {r : InsertResult}
    (h : plainStep op answer m = (some r, m')) (hok : r.ok = false) : m' = m := by
  have hdone : ∀ {x : InsertResult × List Pair}, (some x.1, x.2) = (some r, m') →
      (x.1.ok = false → x.2 = m) → m' = m := by
    rintro x hx hkeep
    simp only [Prod.mk.injEq, Option.some.injEq] at hx
    rw [← hx.2]
    exact hkeep (hx.1 ▸ hok)
  cases op with
  | insert factory now =>
    rw [plainStep] at h
    split at h
    · exact hdone (x := (_, m)) h fun _ => rfl
    · refine hdone (x := plainInsert factory now answer.owned answer.memory m) h ?_
      unfold plainInsert
      repeat' split
      all_goals simp [InsertResult.ok]
  | erase key =>
    refine hdone (x := plainErase key m) h ?_
    unfold plainErase
    split
    all_goals simp [InsertResult.ok]
  | clear => simp [plainStep] at h

/-! ## A list beside a plain map -/

/-- A list and a plain map go through the same operations with the same results, the map
with answers that the list's allocator would give. -/
inductive Together {S : Type*} (step : Op → S → Option (Option InsertResult × S))
    (answers : S → Op → Answer → Prop) : S → List Pair → List Op → S → List Pair → Prop
  | nil (s : S) (m : List Pair) : Together step answers s m [] s m
  | cons {s s1 s2 : S} {m m1 m2 : List Pair} {op : Op} {ops : List Op} {r : Option InsertResult}
      (answer : Answer) (hanswer : answers s op answer) (hlist : step op s = some (r, s1))
      (hplain : plainStep op answer m = (r, m1)) (hrest : Together step answers s1 m1 ops s2 m2) :
      Together step answers s m (op :: ops) s2 m2

/-- A relation that operations of some kind keep is kept by every run of these. -/
theorem Together.exists_of_steps {S : Type*} {step : Op → S → Option (Option InsertResult × S)}
    {answers : S → Op → Answer → Prop} {rel : S → List Pair → Prop} {P : Op → Prop}
    (hstep : ∀ op s m, P op → rel s m → ∃ r s' m' answer, answers s op answer ∧
      step op s = some (r, s') ∧ plainStep op answer m = (r, m') ∧ rel s' m')
    {ops : List Op} (hops : ∀ op ∈ ops, P op) {s : S} {m : List Pair} (h : rel s m) :
    ∃ s' m', Together step answers s m ops s' m' ∧ rel s' m' := by
  induction ops generalizing s m with
  | nil => exact ⟨s, m, .nil s m, h⟩
  | cons op ops ih =>
    obtain ⟨hop, hrest⟩ := List.forall_mem_cons.mp hops
    obtain ⟨r, s1, m1, answer, hanswer, hlist, hplain, h1⟩ := hstep op s m hop h
    obtain ⟨s2, m2, hgo, h2⟩ := ih hrest h1
    exact ⟨s2, m2, .cons answer hanswer hlist hplain hgo, h2⟩

/-- A relation that every operation keeps is kept by every run. -/
theorem Together.exists_of_step {S : Type*} {step : Op → S → Option (Option InsertResult × S)}
    {answers : S → Op → Answer → Prop} {rel : S → List Pair → Prop}
    (hstep : ∀ op s m, rel s m → ∃ r s' m' answer, answers s op answer ∧
      step op s = some (r, s') ∧ plainStep op answer m = (r, m') ∧ rel s' m')
    (ops : List Op) {s : S} {m : List Pair} (h : rel s m) :
    ∃ s' m', Together step answers s m ops s' m' ∧ rel s' m' :=
  exists_of_steps (P := fun _ => True) (fun op s m _ => hstep op s m) (fun _ _ => trivial) h

end HM4.MemList
