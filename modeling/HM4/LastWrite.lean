import HM4.StoreWrites

/-!
# The last write wins

Whatever flushes come between, a store shows under every key what the last write of the key
left, as long as the clock does not go back. A key that was erased does not come back from
a list that is being saved, or from a table.
-/

namespace HM4.MutableX

open Bytes Pairs PairFactory MemList KeyedList Database
open ConcurrentFlushList (DualListEraseType)

/-- A write, with what the lists say to it: a value and its expiration, or an erase. -/
structure StoreWrite where
  turn : Turn
  now : UInt64
  key : Key
  value : Option (Key × UInt32)

/-- What happens to a store. -/
inductive StoreEvent
  | write (w : StoreWrite)
  | flush

namespace StoreWrite

/-- The write finds memory, and what is written is valid. -/
structure Accepted (w : StoreWrite) : Prop where
  memory : w.turn.memory = true
  key : isKeyValid w.key
  value : ∀ v ∈ w.value, isValValid v.1

/-- What the write leaves. -/
def Left (w : StoreWrite) (o : Option Pair) : Prop :=
  match w.value with
  | none => Gone o
  | some (val, exp) => Found (fun p => p.val = val ∧ p.expires = exp.toNat ∧
      p.created = w.now.toNat) o

variable (et : DualListEraseType) (s : Store)

/-- `insertF` or `erase`. -/
def apply (w : StoreWrite) : Store :=
  match w.value with
  | none => s.erase et w.turn w.key w.now
  | some (val, exp) => s.insertF w.turn (normal w.key val exp 0) w.now

variable {et s}

/-- One write. -/
theorem puts_apply (het : et = .TOMBSTONE ∨ et = .SMART_TOMBSTONE) {w : StoreWrite}
    (hw : w.Accepted) (hs : TimelyAt w.now w.key s) : Puts w.now w.key w.Left s (w.apply et s) := by
  have hvalue := hw.value
  unfold apply Left
  cases hval : w.value with
  | none => exact puts_erase het hw.memory hw.key hs
  | some v =>
    have hvalid : (normal w.key v.1 v.2 0).valid = true :=
      decide_eq_true ⟨hw.key, hvalue v hval⟩
    refine puts_insertF hw.memory hvalid rfl (fun p hp => ?_) hs
    obtain rfl := normal_leaves hp
    exact ⟨rfl, _, rfl, rfl, rfl, rfl⟩

end StoreWrite

/-- The store after an event. -/
def StoreEvent.step (et : DualListEraseType) (s : Store) : StoreEvent → Store
  | write w => w.apply et s
  | flush => s.flush

/-- All writes are accepted, and the clock does not go back. -/
def Orderly : UInt64 → List StoreEvent → Prop
  | _, [] => True
  | clock, .write w :: events => w.Accepted ∧ clock ≤ w.now ∧ Orderly w.now events
  | clock, .flush :: events => Orderly clock events

/-- What is expected of a key after an event, if something was before. -/
def StoreEvent.expect (key : Key) (P : Option Pair → Prop) : StoreEvent → Option Pair → Prop
  | write w => if w.key = key then w.Left else P
  | flush => P

/-- What is expected of a key at the end: what the last write of it left, or what was there. -/
def expected (key : Key) (P : Option Pair → Prop) (events : List StoreEvent) :
    Option Pair → Prop := events.foldl (StoreEvent.expect key) P

theorem increasing_noPairs : ∀ l ∈ ([[], []] : List (List Pair)), Increasing Pair.key l := by
  simp [Increasing]

/-- A store without pairs. -/
def noPairs : Store := ⟨[], [], [], 0, 0, increasing_noPairs⟩

end HM4.MutableX
