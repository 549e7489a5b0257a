import HM4.Database

/-!
# Factories that run an action

The pair gets a value of a given size, with what the old pair held in front and zeros
behind, and the action of the factory changes this value. In place the old pair may be
the pair itself.
-/

namespace HM4.VFactory

open LexPrefix Bytes Pairs PairFactory MemList KeyedList

/-- `IFactoryAction::FILL`. -/
def FILL : Byte := 0

/-- `smart_memcpy` to so many octets. -/
def smartMemcpy (destSize : ℕ) (src : Key) : Key :=
  if src.length ≤ destSize then src ++ List.replicate (destSize - src.length) FILL
  else src.take destSize

theorem smartMemcpy_length (destSize : ℕ) (src : Key) :
    (smartMemcpy destSize src).length = destSize := by
  unfold smartMemcpy
  split
  · rw [List.length_append, List.length_replicate]
    omega
  · rw [List.length_take]
    omega

/-- `copyPair_`: what the value is before the action. -/
def copyPair (valSize : ℕ) : Option Pair → Key
  | none => List.replicate valSize FILL
  | some old => smartMemcpy valSize old.val

theorem copyPair_length (valSize : ℕ) (old : Option Pair) :
    (copyPair valSize old).length = valSize := by
  cases old with
  | none => exact List.length_replicate
  | some old => exact smartMemcpy_length valSize old.val

/-- An action keeps the size of the value. -/
structure Action where
  /-- `action`. -/
  run : Key → Key
  length_run : ∀ data, (run data).length = data.length

/-- The value after the action. -/
def Action.value (action : Action) (valSize : ℕ) (oldPair : Option Pair) : Key :=
  action.run (copyPair valSize oldPair)

theorem Action.value_length (action : Action) (valSize : ℕ) (oldPair : Option Pair) :
    (action.value valSize oldPair).length = valSize :=
  (action.length_run _).trans (copyPair_length valSize oldPair)

/-- A pair with another value and no expiration, written now. -/
def withValue (old : Pair) (val : Key) (now : UInt64) (hv : isValValid val) : Pair where
  key := old.key
  val := val
  expires := 0
  created := now.toNat
  keyValid := old.keyValid
  valValid := hv
  expires_lt := (0 : UInt32).toNat_lt
  created_lt := now.toNat_lt

theorem valValid_value {action : Action} {valSize : ℕ} (h : valSize ≤ maxValSize)
    (oldPair : Option Pair) : isValValid (action.value valSize oldPair) := by
  unfold isValValid
  rw [action.value_length]
  exact h

/-- `IFactoryAction<true, false, Child>`. -/
def iFactoryAction (action : Action) (key : Key) (valSize : ℕ) (oldPair : Option Pair) :
    Factory where
  getKey := key
  getCreated := 0
  bytes := sizeofPair + key.length + valSize
  valid := isKeyValid key ∧ valSize ≤ maxValSize
  create h now := full key (action.value valSize oldPair) 0 now (of_decide_eq_true h).1
    (valValid_value (of_decide_eq_true h).2 oldPair)
  createHint h now old := withValue old (action.value valSize oldPair) now
    (valValid_value (of_decide_eq_true h).2 oldPair)
  valid_key h := (of_decide_eq_true h).1
  create_key _ _ := rfl
  create_bytes _ _ := by
    unfold Pair.bytes full
    dsimp only
    rw [action.value_length]
  createHint_key _ _ _ hold := hold

theorem valValid_run {action : Action} {old : Pair} {valSize : ℕ} (h : valSize ≤ maxValSize)
    (hlen : old.val.length = valSize) : isValValid (action.run old.val) := by
  unfold isValValid
  rw [action.length_run, hlen]
  exact h

/-- `IFactoryAction<true, true, Child>`: in place, a pair that is alive and of the right size keeps
its own value until the action. -/
def iFactoryActionSame (action : Action) (key : Key) (valSize : ℕ) (oldPair : Option Pair) :
    Factory where
  getKey := key
  getCreated := 0
  bytes := sizeofPair + key.length + valSize
  valid := isKeyValid key ∧ valSize ≤ maxValSize
  create h now := full key (action.value valSize oldPair) 0 now (of_decide_eq_true h).1
    (valValid_value (of_decide_eq_true h).2 oldPair)
  createHint h now old :=
    if hsame : Database.isOK now old = true ∧ old.val.length = valSize then
      withValue old (action.run old.val) now (valValid_run (of_decide_eq_true h).2 hsame.2)
    else withValue old (action.value valSize oldPair) now
      (valValid_value (of_decide_eq_true h).2 oldPair)
  valid_key h := (of_decide_eq_true h).1
  create_key _ _ := rfl
  create_bytes _ _ := by
    unfold Pair.bytes full
    dsimp only
    rw [action.value_length]
  createHint_key _ _ old hold := by
    split <;> exact hold

section Insert

variable {action : Action} {key : Key} {valSize : ℕ} {oldPair : Option Pair}

/-- In place of a pair of the key the factory leaves what it would write. -/
theorem createHint_eq (h : (iFactoryAction action key valSize oldPair).valid = true) (now : UInt64)
    {old : Pair} (hold : old.key = key) :
    (iFactoryAction action key valSize oldPair).createHint h now old =
      (iFactoryAction action key valSize oldPair).create h now := by
  subst hold
  rfl

/-- The same, if the pair that is changed is the old one, or none was alive. -/
theorem createHintSame_eq (h : (iFactoryActionSame action key valSize oldPair).valid = true)
    (now : UInt64) {old : Pair} (hold : old.key = key)
    (hsame : Database.isOK now old = true → old.val.length = valSize → oldPair = some old) :
    (iFactoryActionSame action key valSize oldPair).createHint h now old =
      (iFactoryActionSame action key valSize oldPair).create h now := by
  subst hold
  unfold iFactoryActionSame
  dsimp only
  split
  · next hok =>
    have hcopy : copyPair valSize oldPair = old.val := by
      rw [hsame hok.1 hok.2, copyPair, smartMemcpy, if_pos hok.2.le, hok.2, Nat.sub_self,
        List.replicate_zero, List.append_nil]
    unfold withValue full Action.value
    simp only [hcopy]
    rfl
  · rfl

end Insert

end HM4.VFactory
