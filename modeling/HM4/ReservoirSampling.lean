import HM4.Bytes
import HM4.General.Draws
import Mathlib.Data.Rat.Cast.Order
import Mathlib.Tactic.FieldSimp

/-!
# Reservoir sampling

A reservoir has a count and a fixed number of slots. Items fill the slots first; each later item
draws a number up to the count and goes to the slot of this number, if there is one. Over all
draws every position of the stream is kept equally often, as long as the count does not wrap.
-/

namespace HM4.ReservoirSampling

open Bytes Draws

/-! ## The reservoir -/

/-- `isItemValid`. -/
def isItemValid (MaxItemSize : ℕ) (sv : Key) : Prop := 1 ≤ sv.length ∧ sv.length ≤ MaxItemSize

instance (MaxItemSize : ℕ) (sv : Key) : Decidable (isItemValid MaxItemSize sv) :=
  inferInstanceAs (Decidable (_ ∧ _))

/-- The items that the command does not refuse. -/
abbrev ValidItem (MaxItemSize : ℕ) : Type := {sv : Key // isItemValid MaxItemSize sv}

/-- `Item_`. -/
structure Item (MaxItemSize : ℕ) where
  size : ℕ
  item : List Byte
  length_item : item.length = MaxItemSize

namespace Item

variable {MaxItemSize : ℕ}

/-- `getItem`. -/
def getItem (i : Item MaxItemSize) : Key :=
  if i.size ≤ MaxItemSize then i.item.take i.size else []

/-- `setItem`; what is behind the item stays. -/
def setItem (i : Item MaxItemSize) (sv : ValidItem MaxItemSize) : Item MaxItemSize where
  size := sv.val.length
  item := sv.val ++ i.item.drop sv.val.length
  length_item := by
    have hle := sv.property.2
    rw [List.length_append, List.length_drop, i.length_item]
    omega

/-- An item of zeros. -/
def zero (MaxItemSize : ℕ) : Item MaxItemSize where
  size := 0
  item := List.replicate MaxItemSize 0
  length_item := List.length_replicate

theorem getItem_setItem (i : Item MaxItemSize) (sv : ValidItem MaxItemSize) :
    (i.setItem sv).getItem = sv.val := by
  have htake : (sv.val ++ i.item.drop sv.val.length).take sv.val.length = sv.val := List.take_left
  unfold getItem setItem
  rw [if_pos sv.property.2, htake]

end Item

/-- `Added`. -/
inductive Added
  | INIT
  | YES
  | NO
  deriving DecidableEq

/-- `chk`. -/
def Added.chk : Added → Bool
  | INIT | YES => true
  | NO => false

/-- `List`, with its `size` slots. -/
structure Reservoir (ι : Type*) (size : ℕ) where
  count : ℕ
  items : Fin size → ι

namespace Reservoir

variable {ι σ : Type*} {size : ℕ}

/-- `clear`, with the item of zeros. -/
def clear (size : ℕ) (zero : ι) : Reservoir ι size := ⟨0, fun _ => zero⟩

/-- `incrCount`. -/
def incrCount (rs : Reservoir ι size) : ℕ × Reservoir ι size :=
  (rs.count, { rs with count := (rs.count + 1) % 2 ^ 64 })

variable (setItem : ι → σ → ι)

/-- `put`. -/
def put (rs : Reservoir ι size) (pos : Fin size) (item : σ) : Reservoir ι size :=
  { rs with items := Function.update rs.items pos (setItem (rs.items pos) item) }

/-- `add`; `dis` is the number that is drawn between zero and a count. -/
def add (dis : ℕ → ℕ) (rs : Reservoir ι size) (item : σ) : Added × Reservoir ι size :=
  let count := rs.incrCount.1
  let rs := rs.incrCount.2
  if h : count < size then (.INIT, rs.put setItem ⟨count, h⟩ item)
  else if h : dis count < size then (.YES, rs.put setItem ⟨dis count, h⟩ item)
  else (.NO, rs)

/-- `get`. -/
def get {MaxItemSize : ℕ} (rs : Reservoir (Item MaxItemSize) size) (index : Fin size) : Key :=
  (rs.items index).getItem

/-- `RSADDFactory::action_`: whether an item was kept, and the reservoir. -/
def action (dis : ℕ → ℕ) (items : List σ) (rs : Reservoir ι size) : Bool × Reservoir ι size :=
  items.foldl
    (fun r item => (r.1 || (r.2.add setItem dis item).1.chk, (r.2.add setItem dis item).2))
    (false, rs)

end Reservoir

/-! ## Runs -/

open Reservoir

section Runs

variable {ι σ : Type*} {size : ℕ} (setItem : ι → σ → ι) (dis : ℕ → ℕ)

/-- The reservoir after some items. -/
def addAll (items : List σ) (rs : Reservoir ι size) : Reservoir ι size :=
  (rs.action setItem dis items).2

/-- One more item. -/
theorem addAll_concat (items : List σ) (item : σ) (rs : Reservoir ι size) :
    addAll setItem dis (items ++ [item]) rs =
      ((addAll setItem dis items rs).add setItem dis item).2 := by
  rw [addAll, action, List.foldl_append]
  rfl

/-- The slot that an item goes to. -/
def place (size : ℕ) (count : ℕ) : Option (Fin size) :=
  if h : count < size then some ⟨count, h⟩
  else if h : dis count < size then some ⟨dis count, h⟩ else none

/-- An item is put into its slot, if it has one. -/
theorem items_add (rs : Reservoir ι size) (item : σ) (slot : Fin size) :
    (rs.add setItem dis item).2.items slot =
      if place dis size rs.count = some slot then setItem (rs.items slot) item
      else rs.items slot := by
  have hput (pos : Fin size) : (rs.incrCount.2.put setItem pos item).items slot =
      if some pos = some slot then setItem (rs.items slot) item else rs.items slot := by
    have hupdate : (rs.incrCount.2.put setItem pos item).items slot =
        if slot = pos then setItem (rs.items pos) item else rs.items slot :=
      Function.update_apply rs.items pos (setItem (rs.items pos) item) slot
    rw [hupdate]
    by_cases heq : slot = pos
    · rw [if_pos heq, if_pos (congrArg some heq.symm), heq]
    · rw [if_neg heq, if_neg fun h => heq (Option.some.inj h).symm]
  unfold add place
  by_cases hfill : rs.count < size
  · have hfill' : rs.incrCount.1 < size := hfill
    simp only [dif_pos hfill', dif_pos hfill]
    exact hput ⟨rs.count, hfill⟩
  · have hfill' : ¬rs.incrCount.1 < size := hfill
    simp only [dif_neg hfill', dif_neg hfill]
    by_cases hdraw : dis rs.count < size
    · have hdraw' : dis rs.incrCount.1 < size := hdraw
      simp only [dif_pos hdraw', dif_pos hdraw]
      exact hput ⟨dis rs.count, hdraw⟩
    · have hdraw' : ¬dis rs.incrCount.1 < size := hdraw
      simp only [dif_neg hdraw', dif_neg hdraw]
      rfl

theorem count_add (rs : Reservoir ι size) (item : σ) :
    (rs.add setItem dis item).2.count = (rs.count + 1) % 2 ^ 64 := by
  unfold add
  dsimp only
  split
  · rfl
  · split <;> rfl

/-- The count goes round. -/
theorem count_addAll (items : List σ) (zero : ι) :
    (addAll setItem dis items (clear size zero)).count = items.length % 2 ^ 64 := by
  induction items using List.reverseRecOn with
  | nil => rfl
  | append_singleton items item ih =>
    rw [addAll_concat, count_add, ih, List.length_append, List.length_singleton]
    omega

/-- The positions of the stream that the slots hold after so many items. -/
def positions (size n : ℕ) : Fin size → Option ℕ :=
  (addAll (fun _ p => some p) dis (List.range n) (clear size none)).items

theorem positions_succ (n : ℕ) (slot : Fin size) : positions dis size (n + 1) slot =
    if place dis size (n % 2 ^ 64) = some slot then some n else positions dis size n slot := by
  rw [positions, List.range_succ, addAll_concat, items_add, count_addAll, List.length_range]
  rfl

/-- A slot that holds a position holds the item of this position. -/
theorem items_of_positions (stream : List σ) (zero : ι) {slot : Fin size} {p : ℕ}
    (hp : positions dis size stream.length slot = some p) :
    ∃ old item, stream[p]? = some item ∧
      (addAll setItem dis stream (clear size zero)).items slot = setItem old item := by
  induction stream using List.reverseRecOn with
  | nil => exact nomatch hp
  | append_singleton stream item ih =>
    rw [List.length_append, List.length_singleton, positions_succ] at hp
    rw [addAll_concat, items_add, count_addAll]
    split at hp
    · next hplace =>
      obtain rfl := Option.some.inj hp
      rw [if_pos hplace]
      exact ⟨_, item, List.getElem?_concat_length, rfl⟩
    · next hplace =>
      obtain ⟨old, item', hitem, hold⟩ := ih hp
      rw [if_neg hplace]
      have hlt := (List.getElem?_eq_some_iff.mp hitem).1
      exact ⟨old, item', by rw [List.getElem?_append_left hlt, hitem], hold⟩

end Runs

/-! ## What is held -/

section Held

variable {k : ℕ} (dis : ℕ → ℕ)

/-- The positions that are held after so many draws. -/
def held (k : ℕ) : ℕ → Fin k → ℕ
  | 0 => Fin.val
  | m + 1 =>
    if h : dis (k + m) < k then Function.update (held k m) ⟨dis (k + m), h⟩ (k + m) else held k m

theorem place_fill {n : ℕ} (h : n < k) : place dis k n = some ⟨n, h⟩ := dif_pos h

/-- The first items fill the slots. -/
theorem positions_fill {n : ℕ} (hn : n ≤ k) (hlt : n < 2 ^ 64) (slot : Fin k) :
    positions dis k n slot = if slot.val < n then some slot.val else none := by
  induction n with
  | zero => exact (if_neg (Nat.not_lt_zero _)).symm
  | succ n ih =>
    have hmod : n % 2 ^ 64 = n := Nat.mod_eq_of_lt (by omega)
    have hplace : some (⟨n, hn⟩ : Fin k) = some slot ↔ n = slot.val := by
      rw [Option.some.injEq, Fin.ext_iff]
    rw [positions_succ, hmod, place_fill dis hn, ih (by omega) (by omega)]
    by_cases heq : n = slot.val
    · rw [if_pos (hplace.mpr heq), if_pos (by omega), heq]
    · rw [if_neg fun h => heq (hplace.mp h)]
      by_cases hslot : slot.val < n
      · rw [if_pos hslot, if_pos (by omega)]
      · rw [if_neg hslot, if_neg (by omega)]

theorem positions_eq (m : ℕ) (hlt : k + m < 2 ^ 64) (slot : Fin k) :
    positions dis k (k + m) slot = some (held dis k m slot) := by
  induction m with
  | zero =>
    have hfill := @positions_fill k dis k le_rfl hlt slot
    rw [if_pos slot.isLt] at hfill
    exact hfill
  | succ m ih =>
    have hmod : (k + m) % 2 ^ 64 = k + m := Nat.mod_eq_of_lt (by omega)
    have hfull : ¬k + m < k := by omega
    rw [← Nat.add_assoc, positions_succ, hmod, ih (by omega), held, place, dif_neg hfull]
    by_cases hdraw : dis (k + m) < k
    · rw [dif_pos hdraw, dif_pos hdraw, Function.update_apply]
      by_cases heq : slot = ⟨dis (k + m), hdraw⟩
      · rw [if_pos heq, if_pos (congrArg some heq.symm)]
      · rw [if_neg heq, if_neg fun h => heq (Option.some.inj h).symm]
    · rw [dif_neg hdraw, dif_neg hdraw, if_neg (fun h => Option.some_ne_none _ h.symm)]

theorem held_lt (m : ℕ) (slot : Fin k) : held dis k m slot < k + m := by
  induction m with
  | zero => exact slot.isLt
  | succ m ih =>
    rw [held]
    split
    · rw [Function.update_apply]
      split <;> omega
    · omega

/-- Different slots hold different positions. -/
theorem held_injective (m : ℕ) : Function.Injective (held dis k m) := by
  induction m with
  | zero => exact Fin.val_injective
  | succ m ih =>
    rw [held]
    split
    · intro a b hab
      have ha := held_lt dis m a
      have hb := held_lt dis m b
      rw [Function.update_apply, Function.update_apply] at hab
      split at hab <;> split at hab
      · next h h' => exact h.trans h'.symm
      · omega
      · omega
      · exact ih hab
    · exact ih

/-- Only the draws that have been made matter. -/
theorem held_congr {dis' : ℕ → ℕ} {m : ℕ} (h : ∀ j < m, dis (k + j) = dis' (k + j)) :
    held dis k m = held dis' k m := by
  induction m with
  | zero => rfl
  | succ m ih =>
    rw [held, held, ih fun j hj => h j (by omega)]
    simp only [h m (Nat.lt_succ_self m)]

end Held

/-! ## All draws -/

/-- The numbers of possible draws: from zero to the count, for each count from `k` on. -/
def ranges (k j : ℕ) : ℕ := k + j + 1

section Uniform

variable {k m : ℕ}

/-- What is drawn at a count. -/
def drawOf (d : Sequence (ranges k) m) (count : ℕ) : ℕ :=
  if h : count - k < m then (d ⟨count - k, h⟩).val else 0

theorem drawOf_add (d : Sequence (ranges k) m) (j : Fin m) : drawOf d (k + j) = (d j).val := by
  have hsub : k + j.val - k = j.val := Nat.add_sub_cancel_left k j
  simp only [drawOf, hsub, j.isLt, dif_pos]
  exact congrArg (fun j => (d j).val) (Fin.ext hsub)

theorem drawOf_snoc (d : Sequence (ranges k) m) (i : Fin (ranges k m)) :
    (∀ j < m, drawOf (snoc d i) (k + j) = drawOf d (k + j)) ∧
      drawOf (snoc d i) (k + m) = i.val := by
  constructor
  · intro j hj
    have hlong := drawOf_add (snoc d i) (Fin.castSucc ⟨j, hj⟩)
    rw [snoc_castSucc] at hlong
    exact hlong.trans (drawOf_add d ⟨j, hj⟩).symm
  · have hlast := drawOf_add (snoc d i) (Fin.last m)
    rw [snoc_last] at hlast
    exact hlast

/-- A position is held. -/
def IsHeld (d : Sequence (ranges k) m) (p : ℕ) : Prop := ∃ slot, held (drawOf d) k m slot = p

instance (d : Sequence (ranges k) m) (p : ℕ) : Decidable (IsHeld d p) :=
  inferInstanceAs (Decidable (∃ _, _))

/-- With one more draw the new position is held if it has a slot, and each other position unless
its slot is drawn. -/
theorem isHeld_snoc (d : Sequence (ranges k) m) (i : Fin (ranges k m)) (p : ℕ) :
    IsHeld (snoc d i) p ↔
      if p = k + m then i.val < k
      else ∃ slot : Fin k, held (drawOf d) k m slot = p ∧ i.val ≠ slot.val := by
  obtain ⟨hfirst, hlast⟩ := drawOf_snoc d i
  have hcongr := held_congr (drawOf (snoc d i)) hfirst
  have hstep : held (drawOf (snoc d i)) k (m + 1) =
      if h : i.val < k then Function.update (held (drawOf d) k m) ⟨i.val, h⟩ (k + m)
      else held (drawOf d) k m := by
    simp only [held, hlast, hcongr]
  have hbound (slot : Fin k) := held_lt (drawOf d) m slot
  unfold IsHeld
  rw [hstep]
  by_cases hp : p = k + m
  · rw [if_pos hp, hp]
    constructor
    · rintro ⟨slot, hslot⟩
      by_contra hi
      rw [dif_neg hi] at hslot
      exact absurd hslot (hbound slot).ne
    · intro hi
      exact ⟨⟨i.val, hi⟩, by rw [dif_pos hi, Function.update_self]⟩
  · rw [if_neg hp]
    constructor
    · rintro ⟨slot, hslot⟩
      refine ⟨slot, ?_⟩
      by_cases hi : i.val < k
      · rw [dif_pos hi, Function.update_apply] at hslot
        split at hslot
        · exact absurd hslot.symm hp
        · next hne => exact ⟨hslot, fun heq => hne (Fin.ext heq.symm)⟩
      · rw [dif_neg hi] at hslot
        exact ⟨hslot, fun heq => hi (heq ▸ slot.isLt)⟩
    · rintro ⟨slot, hslot, hne⟩
      refine ⟨slot, ?_⟩
      by_cases hi : i.val < k
      · have hne' : slot ≠ ⟨i.val, hi⟩ := fun heq => hne (congrArg Fin.val heq).symm
        rw [dif_pos hi, Function.update_of_ne hne', hslot]
      · rw [dif_neg hi, hslot]

/-- So many last draws keep a position. -/
theorem lastCount_isHeld (d : Sequence (ranges k) m) (p : ℕ) :
    (lastCount fun i => IsHeld (snoc d i) p) =
      if p = k + m then k else if IsHeld d p then k + m else 0 := by
  by_cases hp : p = k + m
  · have hiff : ∀ i : Fin (ranges k m), IsHeld (snoc d i) p ↔ i.val < k := fun i => by
      rw [isHeld_snoc, if_pos hp]
    have hcard := @Fin.card_filter_val_lt (ranges k m) k
    have hmin : min (ranges k m) k = k := by
      unfold ranges
      omega
    rw [if_pos hp, lastCount, Finset.filter_congr fun i _ => hiff i, hcard, hmin]
  rw [if_neg hp]
  by_cases hheld : IsHeld d p
  · obtain ⟨slot, hslot⟩ := hheld
    have hlt : slot.val < ranges k m := by
      have hslot := slot.isLt
      unfold ranges
      omega
    have hiff : ∀ i : Fin (ranges k m), IsHeld (snoc d i) p ↔ i ≠ ⟨slot.val, hlt⟩ := fun i => by
      rw [isHeld_snoc, if_neg hp]
      constructor
      · rintro ⟨slot', hslot', hne⟩ heq
        obtain rfl := held_injective (drawOf d) m (hslot'.trans hslot.symm)
        exact hne (congrArg Fin.val heq)
      · intro hne
        exact ⟨slot, hslot, fun heq => hne (Fin.ext heq)⟩
    have hcard : (Finset.univ.erase (⟨slot.val, hlt⟩ : Fin (ranges k m))).card = k + m := by
      rw [Finset.card_erase_of_mem (Finset.mem_univ _), Finset.card_univ, Fintype.card_fin]
      rfl
    rw [if_pos ⟨slot, hslot⟩, lastCount, Finset.filter_congr fun i _ => hiff i,
      Finset.filter_ne', hcard]
  · have hnone : ∀ i : Fin (ranges k m), ¬IsHeld (snoc d i) p := fun i hi => by
      rw [isHeld_snoc, if_neg hp] at hi
      obtain ⟨slot, hslot, -⟩ := hi
      exact hheld ⟨slot, hslot⟩
    rw [if_neg hheld, lastCount, Finset.filter_false_of_mem fun i _ => hnone i, Finset.card_empty]

/-- Each position is held equally often. -/
theorem count_isHeld {p : ℕ} (hp : p < k + m) :
    (countWith fun d : Sequence (ranges k) m => IsHeld d p) * (k + m) = k * total (ranges k) m := by
  induction m with
  | zero =>
    have hall : ∀ d : Sequence (ranges k) 0, IsHeld d p ↔ True := fun d =>
      iff_true_intro ⟨⟨p, hp⟩, rfl⟩
    have hcount := @countWith_true (ranges k) 0
    rw [countWith, Finset.filter_congr fun d _ => hall d]
    rw [countWith] at hcount
    rw [hcount, Nat.mul_comm]
    rfl
  | succ m ih =>
    have hcount : (countWith fun d : Sequence (ranges k) (m + 1) => IsHeld d p) =
        k * total (ranges k) m := by
      by_cases heq : p = k + m
      · have hlast : ∀ d : Sequence (ranges k) m, (lastCount fun i => IsHeld (snoc d i) p) =
            if True then k else 0 := fun d => by
          rw [lastCount_isHeld, if_pos heq, if_pos trivial]
        rw [countWith_succ_of hlast, countWith_true, Nat.mul_comm]
      · have hlast : ∀ d : Sequence (ranges k) m, (lastCount fun i => IsHeld (snoc d i) p) =
            if IsHeld d p then k + m else 0 := fun d => by
          rw [lastCount_isHeld, if_neg heq]
        rw [countWith_succ_of hlast]
        exact ih (by omega)
    have htotal : total (ranges k) (m + 1) = total (ranges k) m * (k + (m + 1)) := total_succ
    rw [hcount, htotal, Nat.mul_assoc]

end Uniform

/-! ## Uniformity -/

/-- Over all draws every position of a stream is held in the same share of them, the slots hold
the items of different positions, and the count is that of the items. -/
theorem sampling_uniform {MaxItemSize k : ℕ} {stream : List (ValidItem MaxItemSize)}
    (hk : k ≤ stream.length) (hlt : stream.length < 2 ^ 64) :
    (∀ dis, (addAll Item.setItem dis stream (clear k (Item.zero MaxItemSize))).count =
        stream.length ∧
      ∃ kept : Fin k → Fin stream.length, Function.Injective kept ∧ ∀ slot,
        positions dis k stream.length slot = some (kept slot).val ∧
          (addAll Item.setItem dis stream (clear k (Item.zero MaxItemSize))).get slot =
            (stream.get (kept slot)).val) ∧
    ∀ p < stream.length,
      ((countWith fun d : Sequence (ranges k) (stream.length - k) =>
          ∃ slot, positions (drawOf d) k stream.length slot = some p : ℕ) : ℚ) /
        (total (ranges k) (stream.length - k) : ℚ) = (k : ℚ) / (stream.length : ℚ) := by
  have hlen : k + (stream.length - k) = stream.length := by omega
  have hheld (dis : ℕ → ℕ) (slot : Fin k) : positions dis k stream.length slot =
      some (held dis k (stream.length - k) slot) := by
    have heq := positions_eq dis (stream.length - k) (by omega) slot
    rwa [hlen] at heq
  constructor
  · intro dis
    have hbound (slot : Fin k) : held dis k (stream.length - k) slot < stream.length := by
      have hslot := held_lt dis (stream.length - k) slot
      omega
    constructor
    · rw [count_addAll, Nat.mod_eq_of_lt hlt]
    · refine ⟨fun slot => ⟨_, hbound slot⟩, fun a b hab => ?_, fun slot => ⟨hheld dis slot, ?_⟩⟩
      · exact held_injective dis _ (congrArg Fin.val hab)
      · obtain ⟨old, item, hitem, hslot⟩ := items_of_positions Item.setItem dis stream
          (Item.zero MaxItemSize) (hheld dis slot)
        obtain ⟨hlt', hget⟩ := List.getElem?_eq_some_iff.mp hitem
        rw [Reservoir.get, hslot, Item.getItem_setItem, ← hget]
        rfl
  · intro p hp
    have hiff : ∀ d : Sequence (ranges k) (stream.length - k),
        (∃ slot, positions (drawOf d) k stream.length slot = some p) ↔ IsHeld d p := fun d => by
      simp only [hheld, Option.some.injEq, IsHeld]
    have hcount := @count_isHeld k (stream.length - k) p (by omega)
    rw [hlen, countWith] at hcount
    rw [countWith, Finset.filter_congr fun d _ => hiff d]
    have hpos : (0 : ℚ) < total (ranges k) (stream.length - k) :=
      Nat.cast_pos.mpr (total_pos fun j => Nat.succ_pos _)
    have hn : (0 : ℚ) < stream.length := Nat.cast_pos.mpr (by omega)
    rw [div_eq_div_iff hpos.ne' hn.ne']
    exact_mod_cast hcount

/-- Three items and two slots. -/
theorem sampling_uniform_three :
    ((countWith fun d : Sequence (ranges 2) 1 =>
        ∃ slot, positions (drawOf d) 2 3 slot = some 0 : ℕ) : ℚ) / (total (ranges 2) 1 : ℚ) =
      (2 : ℚ) / (3 : ℚ) :=
  (@sampling_uniform 15 2
    [⟨[97], by decide⟩, ⟨[98], by decide⟩, ⟨[99], by decide⟩] (by decide) (by decide)).2 0
    (by decide)

/-- A stream of as many items as the count has values brings it back to zero. -/
theorem not_counted :
    (addAll Item.setItem (fun _ => 0)
      (List.replicate 18446744073709551616 (⟨[97], by decide⟩ : ValidItem 15))
      (clear 1 (Item.zero 15))).count ≠ 18446744073709551616 := by
  rw [count_addAll, List.length_replicate]
  decide

end HM4.ReservoirSampling
