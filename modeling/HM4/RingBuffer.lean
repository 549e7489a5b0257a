import HM4.FixedItem
import Mathlib.Data.List.Basic
import Mathlib.Data.Nat.ModEq

/-!
# The ring buffer

The strings are kept in a ring of slots. The head is the slot that is written next and the tail the
one with the oldest string. They are equal where the ring is empty and where it is full, and the
slot tells which it is. The header is taken from a stored value; if it does not fit the number of
slots, the buffer is cleared.
-/

namespace HM4.RingBuffer

open Bytes FixedItem

/-! ## The code -/

/-- `List`: the value as a header and slots. -/
structure Ring where
  head : ℕ
  tail : ℕ
  items : List Text

variable (M : ItemType) (size : ℕ)

/-- `check_`. -/
def check (rb : Ring) : Bool := rb.head < size ∧ rb.tail < size

/-- `clear` of a whole value: zeros. -/
def zeros : Ring := ⟨0, 0, List.replicate size M.zeros⟩

/-- `clear`; nothing if there is no slot. -/
def clear (rb : Ring) : Option Ring := do
  let x ← rb.items[0]?
  some ⟨0, 0, rb.items.set 0 { x with size := 0 }⟩

/-- `checkSet_`. -/
def checkSet (rb : Ring) : Option Ring := if check size rb = true then some rb else clear rb

/-- The slot behind another one, as `uint32_t`. -/
def next (i : ℕ) : ℕ :=
  let j := (i + 1) % 2 ^ 32
  if j = size then 0 else j

/-- `push`: the slot that is written, and the buffer; nothing if it leaves the value. -/
def push (rb : Ring) (item : Key) : Option (ℕ × Ring) := do
  let rb ← checkSet size rb
  let oldest ← rb.items[rb.tail]?
  let full := rb.head = rb.tail ∧ oldest.size ≠ 0
  let x ← rb.items[rb.head]?
  some (rb.head, ⟨next size rb.head, if full then next size rb.tail else rb.tail,
    rb.items.set rb.head (M.setItem x item)⟩)

/-- `count`. -/
def count (rb : Ring) : Option ℕ :=
  if check size rb = false then some 0
  else if rb.head = rb.tail then
    rb.items[rb.tail]?.map fun x => if x.size ≠ 0 then size else 0
  else if rb.tail < rb.head then some (rb.head - rb.tail)
  else some (size - rb.tail + rb.head)

/-- The loop of `for_each`: the slots that are read, with their strings. -/
def visit (items : List Text) : ℕ → ℕ → Option (List (ℕ × Key))
  | 0, _ => some []
  | steps + 1, i => do
    let x ← items[i]?
    let rest ← visit items steps (next size i)
    some ((i, M.getItem x) :: rest)

/-- `for_each`; nothing if it leaves the value. -/
def for_each (rb : Ring) : Option (List (ℕ × Key)) :=
  if check size rb = false then some []
  else do
    let oldest ← rb.items[rb.tail]?
    if rb.head = rb.tail ∧ oldest.size = 0 then some []
    else
      let stepsMax ← count size rb
      visit M size rb.items stepsMax rb.tail

/-- Pushes one after another: the buffer, and the slots that are written. -/
def pushAll : List Key → Ring → Option (Ring × List ℕ)
  | [], rb => some (rb, [])
  | item :: items, rb => do
    let (i, rb) ← push M size rb item
    let (rb, written) ← pushAll items rb
    some (rb, i :: written)

/-- The buffer is cleared. -/
structure Cleared (rb : Ring) : Prop where
  head : rb.head = 0
  tail : rb.tail = 0
  first : ∀ x, rb.items[0]? = some x → x.size = 0

/-- The buffer has the last of some strings, each in its slot. -/
structure Holds (rb : Ring) (pushes : List Key) : Prop where
  length : rb.items.length = size
  head : rb.head = pushes.length % size
  tail : rb.tail = (pushes.length - size) % size
  slots : ∀ j, pushes.length - size ≤ j → j < pushes.length →
    ∃ x, rb.items[j % size]? = some x ∧ x.size ≠ 0 ∧ M.getItem x = pushes.getD j []
  first : pushes = [] → ∀ x, rb.items[0]? = some x → x.size = 0

variable {M size}

/-! ## Slots in the ring -/

section Ring

variable {rb : Ring} {pushes : List Key} {item : Key}

theorem next_eq (hsize : size ≤ 2 ^ 32) {i : ℕ} (hi : i < size) : next size i = (i + 1) % size := by
  unfold next
  dsimp only
  rcases Nat.eq_or_lt_of_le (Nat.succ_le_of_lt hi) with heq | hlt
  · rw [Nat.succ_eq_add_one] at heq
    rw [heq, Nat.mod_self]
    rcases Nat.eq_or_lt_of_le hsize with h32 | h32
    · rw [h32, Nat.mod_self]
      rfl
    · rw [Nat.mod_eq_of_lt h32, if_pos rfl]
  · rw [Nat.succ_eq_add_one] at hlt
    rw [Nat.mod_eq_of_lt (hlt.trans_le hsize), if_neg hlt.ne, Nat.mod_eq_of_lt hlt]

/-- The slot behind that of a number. -/
theorem next_mod (hpos : 0 < size) (hsize : size ≤ 2 ^ 32) (j : ℕ) :
    next size (j % size) = (j + 1) % size := by
  rw [next_eq hsize (Nat.mod_lt j hpos), Nat.mod_add_mod]

theorem Holds.check (h : Holds M size rb pushes) (hpos : 0 < size) : check size rb = true := by
  unfold RingBuffer.check
  rw [h.head, h.tail]
  exact decide_eq_true ⟨Nat.mod_lt _ hpos, Nat.mod_lt _ hpos⟩

theorem Holds.getElem? (h : Holds M size rb pushes) {i : ℕ} (hi : i < size) :
    ∃ x, rb.items[i]? = some x :=
  ⟨_, List.getElem?_eq_getElem (h.length.symm ▸ hi)⟩

/-- The ring is full where its head is its tail and a slot there is used. -/
theorem Holds.full_iff (h : Holds M size rb pushes) (hpos : 0 < size) {x : Text}
    (hx : rb.items[rb.tail]? = some x) :
    (rb.head = rb.tail ∧ x.size ≠ 0) ↔ size ≤ pushes.length := by
  rw [h.tail] at hx
  rw [h.head, h.tail]
  constructor
  · rintro ⟨heq, hne⟩
    by_contra hlt
    have hlt := not_le.mp hlt
    rw [Nat.mod_eq_of_lt hlt, Nat.sub_eq_zero_of_le hlt.le, Nat.zero_mod] at heq
    rw [Nat.sub_eq_zero_of_le hlt.le, Nat.zero_mod] at hx
    exact hne (h.first (List.length_eq_zero_iff.mp heq) x hx)
  · intro hle
    refine ⟨Nat.mod_eq_sub_mod hle, ?_⟩
    obtain ⟨y, hy, hne, -⟩ := h.slots _ le_rfl (Nat.sub_lt (hpos.trans_le hle) hpos)
    exact Option.some.inj (hy.symm.trans hx) ▸ hne

/-- One string is pushed. -/
theorem Holds.push (h : Holds M size rb pushes) (hpos : 0 < size) (hsize : size ≤ 2 ^ 32)
    (hitem : M.isItemValid item) :
    ∃ rb', push M size rb item = some (pushes.length % size, rb') ∧
      Holds M size rb' (pushes ++ [item]) := by
  have hheadlt : rb.head < size := h.head ▸ Nat.mod_lt _ hpos
  obtain ⟨x, hx⟩ := h.getElem? hheadlt
  obtain ⟨oldest, holdest⟩ := h.getElem? (h.tail ▸ Nat.mod_lt _ hpos : rb.tail < size)
  have hfull := h.full_iff hpos holdest
  unfold RingBuffer.push checkSet
  rw [if_pos (h.check hpos)]
  simp only [Option.bind_eq_bind, Option.bind_some, holdest, hx, hfull]
  refine ⟨_, by rw [h.head], ?_⟩
  have hlen : (pushes ++ [item]).length = pushes.length + 1 := by
    rw [List.length_append, List.length_singleton]
  constructor
  · rw [List.length_set]
    exact h.length
  · rw [hlen]
    exact next_mod hpos hsize pushes.length
  · rw [hlen, h.tail]
    dsimp only
    split
    · next hle => rw [next_mod hpos hsize, Nat.sub_add_comm hle]
    · next hlt =>
      rw [Nat.sub_eq_zero_of_le (not_le.mp hlt).le, Nat.sub_eq_zero_of_le (not_le.mp hlt)]
  · intro j hj hjlt
    rw [hlen] at hj hjlt
    dsimp only
    rcases Nat.eq_or_lt_of_le (Nat.le_of_lt_succ hjlt) with rfl | hlt
    · refine ⟨_, ?_, size_setItem_ne_zero x hitem, ?_⟩
      · exact List.getElem?_set_self (h.length.symm ▸ Nat.mod_lt _ hpos)
      · rw [getItem_setItem x hitem, List.getD_eq_getElem?_getD, List.getElem?_concat_length]
        rfl
    · obtain ⟨y, hy, hne, hget⟩ := h.slots j (by omega) hlt
      refine ⟨y, ?_, hne, hget.trans ?_⟩
      · rw [List.getElem?_set_ne, hy]
        -- within one turn of the ring the slots are different
        intro heq
        have hdvd := (Nat.modEq_iff_dvd' hlt.le).mp heq.symm
        have := Nat.le_of_dvd (Nat.sub_pos_of_lt hlt) hdvd
        omega
      · rw [List.getD_eq_getElem?_getD, List.getD_eq_getElem?_getD, List.getElem?_append_left hlt]
  · exact fun hnil => absurd hnil (List.append_ne_nil_of_right_ne_nil _ (List.cons_ne_nil _ _))

/-! ## Pushes -/

/-- Strings are pushed one after another. -/
theorem Holds.pushAll (hpos : 0 < size) (hsize : size ≤ 2 ^ 32) {items : List Key}
    (hitems : ∀ item ∈ items, M.isItemValid item) (h : Holds M size rb pushes) :
    ∃ rb', pushAll M size items rb = some (rb',
        (List.range' pushes.length items.length).map (· % size)) ∧
      Holds M size rb' (pushes ++ items) := by
  induction items generalizing rb pushes with
  | nil => exact ⟨rb, rfl, by rwa [List.append_nil]⟩
  | cons item items ih =>
    obtain ⟨hitem, hitems⟩ := List.forall_mem_cons.mp hitems
    obtain ⟨rb1, hpush, h1⟩ := h.push hpos hsize hitem
    obtain ⟨rb', hrest, h'⟩ := ih hitems h1
    refine ⟨rb', ?_, by rwa [List.append_assoc, List.singleton_append] at h'⟩
    rw [RingBuffer.pushAll, hpush, Option.bind_eq_bind, Option.bind_some]
    dsimp only
    rw [hrest, Option.bind_eq_bind, Option.bind_some, List.length_cons, List.range'_succ, List.map_cons,
      List.length_append, List.length_singleton]

/-- A cleared buffer holds nothing. -/
theorem Cleared.holds (h : Cleared rb) (hlen : rb.items.length = size) : Holds M size rb [] where
  length := hlen
  head := h.head.trans (Nat.zero_mod size).symm
  tail := by rw [h.tail, List.length_nil, Nat.zero_sub, Nat.zero_mod]
  slots _ _ hlt := absurd hlt (Nat.not_lt_zero _)
  first _ := h.first

/-- A header that does not fit is replaced. -/
theorem checkSet_spec (hpos : 0 < size) (hlen : rb.items.length = size)
    (h : Cleared rb ∨ check size rb = false) :
    ∃ rb', checkSet size rb = some rb' ∧ Holds M size rb' [] := by
  unfold checkSet
  rcases h with h | h
  · have hholds : Holds M size rb [] := h.holds hlen
    exact ⟨rb, if_pos (hholds.check hpos), hholds⟩
  · have hlt : 0 < rb.items.length := hlen.symm ▸ hpos
    rw [if_neg (h ▸ Bool.false_ne_true), clear, List.getElem?_eq_getElem hlt]
    refine ⟨_, rfl, Cleared.holds ⟨rfl, rfl, fun x hx => ?_⟩ ((List.length_set ..).trans hlen)⟩
    rw [List.getElem?_set_self hlt] at hx
    exact Option.some.inj hx ▸ rfl

/-- A push repairs the header itself. -/
theorem push_checkSet {rb' : Ring} (h : checkSet size rb = some rb') (hrb' : check size rb' = true)
    (item : Key) : push M size rb item = push M size rb' item := by
  have hsame : checkSet size rb' = some rb' := if_pos hrb'
  unfold push
  rw [h, hsame]

/-! ## Iteration -/

/-- The strings from one of them on, in the order of the ring. -/
theorem Holds.visit (h : Holds M size rb pushes) (hpos : 0 < size) (hsize : size ≤ 2 ^ 32)
    {j steps : ℕ} (hj : pushes.length - size ≤ j) (hsteps : j + steps ≤ pushes.length) :
    visit M size rb.items steps (j % size) =
      some ((List.range' j steps).map fun t => (t % size, pushes.getD t [])) := by
  induction steps generalizing j with
  | zero => rfl
  | succ steps ih =>
    obtain ⟨x, hx, -, hget⟩ := h.slots j hj (by omega)
    rw [RingBuffer.visit, hx, Option.bind_eq_bind, Option.bind_some, next_mod hpos hsize,
      ih (hj.trans (Nat.le_succ j)) (by omega), Option.bind_eq_bind, Option.bind_some,
      List.range'_succ, List.map_cons, hget]

/-- The strings that the buffer holds are the last ones, and as many as there are slots. -/
theorem Holds.for_each (h : Holds M size rb pushes) (hpos : 0 < size) (hsize : size ≤ 2 ^ 32) :
    for_each M size rb = some ((List.range' (pushes.length - size)
      (pushes.length - (pushes.length - size))).map fun t => (t % size, pushes.getD t [])) := by
  obtain ⟨oldest, holdest⟩ := h.getElem? (h.tail ▸ Nat.mod_lt _ hpos : rb.tail < size)
  have hfull := h.full_iff hpos holdest
  unfold RingBuffer.for_each
  rw [if_neg (h.check hpos ▸ Bool.noConfusion), holdest, Option.bind_eq_bind, Option.bind_some]
  by_cases hempty : pushes = []
  · have hheads : rb.head = rb.tail := by
      rw [h.head, h.tail, hempty, List.length_nil, Nat.zero_sub]
    have hfirst : oldest.size = 0 := by
      refine h.first hempty oldest ?_
      rw [h.tail, hempty, List.length_nil, Nat.zero_sub, Nat.zero_mod] at holdest
      exact holdest
    rw [if_pos ⟨hheads, hfirst⟩, hempty, List.length_nil, Nat.zero_sub]
    rfl
  · have hcount : count size rb = some (pushes.length - (pushes.length - size)) ∧
        ¬(rb.head = rb.tail ∧ oldest.size = 0) := by
      unfold count
      rw [if_neg (h.check hpos ▸ Bool.noConfusion)]
      by_cases hle : size ≤ pushes.length
      · obtain ⟨heq, hne⟩ := hfull.mpr hle
        rw [if_pos heq, holdest, Option.map_some, if_pos hne, Nat.sub_sub_self hle]
        exact ⟨rfl, fun hzero => hne hzero.2⟩
      · have hlt := not_le.mp hle
        have hnonempty : 0 < pushes.length := List.length_pos_iff.mpr hempty
        have hheads : rb.head = pushes.length := h.head.trans (Nat.mod_eq_of_lt hlt)
        have htails : rb.tail = 0 := by
          rw [h.tail, Nat.sub_eq_zero_of_le hlt.le, Nat.zero_mod]
        rw [hheads, htails, if_neg hnonempty.ne', if_pos hnonempty,
          Nat.sub_eq_zero_of_le hlt.le]
        exact ⟨rfl, fun hzero => hnonempty.ne' hzero.1⟩
    rw [if_neg hcount.2, hcount.1, Option.bind_eq_bind, Option.bind_some, h.tail]
    exact h.visit hpos hsize le_rfl (by omega)

theorem map_getD_range' (l : List Key) (j : ℕ) :
    (List.range' j (l.length - j)).map (fun t => l.getD t []) = l.drop j := by
  refine List.ext_getElem? fun i => ?_
  rw [List.getElem?_map, List.getElem?_drop]
  by_cases hi : i < l.length - j
  · have hlt : j + i < l.length := by omega
    rw [List.getElem?_range' hi, Option.map_some, List.getD_eq_getElem?_getD, Nat.one_mul,
      List.getElem?_eq_getElem hlt, Option.getD_some]
  · rw [List.getElem?_eq_none (by rw [List.length_range']; omega),
      List.getElem?_eq_none (by omega)]
    rfl

end Ring

/-! ## Whole runs -/

/-- After every sequence of pushes into a cleared buffer, or into a value whose header does not fit,
the iteration yields the last strings in the order of the pushes, and reads only slots that these
pushes have written. -/
theorem for_each_pushAll (M : ItemType) (size : ℕ) (hpos : 0 < size) (hsize : size ≤ 2 ^ 32)
    (rb : Ring) (hlen : rb.items.length = size) (hstart : Cleared rb ∨ check size rb = false)
    (pushes : List Key) (hpushes : ∀ item ∈ pushes, M.isItemValid item) :
    ∃ rb' written read, pushAll M size pushes rb = some (rb', written) ∧
      for_each M size rb' = some read ∧
      read.map Prod.snd = pushes.drop (pushes.length - size) ∧
      ∀ i ∈ read.map Prod.fst, i ∈ written := by
  obtain ⟨rb0, hset, h0⟩ := @checkSet_spec M size rb hpos hlen hstart
  cases pushes with
  | nil =>
    refine ⟨rb, [], [], rfl, ?_, List.drop_nil.symm, fun _ h => absurd h List.not_mem_nil⟩
    rcases hstart with hstart | hstart
    · have hholds : Holds M size rb [] := hstart.holds hlen
      have hread := hholds.for_each hpos hsize
      rw [List.length_nil, Nat.zero_sub] at hread
      exact hread
    · exact if_pos hstart
  | cons item items =>
    obtain ⟨rb', hall, h'⟩ := h0.pushAll hpos hsize hpushes
    have hsame : pushAll M size (item :: items) rb = pushAll M size (item :: items) rb0 := by
      rw [pushAll, pushAll, push_checkSet hset (h0.check hpos)]
    refine ⟨rb', _, _, hsame.trans hall, h'.for_each hpos hsize, ?_, ?_⟩
    · rw [List.map_map]
      exact map_getD_range' _ _
    · rw [List.map_map]
      intro i hi
      obtain ⟨t, ht, rfl⟩ := List.mem_map.mp hi
      refine List.mem_map_of_mem ?_
      rw [List.mem_range'_1] at ht ⊢
      rw [List.nil_append] at ht
      rw [List.length_nil]
      omega

/-- Three strings into two slots whose header is out of the ring. -/
theorem for_each_pushAll_two_slots : ∃ rb' written read,
    pushAll raw16 2 [[97], [98], [99]] ⟨9, 1, [⟨7, [1]⟩, ⟨200, [2]⟩]⟩ = some (rb', written) ∧
      for_each raw16 2 rb' = some read ∧ read.map Prod.snd = [[98], [99]] ∧
      ∀ i ∈ read.map Prod.fst, i ∈ written :=
  for_each_pushAll raw16 2 (by decide) (by decide) ⟨9, 1, [⟨7, [1]⟩, ⟨200, [2]⟩]⟩ rfl
    (.inr (by decide)) [[97], [98], [99]] (by decide)

end HM4.RingBuffer
