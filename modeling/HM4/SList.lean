import HM4.Bytes
import HM4.General.Patch
import HM4.VFactory
import Mathlib.Tactic.Set

/-!
# String lists

The value is a header with the number of strings and the octets that they take, and the strings one
behind the other, each with its size in two octets. The value may come from anywhere, so that every
access is checked against its end.
-/

namespace HM4.SList

open Bytes Pairs Patch VFactory

/-! ## The code -/

/-- An assertion that fails, or an access that leaves the value. -/
inductive Fault where
  | assertion
  | outside

/-- `assert`. -/
def assert (p : Prop) [Decidable p] : Except Fault Unit :=
  if p then .ok () else .error .assertion

/-- Octets of the value. -/
def read (blob : Key) (i n : ℕ) : Except Fault Key :=
  if i + n ≤ blob.length then .ok (slice blob i n) else .error .outside

/-- The value with other octets. -/
def write (blob : Key) (i : ℕ) (s : Key) : Except Fault Key :=
  match put blob i s with
  | some blob => .ok blob
  | none => .error .outside

/-- `Item::max_size`. -/
def maxItem : ℕ := 65535

/-- `List::max_size`. -/
def maxList : ℕ := 2 ^ 32 - 1

/-- `Item::bytes`. -/
def itemBytes (size : ℕ) : ℕ := 2 + size

/-- `List::bytes` of no items. -/
def listBytes : ℕ := 8

/-- `isItemValid`. -/
def isItemValid (sv : Key) : Prop := 1 ≤ sv.length ∧ sv.length ≤ maxItem

/-- `capacity`. -/
def capacity (blob : Key) : ℕ := if blob.length < listBytes then 0 else blob.length - listBytes

/-- `list_->size`. -/
def loadSize (blob : Key) : Except Fault ℕ := (read blob 0 4).map (loadBE 4)

/-- `list_->foot`. -/
def loadFoot (blob : Key) : Except Fault ℕ := (read blob 4 4).map (loadBE 4)

/-- `stable_`. -/
def stable (foot : Bool) (blob : Key) : Except Fault Bool :=
  if capacity blob = 0 then .ok false
  else if foot = true then (loadFoot blob).map fun foot => foot ≤ capacity blob
  else .ok true

/-- `clear`. -/
def clear (blob : Key) : Except Fault (Bool × Key) := do
  if (← stable false blob) = true then
    let blob ← write blob 0 (storeBE 4 0)
    let blob ← write blob 4 (storeBE 4 0)
    .ok (true, blob)
  else .ok (false, blob)

/-- `constexprAccumulate`. -/
def constexprAccumulate : List Key → Except Fault ℕ
  | [] => .ok 0
  | sv :: strings => do
    assert (sv.length < maxItem)
    let bytes ← constexprAccumulate strings
    .ok (itemBytes sv.length + bytes)

/-- `bytes` of a new list. -/
def bytesNew (strings : List Key) : Except Fault ℕ := do
  assert (strings.length < maxList)
  let bytes ← constexprAccumulate strings
  .ok (listBytes + bytes)

/-- `bytes` of a list with more strings. -/
def bytes (blob : Key) (strings : List Key) (capacityMultiply : Bool) : Except Fault ℕ := do
  assert (strings.length < maxList)
  let bytes ← constexprAccumulate strings
  if (← stable true blob) = true then
    let foot ← loadFoot blob
    let bytes := bytes + foot
    let cm := if capacityMultiply = true then 2 else 1
    .ok (listBytes + if bytes ≤ capacity blob then capacity blob else bytes * cm)
  else .ok (listBytes + if bytes ≤ capacity blob then capacity blob else bytes)

/-- `push`, after the value was repaired. -/
def pushStable (blob sv : Key) : Except Fault (Bool × Key) := do
  let listSize ← loadSize blob
  if listSize = maxList then .ok (false, blob)
  else
    let foot ← loadFoot blob
    let need := itemBytes sv.length % 2 ^ 32
    if foot + need ≤ capacity blob then
      assert (sv.length < maxItem)
      let blob ← write blob (listBytes + foot) (storeBE 2 (sv.length % 2 ^ 16) ++ sv)
      let blob ← write blob 0 (storeBE 4 ((listSize + 1) % 2 ^ 32))
      let blob ← write blob 4 (storeBE 4 ((foot + need) % 2 ^ 32))
      .ok (true, blob)
    else .ok (false, blob)

/-- `push`. -/
def push (blob sv : Key) : Except Fault (Bool × Key) := do
  assert (sv.length < maxItem)
  if (← stable true blob) = true then pushStable blob sv
  else
    let (done, blob) ← clear blob
    if done = true then pushStable blob sv else .ok (false, blob)

/-- Pushes one after another, as long as they succeed. -/
def pushAll : List Key → Key → Except Fault (Bool × Key)
  | [], blob => .ok (true, blob)
  | sv :: strings, blob => do
    let (done, blob) ← push blob sv
    if done = true then pushAll strings blob else .ok (false, blob)

/-- The loop of `for_each`: if it came to the end, and the strings that it gave to `f`. -/
def visit (f : Key → Bool) (blob : Key) (foot mem : ℕ) : Except Fault (Bool × List Key) :=
  if _h : mem < foot then
    if mem + itemBytes 0 ≤ capacity blob then
      match read blob (listBytes + mem) 2 with
      | .error fault => .error fault
      | .ok size =>
        let next := mem + itemBytes (loadBE 2 size)
        if next ≤ capacity blob then
          match read blob (listBytes + mem + 2) (loadBE 2 size) with
          | .error fault => .error fault
          | .ok item =>
            if f item = true then
              (visit f blob foot next).map fun rest => (rest.1, item :: rest.2)
            else .ok (false, [item])
        else .ok (false, [])
    else .ok (false, [])
  else .ok (true, [])
termination_by foot - mem
decreasing_by
  unfold itemBytes
  omega

/-- `for_each`. -/
def for_each (f : Key → Bool) (blob : Key) : Except Fault (Bool × List Key) := do
  if (← stable true blob) = true then visit f blob (← loadFoot blob) 0
  else .ok (false, [])

/-! ## What it is for -/

/-- The octets of some strings. -/
def encode (items : List Key) : Key := items.flatMap fun s => storeBE 2 s.length ++ s

/-- The value is the list of some strings. -/
structure IsList (blob : Key) (items : List Key) : Prop where
  size : loadBE 4 (slice blob 0 4) = items.length
  foot : loadBE 4 (slice blob 4 4) = (encode items).length
  fits : listBytes + (encode items).length ≤ blob.length
  data : slice blob listBytes (encode items).length = encode items
  short : ∀ s ∈ items, s.length < 2 ^ 16

/-- After the value is resized to what `bytes` computes, if a pair can have this size, all pushes
succeed, and the iteration yields the old strings and behind them the new ones. -/
def AddsAll (blob : Key) (items strings : List Key) (capacityMultiply : Bool) : Prop :=
  ∃ n, bytes blob strings capacityMultiply = .ok n ∧ (n ≤ maxValSize →
    ∃ blob' complete, pushAll strings (smartMemcpy n blob) = .ok (true, blob') ∧
      for_each (fun _ => true) blob' = .ok (complete, items ++ strings) ∧
      loadBE 4 (slice blob' 4 4) ≤ capacity blob')

/-- Neither a push nor an iteration leaves the value. -/
def StaysInside (blob : Key) : Prop :=
  (∀ sv, push blob sv ≠ .error .outside) ∧ ∀ f, for_each f blob ≠ .error .outside

/-! ## Accesses -/

section Access

variable {blob : Key} {i n : ℕ} {s : Key}

omit blob i n s in
theorem ok_ne_outside {α : Type} {x : α} : (.ok x : Except Fault α) ≠ .error .outside := nofun

theorem read_of_le (h : i + n ≤ blob.length) : read blob i n = .ok (slice blob i n) := if_pos h

theorem write_of_le (h : i + s.length ≤ blob.length) : ∃ blob', put blob i s = some blob' ∧
    write blob i s = .ok blob' := by
  obtain ⟨blob', hput⟩ := exists_put_iff.mpr h
  exact ⟨blob', hput, by rw [write, hput]⟩

theorem assert_of {p : Prop} [Decidable p] (h : p) : assert p = .ok () := if_pos h

theorem assert_not {p : Prop} [Decidable p] (h : ¬p) : assert p = .error .assertion := if_neg h

/-- The header and the capacity make the value. -/
theorem add_capacity (h : capacity blob ≠ 0) : listBytes + capacity blob = blob.length := by
  unfold capacity at h ⊢
  by_cases hlt : blob.length < listBytes
  · exact absurd (if_pos hlt) h
  · rw [if_neg hlt]
    omega

theorem capacity_eq (h : listBytes ≤ blob.length) : capacity blob = blob.length - listBytes :=
  if_neg (not_lt.mpr h)

theorem loadSize_eq (h : listBytes ≤ blob.length) :
    loadSize blob = .ok (loadBE 4 (slice blob 0 4)) := by
  unfold listBytes at h
  rw [loadSize, read_of_le (by omega)]
  rfl

theorem loadFoot_eq (h : listBytes ≤ blob.length) :
    loadFoot blob = .ok (loadBE 4 (slice blob 4 4)) := by
  unfold listBytes at h
  rw [loadFoot, read_of_le (by omega)]
  rfl

theorem header_of_capacity (h : capacity blob ≠ 0) : listBytes ≤ blob.length :=
  add_capacity h ▸ Nat.le_add_right _ _

/-- When a value is stable. -/
theorem stable_true : stable true blob =
    .ok (decide (capacity blob ≠ 0 ∧ loadBE 4 (slice blob 4 4) ≤ capacity blob)) := by
  unfold stable
  by_cases h : capacity blob = 0
  · rw [if_pos h, decide_eq_false fun hand => hand.1 h]
  · rw [if_neg h, if_pos rfl, loadFoot_eq (header_of_capacity h)]
    exact congrArg Except.ok (decide_eq_decide.mpr (and_iff_right h).symm)

theorem stable_false : stable false blob = .ok (decide (capacity blob ≠ 0)) := by
  unfold stable
  by_cases h : capacity blob = 0
  · rw [if_pos h, decide_eq_false (not_not.mpr h)]
  · rw [if_neg h, if_neg Bool.false_ne_true, decide_eq_true h]

/-- A number in the header is written. -/
theorem write_header {i x : ℕ} (h : i + 4 ≤ blob.length) (hx : x < 256 ^ 4) :
    ∃ blob', write blob i (storeBE 4 x) = .ok blob' ∧ blob'.length = blob.length ∧
      loadBE 4 (slice blob' i 4) = x ∧
      ∀ j n, j + n ≤ i ∨ i + 4 ≤ j → slice blob' j n = slice blob j n := by
  have hlen : (storeBE 4 x).length = 4 := storeBE_length 4 x
  obtain ⟨blob', hput, hwrite⟩ := write_of_le (hlen.symm ▸ h : i + (storeBE 4 x).length ≤ _)
  have hback := slice_put hput
  rw [hlen] at hback
  refine ⟨blob', hwrite, length_put hput, by rw [hback, loadBE_storeBE hx], fun j n hj => ?_⟩
  exact slice_put_of_disjoint hput (hlen.symm ▸ hj)

/-- A cleared value. -/
theorem clear_spec (h : capacity blob ≠ 0) : ∃ blob', clear blob = .ok (true, blob') ∧
    blob'.length = blob.length ∧ loadBE 4 (slice blob' 0 4) = 0 ∧
    loadBE 4 (slice blob' 4 4) = 0 := by
  have hlen := header_of_capacity h
  unfold listBytes at hlen
  obtain ⟨blob1, hwrite1, hlen1, hsize1, -⟩ := @write_header blob 0 0 (by omega) (by decide)
  obtain ⟨blob2, hwrite2, hlen2, hfoot2, hrest2⟩ :=
    @write_header blob1 4 0 (by omega) (by decide)
  refine ⟨blob2, ?_, hlen2.trans hlen1, ?_, hfoot2⟩
  · unfold clear
    rw [stable_false, decide_eq_true h]
    change ((write blob 0 (storeBE 4 0)).bind fun blob =>
      (write blob 4 (storeBE 4 0)).bind fun blob => .ok (true, blob)) = _
    rw [hwrite1]
    change ((write blob1 4 (storeBE 4 0)).bind fun blob => .ok (true, blob)) = _
    rw [hwrite2]
    rfl
  · rw [hrest2 0 4 (.inl le_rfl), hsize1]

theorem clear_of_capacity (h : capacity blob = 0) : clear blob = .ok (false, blob) := by
  unfold clear
  rw [stable_false, decide_eq_false (not_not.mpr h)]
  rfl

end Access

/-! ## A push -/

section Push

variable {blob blob' sv : Key}

/-- What a push leaves. -/
structure Pushed (blob sv blob' : Key) : Prop where
  length : blob'.length = blob.length
  size : loadBE 4 (slice blob' 0 4) = (loadBE 4 (slice blob 0 4) + 1) % 2 ^ 32
  foot : loadBE 4 (slice blob' 4 4) =
    (loadBE 4 (slice blob 4 4) + itemBytes sv.length) % 2 ^ 32
  item : slice blob' (listBytes + loadBE 4 (slice blob 4 4)) (itemBytes sv.length) =
    storeBE 2 sv.length ++ sv
  rest : ∀ j n, listBytes ≤ j → j + n ≤ listBytes + loadBE 4 (slice blob 4 4) →
    slice blob' j n = slice blob j n

theorem length_item (sv : Key) : (storeBE 2 sv.length ++ sv).length = itemBytes sv.length := by
  rw [List.length_append, storeBE_length]
  rfl

theorem itemBytes_lt (h : sv.length < maxItem) : itemBytes sv.length < 2 ^ 32 := by
  unfold maxItem at h
  unfold itemBytes
  omega

/-- A push into a stable value. -/
theorem pushStable_spec (hcap : capacity blob ≠ 0) (hsv : sv.length < maxItem) :
    (loadBE 4 (slice blob 0 4) = maxList ∨
        capacity blob < loadBE 4 (slice blob 4 4) + itemBytes sv.length) ∧
        pushStable blob sv = .ok (false, blob) ∨
      (loadBE 4 (slice blob 0 4) ≠ maxList ∧
        loadBE 4 (slice blob 4 4) + itemBytes sv.length ≤ capacity blob) ∧
        ∃ blob', pushStable blob sv = .ok (true, blob') ∧ Pushed blob sv blob' := by
  have hheader := header_of_capacity hcap
  have hlen := add_capacity hcap
  have hneed : itemBytes sv.length % 2 ^ 32 = itemBytes sv.length :=
    Nat.mod_eq_of_lt (itemBytes_lt hsv)
  have hshort : sv.length % 2 ^ 16 = sv.length :=
    Nat.mod_eq_of_lt (hsv.trans (by decide))
  unfold pushStable
  rw [loadSize_eq hheader, loadFoot_eq hheader, hneed, hshort]
  set size := loadBE 4 (slice blob 0 4) with hsizedef
  set foot := loadBE 4 (slice blob 4 4) with hfootdef
  change _ ∧ (if size = maxList then _ else if foot + itemBytes sv.length ≤ capacity blob then _
    else _) = _ ∨ _ ∧ ∃ blob', (if size = maxList then _ else if foot + itemBytes sv.length ≤
      capacity blob then _ else _) = _ ∧ _
  by_cases hmax : size = maxList
  · rw [if_pos hmax]
    exact .inl ⟨.inl hmax, rfl⟩
  rw [if_neg hmax]
  by_cases hroom : foot + itemBytes sv.length ≤ capacity blob
  · refine .inr ⟨⟨hmax, hroom⟩, ?_⟩
    rw [if_pos hroom, assert_of hsv]
    have hitem : listBytes + foot + (storeBE 2 sv.length ++ sv).length ≤ blob.length := by
      rw [length_item]
      omega
    obtain ⟨blob1, hput, hwrite1⟩ := write_of_le hitem
    have hlen1 := length_put hput
    have hback := slice_put hput
    rw [length_item] at hback
    unfold listBytes at hheader
    obtain ⟨blob2, hwrite2, hlen2, hsize2, hrest2⟩ := @write_header blob1 0
      ((size + 1) % 2 ^ 32) (by omega) (Nat.mod_lt _ (by decide))
    obtain ⟨blob3, hwrite3, hlen3, hfoot3, hrest3⟩ := @write_header blob2 4
      ((foot + itemBytes sv.length) % 2 ^ 32) (by omega) (Nat.mod_lt _ (by decide))
    refine ⟨blob3, ?_, ⟨hlen3.trans (hlen2.trans hlen1), ?_, hfoot3, ?_, fun j n hj hjn => ?_⟩⟩
    · change ((write blob (listBytes + foot) (storeBE 2 sv.length ++ sv)).bind fun blob =>
        (write blob 0 (storeBE 4 ((size + 1) % 2 ^ 32))).bind fun blob =>
          (write blob 4 (storeBE 4 ((foot + itemBytes sv.length) % 2 ^ 32))).bind fun blob =>
            .ok (true, blob)) = _
      rw [hwrite1]
      change ((write blob1 0 (storeBE 4 ((size + 1) % 2 ^ 32))).bind fun blob =>
          (write blob 4 (storeBE 4 ((foot + itemBytes sv.length) % 2 ^ 32))).bind fun blob =>
            .ok (true, blob)) = _
      rw [hwrite2]
      change ((write blob2 4 (storeBE 4 ((foot + itemBytes sv.length) % 2 ^ 32))).bind fun blob =>
            .ok (true, blob)) = _
      rw [hwrite3]
      rfl
    · rw [hrest3 0 4 (.inl le_rfl), hsize2]
    · have hbehind : 8 ≤ listBytes + foot := Nat.le_add_right 8 foot
      rw [hrest3 _ _ (.inr hbehind), hrest2 _ _ (.inr (by omega)), hback]
    · rw [hrest3 _ _ (.inr hj), hrest2 _ _ (.inr (le_trans (by decide) hj)),
        slice_put_of_disjoint hput (.inl hjn)]
  · rw [if_neg hroom]
    exact .inl ⟨.inr (not_le.mp hroom), rfl⟩

theorem push_of_stable (hcap : capacity blob ≠ 0)
    (hfoot : loadBE 4 (slice blob 4 4) ≤ capacity blob) (hsv : sv.length < maxItem) :
    push blob sv = pushStable blob sv := by
  unfold push
  rw [assert_of hsv, stable_true, decide_eq_true ⟨hcap, hfoot⟩]
  rfl

/-- A push never leaves the value. -/
theorem push_ne_outside (blob sv : Key) : push blob sv ≠ .error .outside := by
  have hstable : ∀ {blob : Key}, capacity blob ≠ 0 → sv.length < maxItem →
      pushStable blob sv ≠ .error .outside := by
    intro blob hcap hsv h
    rcases pushStable_spec hcap hsv with ⟨-, hno⟩ | ⟨-, blob', hyes, -⟩
    · exact ok_ne_outside (hno.symm.trans h)
    · exact ok_ne_outside (hyes.symm.trans h)
  by_cases hsv : sv.length < maxItem
  · by_cases hgood : capacity blob ≠ 0 ∧ loadBE 4 (slice blob 4 4) ≤ capacity blob
    · rw [push_of_stable hgood.1 hgood.2 hsv]
      exact hstable hgood.1 hsv
    · unfold push
      rw [assert_of hsv, stable_true, decide_eq_false hgood]
      change (clear blob).bind (fun x => if x.1 = true then pushStable x.2 sv
        else .ok (false, x.2)) ≠ _
      by_cases hcap : capacity blob = 0
      · rw [clear_of_capacity hcap]
        exact ok_ne_outside
      · obtain ⟨blob', hclear, hlen, -⟩ := clear_spec hcap
        rw [hclear]
        have hcap' : capacity blob' = capacity blob := by
          unfold capacity
          rw [hlen]
        exact hstable (hcap'.symm ▸ hcap) hsv
  · unfold push
    rw [assert_not hsv]
    exact fun h => Fault.noConfusion (Except.error.inj h)

end Push

/-! ## The iteration -/

section Visit

variable {blob : Key}

/-- The iteration never leaves the value. -/
theorem visit_ne_outside (f : Key → Bool) (hcap : capacity blob ≠ 0) (foot mem : ℕ) :
    visit f blob foot mem ≠ .error .outside := by
  have hlen := add_capacity hcap
  have hread : ∀ {i n : ℕ} {fault : Fault}, i + n ≤ blob.length →
      read blob i n ≠ .error fault := fun h => by
    rw [read_of_le h]
    exact nofun
  fun_induction visit f blob foot mem with
  | case1 mem _ hroom _ hsize =>
    unfold itemBytes at hroom
    exact absurd hsize (hread (by omega))
  | case2 mem _ _ size _ next hroom _ hitem =>
    have hnext : next = mem + (2 + loadBE 2 size) := rfl
    exact absurd hitem (hread (by omega))
  | case3 mem _ _ size _ next _ item _ _ ih =>
    cases hrest : visit f blob foot next with
    | ok rest => exact ok_ne_outside
    | error fault =>
      intro h
      exact ih (hrest.trans (congrArg Except.error (Except.error.inj h)))
  | case4 => exact ok_ne_outside
  | case5 => exact ok_ne_outside
  | case6 => exact ok_ne_outside
  | case7 => exact ok_ne_outside

theorem for_each_eq (f : Key → Bool) (blob : Key) : for_each f blob =
    if capacity blob ≠ 0 ∧ loadBE 4 (slice blob 4 4) ≤ capacity blob then
      visit f blob (loadBE 4 (slice blob 4 4)) 0
    else .ok (false, []) := by
  unfold for_each
  rw [stable_true]
  by_cases h : capacity blob ≠ 0 ∧ loadBE 4 (slice blob 4 4) ≤ capacity blob
  · rw [if_pos h, decide_eq_true h, loadFoot_eq (header_of_capacity h.1)]
    rfl
  · rw [if_neg h, decide_eq_false h]
    rfl

theorem staysInside (blob : Key) : StaysInside blob := by
  refine ⟨push_ne_outside blob, fun f => ?_⟩
  rw [for_each_eq]
  split
  · next h => exact visit_ne_outside f h.1 _ _
  · exact ok_ne_outside

end Visit

/-! ## Lists -/

section Lists

variable {blob blob' sv : Key} {items strings : List Key}

theorem encode_cons (s : Key) (items : List Key) :
    encode (s :: items) = storeBE 2 s.length ++ s ++ encode items := rfl

theorem encode_append (items strings : List Key) :
    encode (items ++ strings) = encode items ++ encode strings := List.flatMap_append

theorem length_encode_cons (s : Key) (items : List Key) :
    (encode (s :: items)).length = itemBytes s.length + (encode items).length := by
  rw [encode_cons, List.length_append, length_item]

theorem length_encode_append (items strings : List Key) :
    (encode (items ++ strings)).length = (encode items).length + (encode strings).length := by
  rw [encode_append, List.length_append]

/-- Every string takes two octets at least. -/
theorem length_le_encode (items : List Key) : items.length ≤ (encode items).length := by
  induction items with
  | nil => exact Nat.zero_le _
  | cons s items ih =>
    rw [length_encode_cons, List.length_cons]
    unfold itemBytes
    omega

/-- What `constexprAccumulate` computes. -/
theorem constexprAccumulate_eq (h : ∀ s ∈ strings, s.length < maxItem) :
    constexprAccumulate strings = .ok (encode strings).length := by
  induction strings with
  | nil => rfl
  | cons s strings ih =>
    obtain ⟨hs, hrest⟩ := List.forall_mem_cons.mp h
    rw [constexprAccumulate, assert_of hs, ih hrest, length_encode_cons]
    rfl

/-- A string that is too long stops it. -/
theorem constexprAccumulate_long (h : ¬∀ s ∈ strings, s.length < maxItem) :
    constexprAccumulate strings = .error .assertion := by
  induction strings with
  | nil => exact absurd (List.forall_mem_nil _) h
  | cons s strings ih =>
    rw [constexprAccumulate]
    by_cases hs : s.length < maxItem
    · rw [assert_of hs, ih fun hrest => h (List.forall_mem_cons.mpr ⟨hs, hrest⟩)]
      rfl
    · rw [assert_not hs]
      rfl

theorem IsList.capacity (h : IsList blob items) : capacity blob = blob.length - listBytes :=
  capacity_eq ((Nat.le_add_right _ _).trans h.fits)

theorem IsList.foot_le (h : IsList blob items) :
    loadBE 4 (slice blob 4 4) ≤ SList.capacity blob := by
  rw [h.foot, h.capacity]
  have := h.fits
  omega

/-- The list of no strings. -/
theorem isList_nil (h : listBytes ≤ blob.length) (hsize : loadBE 4 (slice blob 0 4) = 0)
    (hfoot : loadBE 4 (slice blob 4 4) = 0) : IsList blob [] where
  size := hsize
  foot := hfoot
  fits := h
  data := rfl
  short := List.forall_mem_nil _

/-- A value with more room behind. -/
theorem IsList.append (h : IsList blob items) (more : Key) : IsList (blob ++ more) items where
  size := by
    rw [slice_append_left, h.size]
    exact (Nat.le_add_right_of_le (by decide : 0 + 4 ≤ listBytes)).trans h.fits
  foot := by
    rw [slice_append_left, h.foot]
    exact (Nat.le_add_right_of_le (by decide : 4 + 4 ≤ listBytes)).trans h.fits
  fits := by
    rw [List.length_append]
    exact h.fits.trans (Nat.le_add_right _ _)
  data := by rw [slice_append_left h.fits, h.data]
  short := h.short

/-- One string more. -/
theorem IsList.push (h : IsList blob items) (hlt : blob.length < 2 ^ 32)
    (hpush : Pushed blob sv blob') (hsv : sv.length < maxItem)
    (hroom : (encode items).length + itemBytes sv.length ≤ SList.capacity blob) :
    IsList blob' (items ++ [sv]) := by
  have hcap := h.capacity
  have hfits := h.fits
  have hlen : (encode (items ++ [sv])).length = (encode items).length + itemBytes sv.length := by
    rw [length_encode_append, length_encode_cons]
    rfl
  have hitems := length_le_encode items
  have hitem : 2 ≤ itemBytes sv.length := Nat.le_add_right _ _
  refine ⟨?_, ?_, ?_, ?_, List.forall_mem_append.mpr ⟨h.short, List.forall_mem_singleton.mpr ?_⟩⟩
  · rw [hpush.size, h.size, List.length_append, List.length_singleton, Nat.mod_eq_of_lt]
    omega
  · rw [hpush.foot, h.foot, hlen, Nat.mod_eq_of_lt]
    omega
  · rw [hlen, hpush.length]
    omega
  · have hitem := hpush.item
    rw [h.foot] at hitem
    rw [hlen, slice_add, hitem, hpush.rest _ _ le_rfl (by rw [h.foot]), h.data, encode_append]
    exact congrArg _ (List.append_nil _).symm
  · exact hsv.trans (by decide)

/-- A push where there is room. -/
theorem IsList.exists_push (h : IsList blob items) (hlt : blob.length < 2 ^ 32)
    (hsv : sv.length < maxItem)
    (hroom : listBytes + ((encode items).length + itemBytes sv.length) ≤ blob.length) :
    ∃ blob', SList.push blob sv = .ok (true, blob') ∧ IsList blob' (items ++ [sv]) ∧
      blob'.length = blob.length := by
  have hcap := h.capacity
  have hitems := length_le_encode items
  have hitem : 2 ≤ itemBytes sv.length := Nat.le_add_right _ _
  have hroom' : (encode items).length + itemBytes sv.length ≤ SList.capacity blob := by omega
  have hpos : SList.capacity blob ≠ 0 := by omega
  rw [push_of_stable hpos h.foot_le hsv]
  rcases pushStable_spec hpos hsv with ⟨hno, -⟩ | ⟨-, blob', hpush, hpushed⟩
  · rw [h.size, h.foot] at hno
    unfold maxList at hno
    omega
  · exact ⟨blob', hpush, h.push hlt hpushed hsv hroom', hpushed.length⟩

/-- Pushes where there is room for all of them. -/
theorem IsList.exists_pushAll (h : IsList blob items) (hlt : blob.length < 2 ^ 32)
    (hstrings : ∀ s ∈ strings, s.length < maxItem)
    (hroom : listBytes + ((encode items).length + (encode strings).length) ≤ blob.length) :
    ∃ blob', pushAll strings blob = .ok (true, blob') ∧ IsList blob' (items ++ strings) := by
  induction strings generalizing blob items with
  | nil => exact ⟨blob, rfl, by rwa [List.append_nil]⟩
  | cons s strings ih =>
    obtain ⟨hs, hrest⟩ := List.forall_mem_cons.mp hstrings
    rw [length_encode_cons] at hroom
    obtain ⟨blob1, hpush, h1, hlen⟩ := h.exists_push hlt hs (by omega)
    have hone : (encode (items ++ [s])).length = (encode items).length + itemBytes s.length := by
      rw [length_encode_append, length_encode_cons]
      rfl
    obtain ⟨blob', hall, h'⟩ := ih h1 (hlen ▸ hlt) hrest (by omega)
    refine ⟨blob', ?_, by rwa [List.append_assoc, List.singleton_append] at h'⟩
    rw [pushAll, hpush]
    exact hall

/-- The iteration over what is left of a list. -/
theorem IsList.visit (h : IsList blob items) {pre rest : List Key} (hsplit : pre ++ rest = items) :
    SList.visit (fun _ => true) blob (encode items).length (encode pre).length =
      .ok (true, rest) := by
  have hcap := h.capacity
  have hfits := h.fits
  induction rest generalizing pre with
  | nil =>
    rw [List.append_nil] at hsplit
    rw [SList.visit, dif_neg (hsplit ▸ lt_irrefl _)]
  | cons s rest ih =>
    have hlen : (encode items).length =
        (encode pre).length + (itemBytes s.length + (encode rest).length) := by
      rw [← hsplit, length_encode_append, length_encode_cons]
    have hshort : s.length < 256 ^ 2 := h.short s (hsplit ▸ List.mem_append_right _
      List.mem_cons_self)
    have hbytes : itemBytes s.length = 2 + s.length := rfl
    -- the octets of the string, inside those of the whole list
    have hslice : ∀ j n, j + n ≤ itemBytes s.length →
        slice blob (listBytes + (encode pre).length + j) n =
          slice (storeBE 2 s.length ++ s) j n := by
      intro j n hj
      have hitems : encode items = encode pre ++ ((storeBE 2 s.length ++ s) ++ encode rest) := by
        rw [← hsplit, encode_append, encode_cons]
      have hpart : slice (encode items) (encode pre).length (itemBytes s.length) =
          storeBE 2 s.length ++ s := by
        rw [hitems, ← length_item]
        exact slice_length _ _ _
      rw [← hpart, slice_slice hj, ← h.data, slice_slice (by omega), Nat.add_assoc]
    have hsize : slice blob (listBytes + (encode pre).length) 2 = storeBE 2 s.length := by
      have hzero := hslice 0 2 (by omega)
      rw [Nat.add_zero] at hzero
      rw [hzero, slice_append_left (by rw [storeBE_length])]
      exact List.take_of_length_le (storeBE_length 2 _).le
    have hitem : slice blob (listBytes + (encode pre).length + 2) s.length = s := by
      rw [hslice 2 s.length (by omega)]
      exact (congrArg (List.take _) (List.drop_left' (storeBE_length 2 _))).trans
        (List.take_of_length_le le_rfl)
    have hback : loadBE 2 (storeBE 2 s.length) = s.length := loadBE_storeBE hshort
    have hnext : (encode pre).length + itemBytes s.length = (encode (pre ++ [s])).length := by
      rw [length_encode_append, length_encode_cons]
      rfl
    rw [SList.visit, dif_pos (by omega), if_pos (by unfold itemBytes; omega),
      read_of_le (by omega), hsize]
    dsimp only
    rw [hback, if_pos (by omega), read_of_le (by omega), hitem]
    dsimp only
    rw [if_pos rfl, hnext, ih (by rw [List.append_assoc, List.singleton_append, hsplit])]
    rfl

/-- The iteration yields the strings. -/
theorem IsList.for_each (h : IsList blob items) :
    ∃ complete, SList.for_each (fun _ => true) blob = .ok (complete, items) := by
  rw [for_each_eq]
  by_cases hcap : SList.capacity blob = 0
  · have hitems := length_le_encode items
    have hfits := h.fits
    have hcapacity := h.capacity
    have hnil : items = [] := List.length_eq_zero_iff.mp (by omega)
    rw [if_neg fun hgood => hgood.1 hcap, hnil]
    exact ⟨false, rfl⟩
  · rw [if_pos ⟨hcap, h.foot_le⟩, h.foot]
    exact ⟨true, h.visit (List.nil_append items)⟩

/-- The size that is computed has room for the strings. -/
theorem IsList.bytes (h : IsList blob items) (hstrings : ∀ s ∈ strings, s.length < maxItem)
    (hcount : strings.length < maxList) (capacityMultiply : Bool) :
    ∃ n, SList.bytes blob strings capacityMultiply = .ok n ∧ blob.length ≤ n ∧
      listBytes + ((encode items).length + (encode strings).length) ≤ n := by
  have hfits := h.fits
  have hcap := h.capacity
  unfold SList.bytes
  rw [assert_of hcount, constexprAccumulate_eq hstrings, stable_true]
  by_cases hpos : SList.capacity blob ≠ 0
  · have hmul : ∀ b, b ≤ b * if capacityMultiply = true then 2 else 1 := fun b =>
      Nat.le_mul_of_pos_right b (by split <;> decide)
    rw [decide_eq_true ⟨hpos, h.foot_le⟩, loadFoot_eq (header_of_capacity hpos), h.foot]
    refine ⟨_, rfl, ?_⟩
    have := hmul ((encode strings).length + (encode items).length)
    split <;> omega
  · rw [decide_eq_false fun hgood => hpos hgood.1]
    refine ⟨_, rfl, ?_⟩
    rw [not_not] at hpos
    split <;> omega

end Lists

/-! ## All values -/

/-- Every value stays inside, and a list takes strings exactly if each of them is shorter than the
largest size and if they are fewer than the largest number. -/
theorem addsAll_iff (blob : Key) (strings : List Key) (capacityMultiply : Bool) :
    (StaysInside blob ∧
        ∀ items, IsList blob items → AddsAll blob items strings capacityMultiply) ↔
      ((∃ items, IsList blob items) →
        (∀ s ∈ strings, s.length < maxItem) ∧ strings.length < maxList) := by
  rw [and_iff_right (staysInside blob)]
  constructor
  · rintro hall ⟨items, h⟩
    obtain ⟨n, hn, -⟩ := hall items h
    unfold bytes at hn
    by_cases hcount : strings.length < maxList
    · refine ⟨by_contra fun hlong => ?_, hcount⟩
      rw [assert_of hcount, constexprAccumulate_long hlong] at hn
      exact nomatch hn
    · rw [assert_not hcount] at hn
      exact nomatch hn
  · intro hall items h
    obtain ⟨hstrings, hcount⟩ := hall ⟨items, h⟩
    obtain ⟨n, hn, hgrow, hroom⟩ := h.bytes hstrings hcount capacityMultiply
    refine ⟨n, hn, fun hmax => ?_⟩
    have hlt : n < 2 ^ 32 := hmax.trans_lt (by decide)
    have hlen : (smartMemcpy n blob).length = n := smartMemcpy_length n blob
    have hlist : IsList (smartMemcpy n blob) items := by
      unfold smartMemcpy
      rw [if_pos hgrow]
      exact h.append _
    obtain ⟨blob', hpush, h'⟩ := hlist.exists_pushAll (hlen.symm ▸ hlt) hstrings
      (hlen.symm ▸ hroom)
    obtain ⟨complete, hfor⟩ := h'.for_each
    exact ⟨blob', complete, hpush, hfor, h'.foot_le⟩

/-- For a string of the largest size no size of the value is computed. -/
theorem bytes_largest {s : Key} (hs : s.length = maxItem) (blob : Key) (capacityMultiply : Bool) :
    bytes blob [s] capacityMultiply = .error .assertion := by
  have hcount : [s].length < maxList := (List.length_singleton (a := s)).symm ▸ by decide
  unfold bytes
  rw [assert_of hcount, constexprAccumulate_long fun hshort => ?_]
  · rfl
  · exact absurd (hshort s List.mem_cons_self) (hs ▸ lt_irrefl _)

/-- Such a string is valid. -/
theorem largest_not_added :
    isItemValid (List.replicate maxItem 97) ∧ IsList (List.replicate 9 0) [] ∧
      ¬(StaysInside (List.replicate 9 0) ∧ ∀ items, IsList (List.replicate 9 0) items →
        AddsAll (List.replicate 9 0) items [List.replicate maxItem 97] true) := by
  have hlen : (List.replicate maxItem (97 : Byte)).length = maxItem := List.length_replicate
  have hlist : IsList (List.replicate 9 0) [] := isList_nil (by decide) (by decide) (by decide)
  have hvalid : isItemValid (List.replicate maxItem 97) := by
    unfold isItemValid
    rw [hlen]
    decide
  refine ⟨hvalid, hlist, fun h => ?_⟩
  obtain ⟨n, hn, -⟩ := h.2 [] hlist
  exact nomatch (bytes_largest hlen _ true).symm.trans hn

end HM4.SList
