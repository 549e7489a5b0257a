import HM4.FixedItem
import HM4.General.SlotTable
import Mathlib.Data.List.Induction
import Mathlib.Tactic.Set

/-!
# The Misra-Gries sketch

Few counters are kept for a long stream of items. An item without a counter takes a free one, or all
counters are lowered by one. An item that is frequent enough survives this.
-/

namespace HM4.MisraGries

open Bytes FixedItem SlotTable

/-! ## The code -/

/-- A slot of the sketch. -/
structure Item where
  score : ℕ
  text : Text

/-- `MAX`, the largest `uint64_t`. -/
def MAX : ℕ := 2 ^ 64 - 1

variable (M : ItemType)

/-- `operator bool`. -/
def Item.used (x : Item) : Bool := x.score ≠ 0

/-- `setItem`. -/
def Item.setItem (x : Item) (item : Key) : Item := ⟨1, M.setItem x.text item⟩

/-- `incr`. -/
def Item.incr (x : Item) : Item := if x.score = MAX then x else { x with score := x.score + 1 }

/-- `decr`. -/
def Item.decr (x : Item) : Item := if x.score = 0 then x else { x with score := x.score - 1 }

/-- `clear`. -/
def clear (size : ℕ) : List Item := List.replicate size ⟨0, M.zeros⟩

/-- The first loop of `add`: the slot of the item, or the last free slot. -/
def scan (item : Key) : List Item → ℕ → Option ℕ → Except (ℕ × Item) (Option ℕ)
  | [], _, indexEmptySlot => .ok indexEmptySlot
  | x :: mg, i, indexEmptySlot =>
    if x.used = false then scan item mg (i + 1) (some i)
    else if M.getItem x.text = item then .error (i, x)
    else scan item mg (i + 1) indexEmptySlot

/-- `add`: the new count of the item, and the sketch. -/
def add (mg : List Item) (item : Key) : ℕ × List Item :=
  match scan M item mg 0 none with
  | .error (i, x) => (x.incr.score, mg.set i x.incr)
  | .ok (some i) => (1, mg.modify i (·.setItem M item))
  | .ok none => (0, mg.map Item.decr)

/-- Additions one after another. -/
def run (stream : List Key) (mg : List Item) : List Item :=
  stream.foldl (fun mg item => (add M mg item).2) mg

/-- The count of an item that the sketch keeps, or zero. -/
def estimate (mg : List Item) (item : Key) : ℕ :=
  ((mg.find? fun x => x.used && M.getItem x.text = item).map (·.score)).getD 0

/-- Some slot keeps an item. -/
def Present (mg : List Item) (item : Key) : Prop :=
  ∃ x ∈ mg, x.used = true ∧ M.getItem x.text = item

/-- No counter is at its maximum. -/
def Below (mg : List Item) : Prop := ∀ x ∈ mg, x.score ≠ MAX

variable {M}

/-! ## The sketch as slots -/

/-- A slot with its count. -/
def Item.view (M : ItemType) (x : Item) : Option (Key × ℕ) :=
  if x.used = true then some (M.getItem x.text, x.score) else none

/-- The slots of a sketch. -/
def slots (M : ItemType) (mg : List Item) : Slots Key ℕ := mg.map (·.view M)

section View

variable {mg : List Item} {x : Item} {item : Key}

theorem view_of_used (hx : x.used = true) : x.view M = some (M.getItem x.text, x.score) := if_pos hx

theorem view_of_not_used (hx : x.used = false) : x.view M = none :=
  if_neg (hx ▸ Bool.false_ne_true)

theorem view_eq_some {c : ℕ} :
    x.view M = some (item, c) ↔ x.used = true ∧ M.getItem x.text = item ∧ x.score = c := by
  cases hx : x.used with
  | true =>
    rw [view_of_used hx, Option.some.injEq, Prod.mk.injEq]
    exact (and_iff_right rfl).symm
  | false =>
    rw [view_of_not_used hx]
    exact iff_of_false (Option.some_ne_none _).symm fun h => absurd h.1 Bool.false_ne_true

theorem stores_slots {c : ℕ} : Stores (slots M mg) item c ↔
    ∃ x ∈ mg, x.used = true ∧ M.getItem x.text = item ∧ x.score = c := by
  unfold Stores slots
  rw [List.mem_map]
  exact exists_congr fun x => and_congr_right fun _ => view_eq_some

theorem mem_keys_slots : item ∈ keys (slots M mg) ↔ Present M mg item := by
  rw [mem_keys]
  constructor
  · rintro ⟨c, hc⟩
    obtain ⟨x, hx, hused, hitem, -⟩ := stores_slots.mp hc
    exact ⟨x, hx, hused, hitem⟩
  · rintro ⟨x, hx, hused, hitem⟩
    exact ⟨x.score, stores_slots.mpr ⟨x, hx, hused, hitem, rfl⟩⟩

theorem getElem?_slots (i : ℕ) : (slots M mg)[i]? = mg[i]?.map (·.view M) := List.getElem?_map

theorem slots_set (i : ℕ) (x : Item) : slots M (mg.set i x) = (slots M mg).set i (x.view M) :=
  List.map_set

/-- An item that is put into a slot. -/
theorem view_setItem (x : Item) (h : M.isItemValid item) :
    (x.setItem M item).view M = some (item, 1) :=
  view_eq_some.mpr ⟨rfl, getItem_setItem x.text h, rfl⟩

/-- An item that is counted. -/
theorem view_incr (hmax : x.score ≠ MAX) :
    x.incr.view M = some (M.getItem x.text, x.score + 1) := by
  unfold Item.incr
  rw [if_neg hmax]
  exact view_eq_some.mpr ⟨rfl, rfl, rfl⟩

/-- An item that is lowered. -/
theorem view_decr (x : Item) : x.decr.view M = lower (x.view M) := by
  unfold Item.decr Item.view Item.used lower
  match hx : x.score with
  | 0 => simp [hx]
  | 1 => simp
  | c + 2 => simp

theorem slots_decr (mg : List Item) : slots M (mg.map Item.decr) = (slots M mg).map lower := by
  unfold slots
  rw [List.map_map, List.map_map]
  exact List.map_congr_left fun x _ => view_decr x

/-- The slot that is found. -/
theorem estimate_of_stores (hdistinct : Distinct (slots M mg)) {c : ℕ}
    (h : Stores (slots M mg) item c) : estimate M mg item = c := by
  obtain ⟨x, hx, hused, hitem, -⟩ := stores_slots.mp h
  unfold estimate
  cases hfind : mg.find? fun x => x.used && M.getItem x.text = item with
  | none => exact absurd (List.find?_eq_none.mp hfind x hx) (by simp [hused, hitem])
  | some y =>
    have hy := List.find?_some hfind
    rw [Bool.and_eq_true, decide_eq_true_iff] at hy
    exact hdistinct.unique (stores_slots.mpr ⟨y, List.mem_of_find?_eq_some hfind, hy.1, hy.2, rfl⟩) h

theorem estimate_of_not_present (h : ¬Present M mg item) : estimate M mg item = 0 := by
  unfold estimate
  rw [List.find?_eq_none.mpr fun x hx hfound => ?_]
  · rfl
  · rw [Bool.and_eq_true, decide_eq_true_iff] at hfound
    exact h ⟨x, hx, hfound⟩

end View

/-! ## The loop -/

section Loop

variable {item : Key}

/-- What the loop knows of the slots it has seen. -/
structure Seen (M : ItemType) (item : Key) (pre : List Item) (indexEmptySlot : Option ℕ) :
    Prop where
  new : ∀ x ∈ pre, x.used = true → M.getItem x.text ≠ item
  full : indexEmptySlot = none → ∀ x ∈ pre, x.used = true
  free : ∀ i, indexEmptySlot = some i → ∃ x, pre[i]? = some x ∧ x.used = false

theorem Seen.nil : Seen M item [] none where
  new _ h := absurd h List.not_mem_nil
  full _ _ h := absurd h List.not_mem_nil
  free _ h := absurd h.symm (Option.some_ne_none _)

/-- What the loop ends with. -/
theorem scan_spec {pre rest : List Item} {empty : Option ℕ} (h : Seen M item pre empty) :
    (∃ i x, scan M item rest pre.length empty = .error (i, x) ∧ (pre ++ rest)[i]? = some x ∧
        x.used = true ∧ M.getItem x.text = item) ∨
      ∃ empty', scan M item rest pre.length empty = .ok empty' ∧
        Seen M item (pre ++ rest) empty' := by
  induction rest generalizing pre empty with
  | nil => exact .inr ⟨empty, rfl, by rwa [List.append_nil]⟩
  | cons x rest ih =>
    have hsnoc : pre ++ x :: rest = (pre ++ [x]) ++ rest := by
      rw [List.append_assoc, List.singleton_append]
    have hlen : pre.length + 1 = (pre ++ [x]).length := by
      rw [List.length_append, List.length_singleton]
    rw [scan, hsnoc, hlen]
    by_cases hx : x.used = false
    · rw [if_pos hx]
      refine ih ⟨fun y hy hused => ?_, fun he => absurd he (Option.some_ne_none _), fun i hi => ?_⟩
      · rcases List.mem_append.mp hy with hy | hy
        · exact h.new y hy hused
        · exact absurd (List.mem_singleton.mp hy ▸ hused) (hx ▸ Bool.false_ne_true)
      · obtain rfl := Option.some.inj hi
        exact ⟨x, List.getElem?_concat_length, hx⟩
    rw [if_neg hx]
    rw [Bool.not_eq_false] at hx
    by_cases hitem : M.getItem x.text = item
    · rw [if_pos hitem, ← hsnoc]
      refine .inl ⟨_, _, rfl, ?_, hx, hitem⟩
      rw [List.getElem?_append_right le_rfl, Nat.sub_self]
      rfl
    rw [if_neg hitem]
    refine ih ⟨fun y hy hused => ?_, fun he y hy => ?_, fun i hi => ?_⟩
    · rcases List.mem_append.mp hy with hy | hy
      · exact h.new y hy hused
      · exact List.mem_singleton.mp hy ▸ hitem
    · rcases List.mem_append.mp hy with hy | hy
      · exact h.full he y hy
      · exact List.mem_singleton.mp hy ▸ hx
    · obtain ⟨y, hy, hfree⟩ := h.free i hi
      exact ⟨y, (List.getElem?_append_left (List.getElem?_eq_some_iff.mp hy).1).trans hy, hfree⟩

/-- An addition counts a key in the slots. -/
theorem count_add (hitem : M.isItemValid item) {mg : List Item} (hbelow : Below mg) :
    Count (slots M mg) item (slots M (add M mg item).2) := by
  unfold add
  rcases @scan_spec M item [] mg none Seen.nil with
    ⟨i, x, hscan, hx, hused, rfl⟩ | ⟨s, hscan, hseen⟩
  · rw [List.length_nil] at hscan
    rw [hscan]
    dsimp only
    rw [slots_set, view_incr (hbelow x (List.mem_of_getElem? hx))]
    refine .incr ?_
    rw [getElem?_slots, ← List.nil_append mg, hx, Option.map_some, view_of_used hused]
  · rw [List.length_nil] at hscan
    rw [List.nil_append] at hseen
    have hnew : item ∉ keys (slots M mg) := fun hin => by
      obtain ⟨x, hx, hused, heq⟩ := mem_keys_slots.mp hin
      exact hseen.new x hx hused heq
    rw [hscan]
    cases hs : s with
    | some i =>
      obtain ⟨x, hx, hfree⟩ := hseen.free i hs
      have hlt := (List.getElem?_eq_some_iff.mp hx).1
      have hput : slots M (mg.modify i (·.setItem M item)) =
          (slots M mg).set i (some (item, 1)) := by
        rw [List.modify_eq_set_getElem?, hx]
        exact (slots_set i _).trans (congrArg _ (view_setItem x hitem))
      dsimp only
      rw [hput]
      refine .fill hnew ?_
      rw [getElem?_slots, hx, Option.map_some, view_of_not_used hfree]
    | none =>
      dsimp only
      rw [slots_decr]
      refine .decr hnew fun hin => ?_
      obtain ⟨x, hx, hnone⟩ := List.mem_map.mp hin
      rw [view_of_used (hseen.full hs x hx)] at hnone
      exact absurd hnone (Option.some_ne_none _)

end Loop

/-! ## Whole streams -/

section Streams

variable {size : ℕ} {stream : List Key}

theorem run_concat (mg : List Item) (item : Key) :
    run M (stream ++ [item]) mg = (add M (run M stream mg) item).2 := by
  unfold run
  rw [List.foldl_append]
  rfl

/-- No counter is above the number of additions. -/
theorem score_le_length (stream : List Key) : ∀ x ∈ run M stream (clear M size),
    x.score ≤ stream.length := by
  induction stream using List.reverseRecOn with
  | nil =>
    intro x hx
    rw [List.eq_of_mem_replicate hx]
    exact le_rfl
  | append_singleton stream item ih =>
    rw [run_concat, List.length_append, List.length_singleton]
    intro x hx
    unfold add at hx
    rcases @scan_spec M item [] (run M stream (clear M size)) none Seen.nil with
      ⟨i, y, hscan, hy, -, -⟩ | ⟨s, hscan, -⟩
    · rw [List.length_nil] at hscan
      rw [hscan] at hx
      rcases List.mem_or_eq_of_mem_set hx with hx | rfl
      · exact (ih x hx).trans (Nat.le_succ _)
      · have := ih y (List.mem_of_getElem? hy)
        unfold Item.incr
        split
        · exact this.trans (Nat.le_succ _)
        · exact Nat.succ_le_succ this
    · rw [List.length_nil] at hscan
      rw [hscan] at hx
      cases s with
      | some i =>
        obtain ⟨j, hj⟩ := List.mem_iff_getElem?.mp hx
        rw [List.getElem?_modify] at hj
        obtain ⟨y, hy, hjy⟩ := Option.map_eq_some_iff.mp hj
        have := ih y (List.mem_of_getElem? hy)
        split at hjy
        · exact hjy ▸ Nat.succ_le_succ (Nat.zero_le _)
        · exact hjy ▸ this.trans (Nat.le_succ _)
      | none =>
        obtain ⟨y, hy, rfl⟩ := List.mem_map.mp hx
        have := ih y hy
        unfold Item.decr
        split
        · exact this.trans (Nat.le_succ _)
        · exact (Nat.sub_le _ _).trans (this.trans (Nat.le_succ _))

/-- Counters reach their maximum only in streams that are as long. -/
theorem below_of_length_lt (h : stream.length < MAX) (before : List Key)
    (hbefore : before <+: stream) : Below (run M before (clear M size)) := fun x hx =>
  (((score_le_length before x hx).trans hbefore.length_le).trans_lt h).ne

theorem length_run : (run M stream (clear M size)).length = size := by
  induction stream using List.reverseRecOn with
  | nil => exact List.length_replicate
  | append_singleton stream item ih =>
    have hadd : ∀ mg : List Item, (add M mg item).2.length = mg.length := fun mg => by
      unfold add
      split
      · exact List.length_set ..
      · exact List.length_modify ..
      · exact List.length_map _
    rw [run_concat, hadd, ih]

/-- The sketch keeps what is frequent in the stream. -/
theorem frequent_run (hitems : ∀ item ∈ stream, M.isItemValid item)
    (hbelow : ∀ before, before <+: stream → Below (run M before (clear M size))) :
    ∃ rounds, Frequent (slots M (run M stream (clear M size))) stream rounds := by
  induction stream using List.reverseRecOn with
  | nil =>
    have hclear : slots M (clear M size) = List.replicate size none := by
      unfold slots clear
      rw [List.map_replicate]
      rfl
    exact ⟨0, (congrArg (Frequent · [] 0) hclear).mpr (frequent_nil size)⟩
  | append_singleton stream item ih =>
    obtain ⟨hstream, hitem⟩ := List.forall_mem_append.mp hitems
    obtain ⟨rounds, h⟩ := ih hstream fun before hbefore =>
      hbelow before (hbefore.trans (List.prefix_append _ _))
    rw [run_concat]
    exact h.step (count_add (hitem item List.mem_cons_self) (hbelow _ (List.prefix_append _ _)))

/-- The estimate of an item is at most its frequency, and less than it by at most the length of the
stream over the number of slots and one. An item that is more frequent than this is present. -/
theorem estimate_bounds (M : ItemType) (size : ℕ) (stream : List Key)
    (hitems : ∀ item ∈ stream, M.isItemValid item)
    (hbelow : ∀ before, before <+: stream → Below (run M before (clear M size))) (item : Key) :
    estimate M (run M stream (clear M size)) item ≤ stream.count item ∧
      (size + 1) * stream.count item ≤
        (size + 1) * estimate M (run M stream (clear M size)) item + stream.length ∧
      (stream.length < (size + 1) * stream.count item →
        Present M (run M stream (clear M size)) item) := by
  obtain ⟨rounds, h⟩ := frequent_run hitems hbelow
  set mg := run M stream (clear M size) with hmg
  have hsize : (slots M mg).length = size := (List.length_map _).trans length_run
  have hrounds : (size + 1) * rounds ≤ stream.length := hsize ▸ h.rounds_le
  by_cases hin : Present M mg item
  · obtain ⟨c, hc⟩ := mem_keys.mp (mem_keys_slots.mpr hin)
    obtain ⟨hle, hge⟩ := h.counts item c hc
    rw [estimate_of_stores h.distinct hc]
    refine ⟨hle, ?_, fun _ => hin⟩
    calc (size + 1) * stream.count item ≤ (size + 1) * (c + rounds) := Nat.mul_le_mul_left _ hge
      _ = (size + 1) * c + (size + 1) * rounds := Nat.mul_add _ _ _
      _ ≤ (size + 1) * c + stream.length := Nat.add_le_add_left hrounds _
  · have hlost : (size + 1) * stream.count item ≤ stream.length :=
      (Nat.mul_le_mul_left _ (h.lost item fun h' => hin (mem_keys_slots.mp h'))).trans hrounds
    rw [estimate_of_not_present hin]
    refine ⟨Nat.zero_le _, ?_, fun hlt => absurd hlt (not_lt.mpr hlost)⟩
    rw [Nat.mul_zero, Nat.zero_add]
    exact hlost

theorem estimate_bounds_one_slot :
    estimate raw16 (run raw16 [[97], [98], [97], [97]] (clear raw16 1)) [97] ≤ 3 ∧
      2 * 3 ≤ 2 * estimate raw16 (run raw16 [[97], [98], [97], [97]] (clear raw16 1)) [97] + 4 ∧
      (4 < 2 * 3 → Present raw16 (run raw16 [[97], [98], [97], [97]] (clear raw16 1)) [97]) :=
  estimate_bounds raw16 1 [[97], [98], [97], [97]] (by decide)
    (below_of_length_lt (by decide)) [97]

end Streams

end HM4.MisraGries
