import HM4.FixedItem
import HM4.General.SlotTable
import Mathlib.Data.List.Induction
import Mathlib.Tactic.Set

/-!
# Heavy hitters

The table keeps the items with the largest scores of a stream, or those with the smallest, each with
its best score. Items that went out of it are forgotten.
-/

namespace HM4.HeavyHitter

open Bytes FixedItem SlotTable

/-! ## The code -/

/-- A slot of the table. -/
structure Item where
  score : Int64
  text : Text

/-- `Comparator`: the first score is better. -/
def comp (up : Bool) (a b : Int64) : Bool := if up = true then a > b else a < b

/-- `start`: no score is worse. -/
def start (up : Bool) : Int64 := if up = true then Int64.maxValue else Int64.minValue

variable (M : ItemType)

/-- `operator bool`. -/
def Item.used (x : Item) : Bool := x.text.size ≠ 0

/-- `set` of a score. -/
def Item.setScore (x : Item) (score : Int64) : Item := { x with score := score }

/-- `set` of a score and an item. -/
def Item.set (x : Item) (score : Int64) (item : Key) : Item := ⟨score, M.setItem x.text item⟩

/-- `clear`. -/
def clear (size : ℕ) : List Item := List.replicate size ⟨0, M.zeros⟩

/-- The variables of the loop of `add`. -/
structure Scan where
  minScore : Int64
  indexMinScore : Option ℕ
  indexEmptySlot : Option ℕ

/-- The loop of `add`: the slot of the item, or what the loop has seen. -/
def scan (up : Bool) (item : Key) : List Item → ℕ → Scan → Except (ℕ × Item) Scan
  | [], _, s => .ok s
  | x :: items, i, s =>
    if x.used = false then scan up item items (i + 1) { s with indexEmptySlot := some i }
    else if M.getItem x.text = item then .error (i, x)
    else if comp up s.minScore x.score = true then
      scan up item items (i + 1) { s with indexMinScore := some i, minScore := x.score }
    else scan up item items (i + 1) s

/-- `add`. -/
def add (up : Bool) (hh : List Item) (item : Key) (score : Int64) : Bool × List Item :=
  match scan M up item hh 0 ⟨start up, none, none⟩ with
  | .error (i, x) =>
    if comp up score x.score = true then (true, hh.set i (x.setScore score)) else (false, hh)
  | .ok s =>
    match s.indexEmptySlot with
    | some i => (true, hh.modify i (·.set M score item))
    | none =>
      match s.indexMinScore with
      | some i =>
        if comp up score s.minScore = true then (true, hh.modify i (·.set M score item))
        else (false, hh)
      | none => (false, hh)

/-- Additions one after another. -/
def run (up : Bool) (stream : List (Key × Int64)) (hh : List Item) : List Item :=
  stream.foldl (fun hh x => (add M up hh x.1 x.2).2) hh

/-! ## What it is for -/

/-- The items of the table. -/
def items (hh : List Item) : List Key :=
  (hh.filter (·.used)).map fun x => M.getItem x.text

/-- The best score of an item in a stream. -/
def Best (up : Bool) (stream : List (Key × Int64)) (item : Key) (score : Int64) : Prop :=
  (item, score) ∈ stream ∧ ∀ other, (item, other) ∈ stream → comp up other score = false

/-- The table keeps as many different items as it has slots for, each with its best score, and no
other item has a better one. -/
structure TopScores (up : Bool) (size : ℕ) (stream : List (Key × Int64)) (hh : List Item) :
    Prop where
  nodup : (items M hh).Nodup
  count : (items M hh).length = min size (stream.map Prod.fst).dedup.length
  best : ∀ x ∈ hh, x.used = true → Best up stream (M.getItem x.text) x.score
  rest : ∀ item score, Best up stream item score → item ∉ items M hh →
    ∀ x ∈ hh, x.used = true → comp up score x.score = false

/-- An item that the stream had, and that has no slot, gets one only by a score that is better than
all it had. -/
def ReturnsBetter (up : Bool) (size : ℕ) (stream : List (Key × Int64)) : Prop :=
  ∀ before item score, before ++ [(item, score)] <+: stream →
    item ∉ items M (run M up before (clear M size)) →
      item ∈ items M (run M up (before ++ [(item, score)]) (clear M size)) →
        ∀ other, (item, other) ∈ before → comp up score other = true

variable {M}

/-! ## Scores -/

/-- A number that is larger for a better score. -/
def rank (up : Bool) (score : Int64) : ℤ := if up = true then score.toInt else -score.toInt

theorem comp_iff {up : Bool} {a b : Int64} : comp up a b = true ↔ rank up b < rank up a := by
  cases up with
  | true =>
    unfold comp rank
    rw [if_pos rfl, if_pos rfl, if_pos rfl, decide_eq_true_iff]
    exact Int64.lt_iff_toInt_lt
  | false =>
    unfold comp rank
    rw [if_neg Bool.false_ne_true, if_neg Bool.false_ne_true, if_neg Bool.false_ne_true,
      decide_eq_true_iff, Int64.lt_iff_toInt_lt]
    exact neg_lt_neg_iff.symm

theorem comp_eq_false_iff {up : Bool} {a b : Int64} :
    comp up a b = false ↔ rank up a ≤ rank up b := by
  rw [← Bool.not_eq_true, comp_iff, not_lt]

theorem rank_injective {up : Bool} {a b : Int64} (h : rank up a = rank up b) : a = b := by
  refine Int64.toInt_inj.mp ?_
  cases up with
  | true => exact h
  | false => exact neg_injective h

/-- Every score is better than the first one, or equal to it. -/
theorem rank_le_start (up : Bool) (score : Int64) : rank up score ≤ rank up (start up) := by
  cases up with
  | true => exact score.toInt_le
  | false => exact neg_le_neg score.minValue_le_toInt

/-! ## The table as slots -/

/-- A slot with the rank of its score. -/
def Item.view (M : ItemType) (up : Bool) (x : Item) : Option (Key × ℤ) :=
  if x.used = true then some (M.getItem x.text, rank up x.score) else none

/-- The slots of a table. -/
def slots (M : ItemType) (up : Bool) (hh : List Item) : Slots Key ℤ := hh.map (·.view M up)

/-- A stream with the ranks of its scores. -/
def ranked (up : Bool) (stream : List (Key × Int64)) : List (Key × ℤ) :=
  stream.map fun x => (x.1, rank up x.2)

section View

variable {up : Bool} {hh : List Item} {x : Item} {item : Key} {score : Int64}

theorem view_eq_some {v : ℤ} : x.view M up = some (item, v) ↔
    x.used = true ∧ M.getItem x.text = item ∧ rank up x.score = v := by
  unfold Item.view
  split
  · next h =>
    rw [Option.some.injEq, Prod.mk.injEq]
    exact (and_iff_right h).symm
  · next h => exact iff_of_false (Option.some_ne_none _).symm fun h' => h h'.1

theorem view_eq_none : x.view M up = none ↔ x.used = false := by
  unfold Item.view
  split
  · next h => exact iff_of_false (Option.some_ne_none _) (Bool.not_eq_false _ ▸ h)
  · next h => exact iff_of_true rfl (Bool.not_eq_true _ ▸ h)

theorem stores_slots {v : ℤ} : Stores (slots M up hh) item v ↔
    ∃ x ∈ hh, x.used = true ∧ M.getItem x.text = item ∧ rank up x.score = v := by
  unfold Stores slots
  rw [List.mem_map]
  exact exists_congr fun x => and_congr_right fun _ => view_eq_some

theorem keys_slots : keys (slots M up hh) = items M hh := by
  unfold keys slots items
  induction hh with
  | nil => rfl
  | cons x hh ih =>
    rw [List.map_cons, List.filterMap_cons, List.filter_cons, Item.view]
    cases hx : x.used with
    | true => simpa using ih
    | false => simpa using ih

theorem getElem?_slots (i : ℕ) : (slots M up hh)[i]? = hh[i]?.map (·.view M up) :=
  List.getElem?_map

theorem view_set (x : Item) (score : Int64) (h : M.isItemValid item) :
    (x.set M score item).view M up = some (item, rank up score) :=
  view_eq_some.mpr ⟨decide_eq_true (size_setItem_ne_zero x.text h), getItem_setItem x.text h, rfl⟩

/-- An item that is put into a slot. -/
theorem slots_modify (h : M.isItemValid item) (i : ℕ) :
    slots M up (hh.modify i (·.set M score item)) =
      (slots M up hh).set i (some (item, rank up score)) := by
  have hlen : (slots M up hh).length = hh.length := List.length_map _
  refine List.ext_getElem? fun j => ?_
  rw [getElem?_slots, List.getElem?_modify, List.getElem?_set, hlen, getElem?_slots]
  by_cases hij : i = j
  · subst hij
    by_cases hlt : i < hh.length
    · simp only [if_true, if_pos hlt, List.getElem?_eq_getElem hlt, Option.map_eq_map,
        Option.map_some, view_set _ score h]
    · simp only [if_true, if_neg hlt, List.getElem?_eq_none (not_lt.mp hlt), Option.map_eq_map,
        Option.map_none]
  · simp only [if_neg hij, Option.map_eq_map, Option.map_id']

/-- A new score of an item. -/
theorem slots_setScore {i : ℕ} (hx : x.used = true) :
    slots M up (hh.set i (x.setScore score)) =
      (slots M up hh).set i (some (M.getItem x.text, rank up score)) := by
  unfold slots
  rw [List.map_set]
  exact congrArg _ (view_eq_some.mpr ⟨hx, rfl, rfl⟩)

end View

/-! ## The loop -/

section Loop

variable {up : Bool} {item : Key} {score : Int64}

/-- What the loop knows of the slots it has seen. -/
structure Seen (M : ItemType) (up : Bool) (item : Key) (pre : List Item) (s : Scan) : Prop where
  new : ∀ x ∈ pre, x.used = true → M.getItem x.text ≠ item
  full : s.indexEmptySlot = none → ∀ x ∈ pre, x.used = true
  free : ∀ i, s.indexEmptySlot = some i → ∃ x, pre[i]? = some x ∧ x.used = false
  least : ∀ x ∈ pre, x.used = true → rank up s.minScore ≤ rank up x.score
  least_at : ∀ i, s.indexMinScore = some i →
    ∃ x, pre[i]? = some x ∧ x.used = true ∧ x.score = s.minScore
  least_none : s.indexMinScore = none → s.minScore = start up

theorem Seen.nil : Seen M up item [] ⟨start up, none, none⟩ where
  new _ h := absurd h List.not_mem_nil
  full _ _ h := absurd h List.not_mem_nil
  free _ h := absurd h.symm (Option.some_ne_none _)
  least _ h := absurd h List.not_mem_nil
  least_at _ h := absurd h.symm (Option.some_ne_none _)
  least_none _ := rfl

theorem getElem?_append_some {pre : List Item} {x y : Item} {i : ℕ} (h : pre[i]? = some x) :
    (pre ++ [y])[i]? = some x :=
  (List.getElem?_append_left (List.getElem?_eq_some_iff.mp h).1).trans h

/-- A free slot. -/
theorem Seen.snoc_free {pre : List Item} {s : Scan} (h : Seen M up item pre s) {x : Item}
    (hx : x.used = false) :
    Seen M up item (pre ++ [x]) { s with indexEmptySlot := some pre.length } where
  new y hy hused := by
    rcases List.mem_append.mp hy with hy | hy
    · exact h.new y hy hused
    · exact absurd (List.mem_singleton.mp hy ▸ hused) (hx ▸ Bool.false_ne_true)
  full he := absurd he (Option.some_ne_none _)
  free i hi := by
    obtain rfl := Option.some.inj hi
    exact ⟨x, List.getElem?_concat_length, hx⟩
  least y hy hused := by
    rcases List.mem_append.mp hy with hy | hy
    · exact h.least y hy hused
    · exact absurd (List.mem_singleton.mp hy ▸ hused) (hx ▸ Bool.false_ne_true)
  least_at i hi := by
    obtain ⟨y, hy, hrest⟩ := h.least_at i hi
    exact ⟨y, getElem?_append_some hy, hrest⟩
  least_none := h.least_none

/-- A slot of another item. -/
theorem Seen.snoc_used {pre : List Item} {s s' : Scan} (h : Seen M up item pre s) {x : Item}
    (hx : x.used = true) (hne : M.getItem x.text ≠ item)
    (hempty : s'.indexEmptySlot = s.indexEmptySlot)
    (hleast : rank up s'.minScore ≤ rank up x.score)
    (hmin : comp up s.minScore x.score = true ∧ s'.indexMinScore = some pre.length ∧
        s'.minScore = x.score ∨ s' = s) : Seen M up item (pre ++ [x]) s' where
  new y hy hused := by
    rcases List.mem_append.mp hy with hy | hy
    · exact h.new y hy hused
    · exact List.mem_singleton.mp hy ▸ hne
  full he y hy := by
    rcases List.mem_append.mp hy with hy | hy
    · exact h.full (hempty ▸ he) y hy
    · exact List.mem_singleton.mp hy ▸ hx
  free i hi := by
    obtain ⟨y, hy, hfree⟩ := h.free i (hempty ▸ hi)
    exact ⟨y, getElem?_append_some hy, hfree⟩
  least y hy hused := by
    rcases List.mem_append.mp hy with hy | hy
    · rcases hmin with ⟨hcomp, -, heq⟩ | rfl
      · exact heq ▸ ((comp_iff.mp hcomp).le.trans (h.least y hy hused))
      · exact h.least y hy hused
    · exact List.mem_singleton.mp hy ▸ hleast
  least_at i hi := by
    rcases hmin with ⟨-, hat, heq⟩ | rfl
    · obtain rfl := Option.some.inj (hat.symm.trans hi)
      exact ⟨x, List.getElem?_concat_length, hx, heq.symm⟩
    · obtain ⟨y, hy, hrest⟩ := h.least_at i hi
      exact ⟨y, getElem?_append_some hy, hrest⟩
  least_none hnone := by
    rcases hmin with ⟨-, hat, -⟩ | rfl
    · exact absurd (hat.symm.trans hnone) (Option.some_ne_none _)
    · exact h.least_none hnone

/-- What the loop ends with. -/
theorem scan_spec {pre rest : List Item} {s : Scan} (h : Seen M up item pre s) :
    (∃ i x, scan M up item rest pre.length s = .error (i, x) ∧ (pre ++ rest)[i]? = some x ∧
        x.used = true ∧ M.getItem x.text = item) ∨
      ∃ s', scan M up item rest pre.length s = .ok s' ∧ Seen M up item (pre ++ rest) s' := by
  induction rest generalizing pre s with
  | nil => exact .inr ⟨s, rfl, by rwa [List.append_nil]⟩
  | cons x rest ih =>
    have hsnoc : pre ++ x :: rest = (pre ++ [x]) ++ rest := by
      rw [List.append_assoc, List.singleton_append]
    have hlen : pre.length + 1 = (pre ++ [x]).length := by
      rw [List.length_append, List.length_singleton]
    rw [scan, hsnoc, hlen]
    by_cases hx : x.used = false
    · rw [if_pos hx]
      exact ih (h.snoc_free hx)
    rw [if_neg hx]
    rw [Bool.not_eq_false] at hx
    by_cases hitem : M.getItem x.text = item
    · rw [if_pos hitem, ← hsnoc]
      refine .inl ⟨_, _, rfl, ?_, hx, hitem⟩
      rw [List.getElem?_append_right le_rfl, Nat.sub_self]
      rfl
    rw [if_neg hitem]
    by_cases hcomp : comp up s.minScore x.score = true
    · rw [if_pos hcomp]
      exact ih (h.snoc_used hx hitem rfl le_rfl (.inl ⟨hcomp, rfl, rfl⟩))
    · rw [if_neg hcomp]
      rw [Bool.not_eq_true, comp_eq_false_iff] at hcomp
      exact ih (h.snoc_used hx hitem rfl hcomp (.inr rfl))

/-- An addition is an offer to the slots. -/
theorem offer_add (hitem : M.isItemValid item) (hh : List Item) :
    Offer (slots M up hh) item (rank up score) (slots M up (add M up hh item score).2) := by
  have hslot : ∀ {i : ℕ} {x : Item}, hh[i]? = some x →
      (slots M up hh)[i]? = some (x.view M up) := fun hx => by rw [getElem?_slots, hx]; rfl
  have hused : ∀ {x : Item}, x.used = true →
      x.view M up = some (M.getItem x.text, rank up x.score) := fun hx =>
    view_eq_some.mpr ⟨hx, rfl, rfl⟩
  unfold add
  rcases @scan_spec M up item [] hh _ Seen.nil with ⟨i, x, hscan, hx, hlive, rfl⟩ | ⟨s, hscan, hseen⟩
  · rw [List.length_nil] at hscan
    have hold := (hslot hx).trans (congrArg some (hused hlive))
    rw [hscan]
    dsimp only
    by_cases hcomp : comp up score x.score = true
    · rw [if_pos hcomp]
      dsimp only
      rw [slots_setScore hlive]
      exact .improve hold (comp_iff.mp hcomp)
    · rw [if_neg hcomp]
      rw [Bool.not_eq_true, comp_eq_false_iff] at hcomp
      exact .keep (List.mem_of_getElem? hold) hcomp
  · rw [List.length_nil] at hscan
    rw [List.nil_append] at hseen
    have hnew : item ∉ keys (slots M up hh) := fun hin => by
      obtain ⟨v, hv⟩ := mem_keys.mp hin
      obtain ⟨x, hx, hlive, heq, -⟩ := stores_slots.mp hv
      exact hseen.new x hx hlive heq
    have hleast : ∀ q w, Stores (slots M up hh) q w → rank up s.minScore ≤ w := fun q w hw => by
      obtain ⟨x, hx, hlive, -, rfl⟩ := stores_slots.mp hw
      exact hseen.least x hx hlive
    rw [hscan]
    dsimp only
    cases hempty : s.indexEmptySlot with
    | some i =>
      obtain ⟨x, hx, hfree⟩ := hseen.free i hempty
      dsimp only
      rw [slots_modify hitem]
      exact .fill hnew ((hslot hx).trans (congrArg some (view_eq_none.mpr hfree)))
    | none =>
      have hfull : none ∉ slots M up hh := fun hin => by
        obtain ⟨x, hx, hnone⟩ := List.mem_map.mp hin
        exact absurd (hseen.full hempty x hx) (view_eq_none.mp hnone ▸ Bool.false_ne_true)
      dsimp only
      cases hmin : s.indexMinScore with
      | some i =>
        obtain ⟨x, hx, hlive, hscore⟩ := hseen.least_at i hmin
        dsimp only
        by_cases hcomp : comp up score s.minScore = true
        · rw [if_pos hcomp]
          dsimp only
          rw [slots_modify hitem]
          exact .evict hnew hfull ((hslot hx).trans (congrArg some (hused hlive)))
            (hscore ▸ hleast) (hscore ▸ comp_iff.mp hcomp)
        · rw [if_neg hcomp]
          rw [Bool.not_eq_true, comp_eq_false_iff] at hcomp
          exact .skip hnew hfull fun q w hw => hcomp.trans (hleast q w hw)
      | none =>
        refine .skip hnew hfull fun q w hw => (rank_le_start up score).trans ?_
        exact hseen.least_none hmin ▸ hleast q w hw

end Loop

/-! ## Whole streams -/

section Streams

variable {up : Bool} {size : ℕ} {stream : List (Key × Int64)}

theorem run_concat (hh : List Item) (item : Key) (score : Int64) :
    run M up (stream ++ [(item, score)]) hh = (add M up (run M up stream hh) item score).2 := by
  unfold run
  rw [List.foldl_append]
  rfl

theorem ranked_concat (item : Key) (score : Int64) :
    ranked up (stream ++ [(item, score)]) = ranked up stream ++ [(item, rank up score)] := by
  unfold ranked
  rw [List.map_append]
  rfl

theorem mem_ranked {item : Key} {score : Int64} :
    (item, rank up score) ∈ ranked up stream ↔ (item, score) ∈ stream := by
  unfold ranked
  rw [List.mem_map]
  constructor
  · rintro ⟨⟨r, x⟩, hx, heq⟩
    obtain ⟨rfl, hrank⟩ := Prod.mk.inj heq
    exact rank_injective hrank ▸ hx
  · exact fun h => ⟨_, h, rfl⟩

/-- The slots lead the stream. -/
theorem leads_run (hitems : ∀ x ∈ stream, M.isItemValid x.1) :
    Leads (slots M up (run M up stream (clear M size))) (ranked up stream) := by
  induction stream using List.reverseRecOn with
  | nil =>
    have hclear : slots M up (clear M size) = List.replicate size none := by
      unfold slots clear
      rw [List.map_replicate]
      rfl
    exact (congrArg (Leads · _) hclear).mpr (leads_nil size)
  | append_singleton stream x ih =>
    obtain ⟨hstream, hx⟩ := List.forall_mem_append.mp hitems
    rw [run_concat, ranked_concat]
    exact (ih hstream).offer (offer_add (hx x List.mem_cons_self) _)

theorem length_run : (run M up stream (clear M size)).length = size := by
  induction stream using List.reverseRecOn with
  | nil => exact List.length_replicate
  | append_singleton stream x ih =>
    have hadd : ∀ hh : List Item, (add M up hh x.1 x.2).2.length = hh.length := fun hh => by
      unfold add
      split
      · split
        · exact List.length_set ..
        · rfl
      · split
        · exact List.length_modify ..
        · split
          · split
            · exact List.length_modify ..
            · rfl
          · rfl
    rw [run_concat, hadd, ih]

/-- After every stream the table keeps the best scores, and items that went out of it come back only
by better ones. -/
theorem top_scores (M : ItemType) (up : Bool) (size : ℕ) (stream : List (Key × Int64))
    (hitems : ∀ x ∈ stream, M.isItemValid x.1) :
    TopScores M up size stream (run M up stream (clear M size)) ∧
      ReturnsBetter M up size stream := by
  have hleads := @leads_run M up size stream hitems
  set hh := run M up stream (clear M size) with hhh
  have hstores : ∀ x ∈ hh, x.used = true →
      Stores (slots M up hh) (M.getItem x.text) (rank up x.score) := fun x hx hlive =>
    stores_slots.mpr ⟨x, hx, hlive, rfl, rfl⟩
  refine ⟨⟨?_, ?_, fun x hx hlive => ?_, fun item score hbest hout x hx hlive => ?_⟩, ?_⟩
  · exact @keys_slots M up hh ▸ hleads.distinct.nodup_keys
  · have hcount := hleads.length_keys
    have hkeys : (ranked up stream).map Prod.fst = stream.map Prod.fst := by
      unfold ranked
      rw [List.map_map]
      rfl
    have hsize : (slots M up hh).length = size := (List.length_map _).trans length_run
    rwa [keys_slots, hkeys, hsize] at hcount
  · obtain ⟨hin, hle⟩ := hleads.best _ _ (hstores x hx hlive)
    exact ⟨mem_ranked.mp hin, fun other ho => comp_eq_false_iff.mpr (hle _ (mem_ranked.mpr ho))⟩
  · have hout' : item ∉ keys (slots M up hh) := @keys_slots M up hh ▸ hout
    obtain ⟨-, hle⟩ := hleads.rest item _ (mem_ranked.mpr hbest.1) hout'
    exact comp_eq_false_iff.mpr (hle _ _ (hstores x hx hlive))
  · intro before item score hbefore hout hin other ho
    have hvalid : ∀ x ∈ before ++ [(item, score)], M.isItemValid x.1 := fun x hx =>
      hitems x (hbefore.subset hx)
    obtain ⟨hbefores, hitem⟩ := List.forall_mem_append.mp hvalid
    rw [run_concat, ← @keys_slots M up] at hin
    rw [← @keys_slots M up] at hout
    exact comp_iff.mpr ((leads_run hbefores).returns
      (offer_add (hitem _ List.mem_cons_self) _) hout hin (mem_ranked.mpr ho))

theorem top_scores_one_slot :
    TopScores raw16 true 1 [([97], 3), ([98], 5), ([97], 4)]
        (run raw16 true [([97], 3), ([98], 5), ([97], 4)] (clear raw16 1)) ∧
      ReturnsBetter raw16 true 1 [([97], 3), ([98], 5), ([97], 4)] :=
  top_scores raw16 true 1 [([97], 3), ([98], 5), ([97], 4)] (by decide)

end Streams

end HM4.HeavyHitter
