import HM4.SketchRuns

/-!
# Sizes of sketches

The commands compare the size of a table with the size of a value after they have computed it in
64 bits. A table whose size goes round may pass although its cells lie far behind the value.
-/

namespace HM4.SketchSizes

open Bytes Pairs PairFactory MemList Database VFactory Sketch SketchRuns

/-! ## Additions and removals -/

/-- `safe_overflow::decr` of an unsigned type. -/
def safeDecr (a x : ℕ) : ℕ := if 0 < x ∧ a < x then 0 else a - x

/-- `incr<Sign, T>`: the increment is cast. -/
def incrSign (sign : Bool) (bits val inc : ℕ) : ℕ :=
  if sign then safeIncr bits val (inc % 2 ^ bits) else safeDecr val (inc % 2 ^ bits)

/-- `incr<Sign, T>` of a counter; one that lies behind the value changes nothing here. -/
def changeCell (sign : Bool) (sizeofT : ℕ) (data : Key) (k inc : ℕ) : Key :=
  match getCell sizeofT data k with
  | some a => setCell sizeofT data k (incrSign sign (8 * sizeofT) a inc)
  | none => data

section Table

variable (sign : Bool) (s : Table) (hash : Hash)

/-- `add<Sign>`. -/
def changeItem (data item : Key) (n : ℕ) : Key :=
  (places s hash item).foldl (fun data k => changeCell sign s.sizeofT data k n) data

/-- `add_count<Sign>`: the count, and the table. -/
def changeCount (data item : Key) (n : ℕ) : Option ℕ × Key :=
  (places s hash item).foldl
    (fun (r : Option ℕ × Key) k =>
      let data := changeCell sign s.sizeofT r.2 k n
      (r.1.bind fun count => (getCell s.sizeofT data k).map fun x => min count x, data))
    (some (2 ^ 64 - 1), data)

end Table

theorem length_changeCell (sign : Bool) (sizeofT : ℕ) (data : Key) (k inc : ℕ) :
    (changeCell sign sizeofT data k inc).length = data.length := by
  unfold changeCell getCell
  by_cases h : k * sizeofT + sizeofT ≤ data.length
  · rw [if_pos h]
    exact length_setCell h _
  · rw [if_neg h]

theorem length_changeItem (sign : Bool) (s : Table) (hash : Hash) (data item : Key) (n : ℕ) :
    (changeItem sign s hash data item n).length = data.length := by
  unfold changeItem
  induction places s hash item generalizing data with
  | nil => rfl
  | cons k ks ih => exact (ih _).trans (length_changeCell _ _ _ _ _)

/-- `add_count` leaves the table of `add`. -/
theorem changeCount_snd (sign : Bool) (s : Table) (hash : Hash) (data item : Key) (n : ℕ) :
    (changeCount sign s hash data item n).2 = changeItem sign s hash data item n := by
  unfold changeCount changeItem
  generalize some (2 ^ 64 - 1) = r
  induction places s hash item generalizing data r with
  | nil => rfl
  | cons k ks ih => exact ih _ _

theorem foldl_changeItem_length (sign : Bool) (s : Table) (hash : Hash) (xs : List (Key × ℕ))
    (data : Key) :
    (xs.foldl (fun data x => changeItem sign s hash data x.1 x.2) data).length = data.length := by
  induction xs generalizing data with
  | nil => rfl
  | cons x xs ih => exact (ih _).trans (length_changeItem sign s hash data x.1 x.2)

/-- `CMSADD_Factory::action` and `CBFADD_Factory::action`. -/
def changeAction (sign : Bool) (s : Table) (hash : Hash) (xs : List (Key × ℕ)) : Action where
  run data := xs.foldl (fun data x => changeItem sign s hash data x.1 x.2) data
  length_run data := by rw [foldl_changeItem_length]

theorem length_changeCount (sign : Bool) (s : Table) (hash : Hash) (item : Key) (n : ℕ)
    (data : Key) : (changeCount sign s hash data item n).2.length = data.length := by
  rw [changeCount_snd, length_changeItem]

/-- `CMSADDCOUNT_Factory::action` and `CBFADDCOUNT_Factory::action`. -/
def changeCountAction (sign : Bool) (s : Table) (hash : Hash) (item : Key) (n : ℕ) : Action where
  run data := (changeCount sign s hash data item n).2
  length_run data := by rw [length_changeCount]

/-! ## The commands -/

/-- `CMSMutate<Sign>` and `CBFMutate<Sign>`. -/
def mutateSign (sign : Bool) (kind : Kind) (hash : Hash) (env : Env) (p : List Key) (db : Db) :
    Reply × Db :=
  match p with
  | _ :: key :: w :: d :: t :: args =>
    if p.length < 7 ∨ (p.length - 5) % 2 ≠ 0 then (.error .NEED_GROUP_PARAMS_6, db)
    else if ¬isKeyValid key then (.error .EMPTY_KEY, db)
    else if fromString 64 w 0 = 0 ∨ fromString 64 d 0 = 0 then (.error .INVALID_PARAMETERS, db)
    else if kind = .cbf ∧ ∃ x ∈ items args, x.1 = [] then (.error .EMPTY_VAL, db)
    else
      match typeDispatch (fromString 8 t 0) with
      | none => (.error .INVALID_PARAMETERS, db)
      | some sizeofT =>
        let s := kind.table (fromString 64 w 0) (fromString 64 d 0) sizeofT
        if maxValSize < s.bytes then (.error .INVALID_PARAMETERS, db)
        else if kind = .cms ∧ ∃ x ∈ items args, x.1 = [] then (.error .EMPTY_VAL, db)
        else
          let pair := getPairPtrWithSize env.check key s.bytes db
          let factory :=
            iFactoryActionSame (changeAction sign s hash (items args)) key s.bytes pair
          (.ok, insertHintVFactory env.owned pair factory env.write db)
  | _ => (.error .NEED_GROUP_PARAMS_6, db)

/-- `CMSMutateCount<Sign>` and `CBFMutateCount<Sign>`. -/
def mutateCountSign (sign : Bool) (kind : Kind) (hash : Hash) (env : Env) (p : List Key)
    (db : Db) : Option Reply × Db :=
  match p with
  | [_, key, w, d, t, item, n] =>
    if ¬isKeyValid key then (some (.error .EMPTY_KEY), db)
    else if fromString 64 w 0 = 0 ∨ fromString 64 d 0 = 0 ∨ kind = .cms ∧ item = [] then
      (some (.error .INVALID_PARAMETERS), db)
    else
      match typeDispatch (fromString 8 t 0) with
      | none => (some (.error .INVALID_PARAMETERS), db)
      | some sizeofT =>
        let itemCount := fromString (8 * sizeofT) n 0
        let s := kind.table (fromString 64 w 0) (fromString 64 d 0) sizeofT
        if itemCount = 0 then (some (.error .INVALID_PARAMETERS), db)
        else if maxValSize < s.bytes then (some (.error .INVALID_PARAMETERS), db)
        else
          let pair := getPairPtrWithSize env.check key s.bytes db
          let factory :=
            iFactoryActionSame (changeCountAction sign s hash item itemCount) key s.bytes pair
          ((changeCount sign s hash (copyPair s.bytes pair) item itemCount).1.map .number,
            insertHintVFactory env.owned pair factory env.write db)
  | _ =>
    (some (.error (if kind = .cms then .NEED_EXACT_PARAMS_6 else .NEED_GROUP_PARAMS_6)), db)

/-- `CMSREM`. -/
def CMSREM := mutateSign false .cms

/-- `CMSREMCOUNT`. -/
def CMSREMCOUNT := mutateCountSign false .cms

/-- `CBFREM`. -/
def CBFREM := mutateSign false .cbf

/-- `CBFREMCOUNT`. -/
def CBFREMCOUNT := mutateCountSign false .cbf

theorem length_reserve (data : Key) : (id data).length = data.length := rfl

/-- `Reserve::action`. -/
def reserveAction : Action where
  run := id
  length_run := length_reserve

/-- `PairFactory::Reserve` without an old pair. -/
def Reserve (key : Key) (valSize : ℕ) : Factory :=
  iFactoryActionSame reserveAction key valSize none

/-- A width or a depth of `CMSRESERVE`, which takes at least one, or of `CBFRESERVE`. -/
def reserved (kind : Kind) (s : Key) : ℕ :=
  match kind with
  | .cms => max (fromString 64 s 0) 1
  | .cbf => fromString 64 s 0

/-- `CMSRESERVE` and `CBFRESERVE`. -/
def reserve (kind : Kind) (env : Env) (p : List Key) (db : Db) : Reply × Db :=
  match p with
  | [_, key, w, d, t] =>
    if ¬isKeyValid key then (.error .EMPTY_KEY, db)
    else if reserved kind w = 0 ∨ reserved kind d = 0 then (.error .INVALID_PARAMETERS, db)
    else
      match typeDispatch (fromString 8 t 0) with
      | none => (.error .INVALID_PARAMETERS, db)
      | some sizeofT =>
        let s := kind.table (reserved kind w) (reserved kind d) sizeofT
        if maxValSize < s.bytes then (.error .INVALID_PARAMETERS, db)
        else (.bool true, insertF env.owned (Reserve key s.bytes) env.write db)
  | _ => (.error .NEED_EXACT_PARAMS_4, db)

/-- `CMSRESERVE`. -/
def CMSRESERVE := reserve .cms

/-- `CBFRESERVE`. -/
def CBFRESERVE := reserve .cbf

/-! ## What is accepted -/

/-- A width, a depth and a size of cells that one of the commands takes. -/
inductive Accepted (kind : Kind) (hash : Hash) (env : Env) (db : Db) : ℕ → ℕ → ℕ → Prop
  | mutate {sign cmd key w d t args sizeofT} (ht : typeDispatch (fromString 8 t 0) = some sizeofT)
      (h : (mutateSign sign kind hash env (cmd :: key :: w :: d :: t :: args) db).1 = .ok) :
      Accepted kind hash env db (fromString 64 w 0) (fromString 64 d 0) sizeofT
  | mutateCount {sign cmd key w d t item n sizeofT}
      (ht : typeDispatch (fromString 8 t 0) = some sizeofT)
      (h : ∀ e, (mutateCountSign sign kind hash env [cmd, key, w, d, t, item, n] db).1 ≠
        some (.error e)) :
      Accepted kind hash env db (fromString 64 w 0) (fromString 64 d 0) sizeofT
  | reserve {cmd key w d t sizeofT} (ht : typeDispatch (fromString 8 t 0) = some sizeofT)
      (h : (reserve kind env [cmd, key, w, d, t] db).1 = .bool true) :
      Accepted kind hash env db (reserved kind w) (reserved kind d) sizeofT

/-- All cells of any item lie inside a value of the computed size. -/
def CellsInside (kind : Kind) (w d sizeofT : ℕ) : Prop :=
  ∀ hash item, ∀ k ∈ places (kind.table w d sizeofT) hash item,
    k * sizeofT + sizeofT ≤ (kind.table w d sizeofT).bytes

/-- The size of a table is computed exactly, and its cells lie inside. -/
structure Inside (kind : Kind) (w d sizeofT : ℕ) : Prop where
  exact_size : (kind.table w d sizeofT).bytes = size kind w d sizeofT
  cells : CellsInside kind w d sizeofT

variable {kind : Kind} {hash : Hash} {env : Env} {db : Db} {w d sizeofT : ℕ}

theorem reserved_lt (kind : Kind) (s : Key) : reserved kind s < 2 ^ 64 := by
  have h : fromString 64 s 0 < 2 ^ 64 := fromString_lt s (Nat.two_pow_pos 64)
  cases kind with
  | cms => exact max_lt h (by norm_num)
  | cbf => exact h

/-- What is accepted has passed the check of its size. -/
theorem Accepted.checked (h : Accepted kind hash env db w d sizeofT) :
    0 < w ∧ w < 2 ^ 64 ∧ 0 < d ∧ 0 < sizeofT ∧ (kind.table w d sizeofT).bytes ≤ maxValSize := by
  cases h with
  | @mutate sign cmd key w d t args _ ht h =>
    have hlt : fromString 64 w 0 < 2 ^ 64 := fromString_lt w (Nat.two_pow_pos 64)
    have hpos := (typeDispatch_eq_some ht).1
    simp only [mutateSign, ht] at h
    split_ifs at h with h1 h2 h3 h4 h5 h6
    exact ⟨by omega, hlt, by omega, hpos, Nat.not_lt.mp h5⟩
  | @mutateCount sign cmd key w d t item n _ ht h =>
    have hlt : fromString 64 w 0 < 2 ^ 64 := fromString_lt w (Nat.two_pow_pos 64)
    have hpos := (typeDispatch_eq_some ht).1
    generalize hr : (mutateCountSign sign kind hash env [cmd, key, w, d, t, item, n] db).1 = r at h
    simp only [mutateCountSign, ht] at hr
    split_ifs at hr with h1 h2 h3 h4
    · exact absurd hr.symm (h _)
    · exact absurd hr.symm (h _)
    · exact absurd hr.symm (h _)
    · exact ⟨by omega, hlt, by omega, hpos, Nat.not_lt.mp h4⟩
    · exact absurd hr.symm (h _)
  | @reserve cmd key w d t _ ht h =>
    have hpos := (typeDispatch_eq_some ht).1
    simp only [SketchSizes.reserve, ht] at h
    split_ifs at h with h1 h2 h3
    exact ⟨by omega, reserved_lt kind w, by omega, hpos, Nat.not_lt.mp h3⟩

/-! ## Cells -/

theorem cellsInside_of_lt (hw : 0 < w) (hn : 0 < sizeofT)
    (hsize : size kind w d sizeofT < 2 ^ 64) : CellsInside kind w d sizeofT := by
  intro hash item k hk
  cases kind with
  | cms =>
    obtain ⟨i, hi, rfl⟩ := List.mem_map.mp hk
    exact fits_CMS hw hn hsize _ i (List.mem_range.mp hi)
  | cbf =>
    obtain ⟨i, hi, rfl⟩ := List.mem_map.mp hk
    exact fits_CBF (d := d) hw hsize _ i (List.mem_range.mp hi)

/-- If the size goes round, the row in which the value ends has a cell behind it. -/
theorem not_cellsInside (hw : 0 < w) (hlt : w < 2 ^ 64) (hd : 0 < d) (hn : 0 < sizeofT)
    (hbytes : (kind.table w d sizeofT).bytes ≤ maxValSize)
    (hsize : 2 ^ 64 ≤ size kind w d sizeofT) : ¬CellsInside kind w d sizeofT := by
  intro hcells
  have hlast : (UInt64.ofNat (w - 1)).toNat % w = w - 1 := by
    have hlt' : w - 1 < UInt64.size := by
      have hsize' : UInt64.size = 2 ^ 64 := rfl
      omega
    rw [UInt64.toNat_ofNat_of_lt' hlt', Nat.mod_eq_of_lt (by omega)]
  have hmax : maxValSize < 2 ^ 63 := by decide
  cases kind with
  | cms =>
    have hrow : 0 < w * sizeofT := Nat.mul_pos hw hn
    generalize hB : (Kind.cms.table w d sizeofT).bytes = B at hbytes
    -- The last cell of the row in which the value ends.
    obtain ⟨i, hle, hgt⟩ : ∃ i, i * (w * sizeofT) ≤ B ∧ B < (i + 1) * (w * sizeofT) :=
      ⟨B / (w * sizeofT), Nat.div_mul_le_self _ _, by
        have h := Nat.lt_div_mul_add hrow (a := B)
        rw [Nat.succ_mul]
        exact h⟩
    have hadd : (i + 1) * (w * sizeofT) = (i * w + w - 1) * sizeofT + sizeofT := by
      have h1 : i * w + w - 1 + 1 = (i + 1) * w := by
        rw [Nat.succ_mul]
        omega
      rw [← Nat.succ_mul, Nat.succ_eq_add_one, h1, Nat.mul_assoc]
    have hi : i < d := by
      refine Nat.lt_of_mul_lt_mul_right (a := w * sizeofT) ?_
      have hsize' : 2 ^ 64 ≤ d * (w * sizeofT) := by
        rw [← Nat.mul_assoc, Nat.mul_comm d w]
        exact hsize
      omega
    have hplace : (CMS w d sizeofT).place (UInt64.ofNat (w - 1)) i = i * w + w - 1 := by
      have hiw : i * w ≤ i * (w * sizeofT) :=
        Nat.mul_le_mul_left i (Nat.le_mul_of_pos_right w hn)
      have hw' : i = 0 ∨ w ≤ i * w := by
        obtain rfl | hi := Nat.eq_zero_or_pos i
        · exact .inl rfl
        · exact .inr (Nat.le_mul_of_pos_left w hi)
      have hfit : i * w + w - 1 < 2 ^ 64 := by
        obtain rfl | hw' := hw' <;> omega
      show ((UInt64.ofNat (w - 1)).toNat % w + i * w) % 2 ^ 64 = i * w + w - 1
      rw [hlast, show w - 1 + i * w = i * w + w - 1 by omega, Nat.mod_eq_of_lt hfit]
    have hcell := hcells (fun _ _ => UInt64.ofNat (w - 1)) [] (i * w + w - 1)
      (List.mem_map.mpr ⟨i, List.mem_range.mpr hi, hplace⟩)
    rw [hB] at hcell
    omega
  | cbf =>
    have hcell := hcells (fun _ _ => UInt64.ofNat (w - 1)) [] (w - 1)
      (List.mem_map.mpr ⟨0, List.mem_range.mpr hd, hlast⟩)
    have hadd : (w - 1) * sizeofT + sizeofT = w * sizeofT := by
      rw [← Nat.succ_mul, Nat.succ_eq_add_one, Nat.sub_add_cancel hw]
    have hsize' : 2 ^ 64 ≤ w * sizeofT := hsize
    omega

/-- A table that is accepted has its exact size and its cells inside a value of this size if its
true size is a number of 64 bits, and otherwise neither. -/
theorem cells_inside_iff (h : Accepted kind hash env db w d sizeofT) :
    (Inside kind w d sizeofT ↔ size kind w d sizeofT < 2 ^ 64) ∧
      (CellsInside kind w d sizeofT ↔ size kind w d sizeofT < 2 ^ 64) := by
  obtain ⟨hw, hlt, hd, hn, hbytes⟩ := h.checked
  have hcells : CellsInside kind w d sizeofT ↔ size kind w d sizeofT < 2 ^ 64 := by
    refine ⟨fun hcells => ?_, cellsInside_of_lt hw hn⟩
    by_contra hsize
    exact not_cellsInside hw hlt hd hn hbytes (Nat.not_lt.mp hsize) hcells
  refine ⟨⟨fun h => hcells.mp h.cells, fun hsize => ⟨?_, hcells.mpr hsize⟩⟩, hcells⟩
  cases kind with
  | cms => exact Nat.mod_eq_of_lt hsize
  | cbf => exact Nat.mod_eq_of_lt hsize

/-- An item is added to a table of two rows of two cells. -/
theorem cells_inside_iff_small :
    (Inside .cms 2 2 1 ↔ size .cms 2 2 1 < 2 ^ 64) ∧
      (CellsInside .cms 2 2 1 ↔ size .cms 2 2 1 < 2 ^ 64) :=
  have ht : typeDispatch (fromString 8 [56] 0) = some 1 := by decide +kernel
  have h : (mutateSign true .cms (fun _ _ => 0) ⟨true, 0, 0⟩
      [[], [107], [50], [50], [56], [105], [49]] []).1 = .ok := by decide +kernel
  cells_inside_iff (Accepted.mutate ht h)

/-- `CMSADD k 9223372036854775808 2 8 i 1` is accepted with a size of nothing. -/
theorem accepted_huge : Accepted .cms (fun _ _ => 0) ⟨true, 0, 0⟩ [] 0x8000000000000000 2 1 ∧
    ¬Inside .cms 0x8000000000000000 2 1 := by
  refine ⟨?_, fun h => absurd h.exact_size (by decide +kernel)⟩
  have ht : typeDispatch (fromString 8 [56] 0) = some 1 := by decide +kernel
  have h : (mutateSign true .cms (fun _ _ => 0) ⟨true, 0, 0⟩
      [[], [107], [57, 50, 50, 51, 51, 55, 50, 48, 51, 54, 56, 53, 52, 55, 55, 53, 56, 48, 56],
        [50], [56], [105], [49]] []).1 = .ok := by decide +kernel
  exact Accepted.mutate ht h

end HM4.SketchSizes
