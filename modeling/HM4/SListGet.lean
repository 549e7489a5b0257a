import HM4.SList
import HM4.EasyMap
import HM4.Database

/-!
# Many items of a string list

`SLMGET` has three ways to pick items by their indexes: a scan of the list for each index, one scan
that notes all items, and one scan that fills a map of the indexes. The map has a null pointer for
an index that the list does not have, and the pointer is used.
-/

namespace HM4.SListGet

open Bytes Pairs Database SList Patch

/-! ## The code -/

/-- `HTMax`. -/
def HTMax : ℕ := 255

/-- `HTSize`. -/
def HTSize : ℕ := 1024

/-- `SEARCH_NAIVE`. -/
def SEARCH_NAIVE : ℕ := 1024

/-- `SEARCH_MINI`. -/
def SEARCH_MINI : ℕ := HTMax

/-- How a command ends without an answer: a fault of the list, a full vector, or a null pointer that
is used. -/
inductive Crash where
  | list (fault : Fault)
  | bad_alloc
  | null

/-- `size`. -/
def size (blob : Key) : Except Crash ℕ :=
  match stable false blob with
  | .error fault => .error (.list fault)
  | .ok false => .ok 0
  | .ok true => (loadSize blob).mapError .list

/-- The items that `for_each` hands to a function that never stops it. -/
def items (blob : Key) : Except Crash (List Key) :=
  match for_each (fun _ => true) blob with
  | .error fault => .error (.list fault)
  | .ok (_, list) => .ok list

/-- `from_string<uint64_t>`. -/
def index (sv : Key) : ℕ := fromString 64 sv 0

/-- What the function of `processNaive__` puts into the container. -/
def pick (n : ℕ) : ℕ → List Key → List Key
  | _, [] => []
  | i, item :: list => if i = n then item :: pick n (i + 1) list else pick n (i + 1) list

/-- `processNaive__`. -/
def processNaive (blob : Key) : List Key → Except Crash (List Key)
  | [] => .ok []
  | sv :: params => do
    let list ← items blob
    let found := pick (index sv) 0 list
    let rest ← processNaive blob params
    return (if found.isEmpty then [[]] else found) ++ rest

/-- `processMini__`. -/
def processMini (blob : Key) (params : List Key) : Except Crash (List Key) := do
  let icontainer ← items blob
  if HTMax < icontainer.length then .error .bad_alloc
  else return params.map fun sv => icontainer.getD (index sv) []

section Huge

variable (hash : ℕ → ℕ)

/-- `MyMap`: the items as pointers. -/
abbrev MyMap : Type := EasyMap.Map ℕ (Option Key)

/-- `insert` of a null pointer. -/
def insertNull (map : MyMap) (n : ℕ) : Except Crash MyMap :=
  (EasyMap.insert hash HTMax HTSize map n none).elim (.error .bad_alloc) .ok

/-- The null pointers for the indexes. -/
def fill : List ℕ → MyMap → Except Crash MyMap
  | [], map => .ok map
  | n :: ncontainer, map => do
    let map ← insertNull hash map n
    fill ncontainer map

/-- The scan of the list. -/
def scan : ℕ → List Key → MyMap → MyMap
  | _, [], map => map
  | i, item :: list, map =>
    scan (i + 1) list (EasyMap.assign hash HTMax HTSize map i (some item))

/-- `getItem` through the pointer of an index, if the map has one. -/
def getItem : Option (Option Key) → Except Crash Key
  | some none => .error .null
  | some (some item) => .ok item
  | none => .ok []

/-- The items of the indexes. -/
def collect (map : MyMap) : List ℕ → Except Crash (List Key)
  | [] => .ok []
  | n :: ncontainer => do
    let item ← getItem (EasyMap.find hash HTMax HTSize map n)
    let rest ← collect map ncontainer
    return item :: rest

/-- `processHuge__`. -/
def processHuge (blob : Key) (params : List Key) : Except Crash (List Key) := do
  if HTMax < params.length then .error .bad_alloc
  else
    let ncontainer := params.map index
    let map ← fill hash ncontainer (EasyMap.Map.empty HTMax)
    let list ← items blob
    collect hash (scan hash 0 list map) ncontainer

/-- `SLMGET`. -/
def SLMGET (now : UInt64) (key : Key) (params : List Key) (db : Db) : Except Crash Reply :=
  if params.length < 1 then .ok (.error .NEED_GROUP_PARAMS_2)
  else if ¬isKeyValid key then .ok (.error .EMPTY_KEY)
  else
    match getPairPtr now key db with
    | none => .ok (.container (List.replicate params.length []))
    | some pair => do
      let s ← size pair.val
      let d := params.length
      if d ≤ 1 ∨ s ≤ 1 ∨ d * s < SEARCH_NAIVE then (processNaive pair.val params).map .container
      else if s < SEARCH_MINI then (processMini pair.val params).map .container
      else (processHuge hash pair.val params).map .container

end Huge

/-- What the command is for: the item at each index, or the empty string. -/
def answers (list : List Key) (params : List Key) : List Key :=
  params.map fun sv => list.getD (index sv) []

/-! ## The three ways -/

section Ways

variable {blob : Key} {list params : List Key} {n : ℕ}

/-- All items of a list. -/
theorem items_eq (h : IsList blob list) : items blob = .ok list := by
  obtain ⟨complete, hfor⟩ := h.for_each
  rw [items, hfor]

/-- A scan for an index picks the item that is there. -/
theorem pick_eq (n i : ℕ) (list : List Key) :
    pick n i list = if i ≤ n then (list[n - i]?).toList else [] := by
  induction list generalizing i with
  | nil =>
    rw [pick, List.getElem?_nil]
    simp
  | cons item list ih =>
    rw [pick, ih]
    by_cases hi : i = n
    · subst hi
      simp
    · by_cases hle : i ≤ n
      · have hstep : n - i = (n - (i + 1)) + 1 := by omega
        rw [if_neg hi, if_pos (by omega), if_pos hle, hstep, List.getElem?_cons_succ]
      · rw [if_neg hi, if_neg (by omega), if_neg hle]

theorem processNaive_eq (h : IsList blob list) (params : List Key) :
    processNaive blob params = .ok (answers list params) := by
  induction params with
  | nil => rfl
  | cons sv params ih =>
    have hpick : (if (pick (index sv) 0 list).isEmpty then [[]] else pick (index sv) 0 list) =
        [list.getD (index sv) []] := by
      rw [pick_eq, if_pos (Nat.zero_le _), Nat.sub_zero, List.getD_eq_getElem?_getD]
      cases list[index sv]? with
      | none => rfl
      | some item => rfl
    rw [processNaive, items_eq h, ih]
    simp only [bind, Except.bind, pure, Except.pure, hpick]
    rfl

theorem processMini_eq (h : IsList blob list) (hshort : list.length < HTMax)
    (params : List Key) : processMini blob params = .ok (answers list params) := by
  have hroom : ¬HTMax < list.length := by omega
  rw [processMini, items_eq h]
  simp only [bind, Except.bind, pure, Except.pure, hroom, if_false]
  rfl

end Ways

/-! ## The map of the indexes -/

section Huge

variable {hash : ℕ → ℕ} {map : MyMap} {list : List Key} {ncontainer : List ℕ}

/-- A map of the command. -/
abbrev IsMap (hash : ℕ → ℕ) (map : MyMap) : Prop := EasyMap.IsMap hash HTMax HTSize map

/-- What a search finds in the map. -/
abbrev find (hash : ℕ → ℕ) (map : MyMap) (n : ℕ) : Option (Option Key) :=
  EasyMap.find hash HTMax HTSize map n

/-- The indexes are in the map, each with a null pointer. -/
theorem fill_spec (h : IsMap hash map) (hroom : map.data.length + ncontainer.length ≤ HTMax) :
    ∃ map', fill hash ncontainer map = .ok map' ∧ IsMap hash map' ∧
      ∀ k, find hash map' k = if k ∈ ncontainer then some none else find hash map k := by
  induction ncontainer generalizing map with
  | nil => exact ⟨map, rfl, h, fun k => by simp⟩
  | cons n ncontainer ih =>
    rw [List.length_cons] at hroom
    obtain ⟨map1, hrun, h1, hlen, hfind1⟩ := h.insert (by decide) (by decide) (by omega) n none
    obtain ⟨map', hrest, h', hfind'⟩ := ih h1 (by omega)
    have hnull : insertNull hash map n = .ok map1 := by
      rw [insertNull, hrun, Option.elim_some]
    refine ⟨map', ?_, h', fun k => ?_⟩
    · simp only [fill, hnull, hrest, bind, Except.bind]
    · rw [hfind', find, hfind1]
      by_cases hmem : k ∈ ncontainer
      · simp [hmem]
      · by_cases hk : n = k
        · simp [hk]
        · simp [hmem, hk, Ne.symm hk]

/-- After the scan the indexes below the size of the list have the items. -/
theorem scan_spec (h : IsMap hash map) (i : ℕ) (list : List Key) :
    IsMap hash (scan hash i list map) ∧ ∀ k, find hash (scan hash i list map) k =
      if i ≤ k ∧ k < i + list.length then (find hash map k).map fun _ => list[k - i]?
      else find hash map k := by
  induction list generalizing i map with
  | nil =>
    refine ⟨h, fun k => ?_⟩
    have hout : ¬(i ≤ k ∧ k < i + ([] : List Key).length) := by simp
    rw [if_neg hout]
    rfl
  | cons item list ih =>
    obtain ⟨h1, hfind1⟩ := h.assign (by decide) i (some item)
    obtain ⟨h', hfind'⟩ := ih h1 (i + 1)
    refine ⟨h', fun k => ?_⟩
    rw [scan, hfind', find, hfind1, List.length_cons]
    by_cases hk : i = k
    · subst hk
      rw [if_neg (by omega), if_pos rfl, if_pos (by omega), Nat.sub_self, List.getElem?_cons_zero]
    · rw [if_neg hk]
      by_cases hin : i + 1 ≤ k ∧ k < i + 1 + list.length
      · have hstep : k - i = (k - (i + 1)) + 1 := by omega
        rw [if_pos hin, if_pos (by omega), hstep, List.getElem?_cons_succ]
      · rw [if_neg hin, if_neg (by omega)]

/-- The items are collected if each index is one of the list, and otherwise a null pointer is
used. -/
theorem collect_spec (hfind : ∀ n ∈ ncontainer, find hash map n =
      if n < list.length then some list[n]? else some none) :
    collect hash map ncontainer =
      if ∀ n ∈ ncontainer, n < list.length then .ok (ncontainer.map fun n => list.getD n [])
      else .error .null := by
  induction ncontainer with
  | nil => simp [collect]
  | cons n ncontainer ih =>
    obtain ⟨hn, hrest⟩ := List.forall_mem_cons.mp hfind
    by_cases hlt : n < list.length
    · have hget : list[n]? = some (list.getD n []) := by
        rw [List.getD_eq_getElem?_getD, List.getElem?_eq_getElem hlt, Option.getD_some]
      rw [if_pos hlt, hget] at hn
      have hitem : getItem (EasyMap.find hash HTMax HTSize map n) = .ok (list.getD n []) :=
        congrArg getItem hn
      simp only [collect, hitem, ih hrest, bind, Except.bind, pure, Except.pure,
        List.forall_mem_cons, hlt, true_and]
      by_cases hall : ∀ n ∈ ncontainer, n < list.length
      · rw [if_pos hall, if_pos hall]
        rfl
      · rw [if_neg hall, if_neg hall]
    · rw [if_neg hlt] at hn
      have hitem : getItem (EasyMap.find hash HTMax HTSize map n) = .error .null :=
        congrArg getItem hn
      simp only [collect, hitem, bind, Except.bind, List.forall_mem_cons, hlt, false_and, if_false]

end Huge

section Paths

variable {blob : Key} {list params : List Key}

/-- Where the indexes go to the map, all of them have to be indexes of the list. -/
theorem processHuge_eq (hash : ℕ → ℕ) (h : IsList blob list) (hlen : params.length ≤ HTMax) :
    processHuge hash blob params =
      if ∀ sv ∈ params, index sv < list.length then .ok (answers list params)
      else .error .null := by
  have hcount : (EasyMap.Map.empty HTMax : MyMap).data.length + (params.map index).length ≤
      HTMax := by
    rw [List.length_map]
    exact (Nat.zero_add _).le.trans hlen
  have hempty : IsMap hash (EasyMap.Map.empty HTMax) := EasyMap.isMap_empty
  obtain ⟨map, hfill, hmap, hfind⟩ := fill_spec hempty hcount
  obtain ⟨_, hscan⟩ := scan_spec hmap 0 list
  have hfound : ∀ n ∈ params.map index, find hash (scan hash 0 list map) n =
      if n < list.length then some list[n]? else some none := fun n hn => by
    rw [hscan, hfind, if_pos hn, Nat.sub_zero, Nat.zero_add]
    simp
  have hnot : ¬HTMax < params.length := by omega
  rw [processHuge, items_eq h]
  simp only [hnot, if_false, hfill, bind, Except.bind]
  rw [collect_spec hfound, List.map_map]
  simp only [List.forall_mem_map]
  rfl

/-- The three ways lead to the same container exactly if every index is one of the list. -/
theorem ways_agree_iff (hash : ℕ → ℕ) (h : IsList blob list) (hlen : params.length ≤ HTMax) :
    (processNaive blob params = .ok (answers list params) ∧
        (list.length < HTMax → processMini blob params = .ok (answers list params)) ∧
        processHuge hash blob params = .ok (answers list params)) ↔
      ∀ sv ∈ params, index sv < list.length := by
  rw [processHuge_eq hash h hlen]
  constructor
  · rintro ⟨_, _, hhuge⟩
    by_contra hall
    rw [if_neg hall] at hhuge
    exact nomatch hhuge
  · intro hall
    exact ⟨processNaive_eq h params, fun hshort => processMini_eq h hshort params, if_pos hall⟩

end Paths

/-! ## Lists on their own -/

/-- The value with some strings and no room behind them. -/
def valueOf (list : List Key) : Key :=
  storeBE 4 list.length ++ (storeBE 4 (encode list).length ++ encode list)

/-- Such a value is the list of the strings. -/
theorem isList_valueOf {list : List Key} (hshort : ∀ s ∈ list, s.length < 2 ^ 16)
    (hfits : (encode list).length < 2 ^ 32) : IsList (valueOf list) list := by
  have hcount := length_le_encode list
  have h1 : (storeBE 4 list.length).length = 4 := storeBE_length 4 _
  have h2 : (storeBE 4 (encode list).length).length = 4 := storeBE_length 4 _
  have hdrop4 : (valueOf list).drop 4 = storeBE 4 (encode list).length ++ encode list := by
    rw [valueOf, List.drop_left' h1]
  have hdrop8 : (valueOf list).drop 8 = encode list := by
    have hsplit : (valueOf list).drop 8 = ((valueOf list).drop 4).drop 4 := by
      rw [List.drop_drop]
    rw [hsplit, hdrop4, List.drop_left' h2]
  have hlen : (valueOf list).length = 8 + (encode list).length := by
    rw [valueOf, List.length_append, List.length_append, h1, h2]
    omega
  refine ⟨?_, ?_, hlen.ge, ?_, hshort⟩
  · rw [slice, List.drop_zero, valueOf, List.take_left' h1, loadBE_storeBE (by omega)]
  · rw [slice, hdrop4, List.take_left' h2, loadBE_storeBE (by omega)]
  · rw [slice, listBytes, hdrop8, List.take_length]

/-- Two items of a list, one of them twice. -/
theorem ways_agree_iff_letters :
    (processNaive (valueOf [[97], [98]]) [[49], [48], [49]] =
          .ok (answers [[97], [98]] [[49], [48], [49]]) ∧
        ([[97], [98]].length < HTMax →
          processMini (valueOf [[97], [98]]) [[49], [48], [49]] =
            .ok (answers [[97], [98]] [[49], [48], [49]])) ∧
        processHuge id (valueOf [[97], [98]]) [[49], [48], [49]] =
          .ok (answers [[97], [98]] [[49], [48], [49]])) ↔
      ∀ sv ∈ [[49], [48], [49]], index sv < [[97], [98]].length :=
  ways_agree_iff id (isList_valueOf (by decide) (by decide)) (by decide)

/-- The index behind the last item of a list of 255 items, with four others: a client that asks for
them gets to the null pointer. -/
theorem ways_disagree : ¬∀ (hash : ℕ → ℕ) (blob : Key) (list params : List Key),
    IsList blob list → 1 ≤ params.length → params.length ≤ HTMax →
      processNaive blob params = .ok (answers list params) ∧
        (list.length < HTMax → processMini blob params = .ok (answers list params)) ∧
        processHuge hash blob params = .ok (answers list params) := by
  intro h
  have hlist : IsList (valueOf (List.replicate 255 [97])) (List.replicate 255 [97]) := by
    refine isList_valueOf (fun s hs => ?_) (by decide +kernel)
    rw [List.eq_of_mem_replicate hs]
    decide
  obtain ⟨_, _, hhuge⟩ := h id _ _ [[48], [49], [50], [51], [50, 53, 53]] hlist (by decide)
    (by decide)
  have hout : ¬∀ sv ∈ [[48], [49], [50], [51], [50, 53, 53]],
      index sv < (List.replicate 255 ([97] : Key)).length := fun hall => by
    have hlast := hall [50, 53, 53] (by simp)
    rw [List.length_replicate] at hlast
    exact absurd hlast (by decide)
  rw [processHuge_eq id hlist (by decide), if_neg hout] at hhuge
  exact nomatch hhuge

end HM4.SListGet
