import HM4.General.ProbeTable
import Mathlib.Data.Nat.ModEq
import Mathlib.Tactic.SplitIfs

/-!
# The map of fixed size

`EasyMap` over `CompactStorage`: a cell has the number of its entry in a vector, and a key tries
the cells one after another from the one that its hash names. Entries are never taken out, so that
a search finds what was put last for its key.
-/

namespace HM4.EasyMap

/-! ## The code -/

/-- The bits of `CompactStorage::size_type`. -/
def sizeBits (maxItems : ℕ) : ℕ :=
  if maxItems ≤ 2 ^ 8 - 2 then 8
  else if maxItems ≤ 2 ^ 16 - 2 then 16
  else if maxItems ≤ 2 ^ 32 - 2 then 32
  else 64

/-- `CompactStorage::sentinel__`. -/
def sentinel (maxItems : ℕ) : ℕ := 2 ^ sizeBits maxItems - 1

/-- `EasyMap` with `CompactStorage`; there is no index for a key that is no string. -/
structure Map (K V : Type) where
  /-- `CompactStorage::link_`. -/
  link : ℕ → ℕ
  /-- `CompactStorage::data_`. -/
  data : List (K × V)

/-- `EasyHashtable::Locator`. -/
inductive Locator
  | ERROR
  | EMPTY (id : ℕ)
  | FOUND (id : ℕ)

section Code

variable {K V : Type} [DecidableEq K] (hash : K → ℕ) (maxItems size : ℕ)

/-- A map without entries. -/
def Map.empty : Map K V := ⟨fun _ => sentinel maxItems, []⟩

/-- The loop of `locate_`. -/
def locateFrom (t : Map K V) (key : K) (cell : ℕ) : List ℕ → Locator
  | [] => .ERROR
  | i :: is =>
    let id := (cell + i) % size
    if t.link id = sentinel maxItems then .EMPTY id
    else if t.data[t.link id]?.map Prod.fst = some key then .FOUND id
    else locateFrom t key cell is

/-- `locate_`. -/
def locate (t : Map K V) (key : K) : Locator :=
  locateFrom maxItems size t key (hash key % size) (List.range size)

/-- `CompactStorage::emplace`; a full vector throws. -/
def emplace (t : Map K V) (id : ℕ) (key : K) (v : V) : Option (Map K V) :=
  if t.link id = sentinel maxItems then
    if t.data.length = maxItems then none
    else some ⟨Function.update t.link id (t.data.length % 2 ^ sizeBits maxItems),
      t.data ++ [(key, v)]⟩
  else some ⟨t.link, t.data.set (t.link id) (key, v)⟩

/-- `insert`, whose result the caller does not read. -/
def insert (t : Map K V) (key : K) (v : V) : Option (Map K V) :=
  match locate hash maxItems size t key with
  | .ERROR => some t
  | .EMPTY id => emplace maxItems t id key v
  | .FOUND id => emplace maxItems t id key v

/-- `find`. -/
def find (t : Map K V) (key : K) : Option V :=
  match locate hash maxItems size t key with
  | .FOUND id => t.data[t.link id]?.map Prod.snd
  | _ => none

/-- What a caller does that writes through the pointer of `find`, if there is one. -/
def assign (t : Map K V) (key : K) (v : V) : Map K V :=
  match locate hash maxItems size t key with
  | .FOUND id => { t with data := t.data.modify (t.link id) fun e => (e.1, v) }
  | _ => t

end Code

/-! ## The entries -/

section Entries

variable {K V : Type} [DecidableEq K] {hash : K → ℕ} {maxItems size : ℕ} {t : Map K V} {key : K}
  {v : V}

/-- The entry of a cell. -/
def cells (maxItems : ℕ) (t : Map K V) (id : ℕ) : Option (K × V) :=
  if t.link id = sentinel maxItems then none else t.data[t.link id]?

/-- The cells in the order in which a key tries them. -/
def probes (hash : K → ℕ) (size : ℕ) (key : K) : List ℕ :=
  (List.range size).map fun i => (hash key % size + i) % size

/-- A link that is set leads to an entry of its own, where a search for the key of the entry
stops. -/
structure IsMap (hash : K → ℕ) (maxItems size : ℕ) (t : Map K V) : Prop where
  linked : ∀ id, t.link id ≠ sentinel maxItems → t.link id < t.data.length
  distinct : ∀ id id', t.link id ≠ sentinel maxItems → t.link id = t.link id' → id = id'
  reached : ProbeTable.Reached Prod.fst (probes hash size) (cells maxItems t)
  fits : t.data.length ≤ maxItems

theorem isMap_empty : IsMap hash maxItems size (Map.empty maxItems : Map K V) where
  linked := fun _ h => absurd rfl h
  distinct := fun _ _ h => absurd rfl h
  reached := fun c v hc => by
    rw [cells, Map.empty, if_pos rfl] at hc
    exact nomatch hc
  fits := Nat.zero_le _

omit [DecidableEq K] in
theorem cells_of_eq {id : ℕ} (h : t.link id = sentinel maxItems) : cells maxItems t id = none :=
  if_pos h

omit [DecidableEq K] in
theorem cells_of_ne {id : ℕ} (h : t.link id ≠ sentinel maxItems) :
    cells maxItems t id = t.data[t.link id]? := if_neg h

omit [DecidableEq K] in
/-- A cell with an entry has a link. -/
theorem link_ne {id : ℕ} {e : K × V} (h : cells maxItems t id = some e) :
    t.link id ≠ sentinel maxItems := by
  intro hs
  rw [cells_of_eq hs] at h
  exact nomatch h

/-- Numbers of entries are no sentinels, and they fit. -/
theorem lt_sentinel (h : maxItems < 2 ^ 64 - 1) :
    maxItems < sentinel maxItems ∧ sentinel maxItems < 2 ^ sizeBits maxItems := by
  unfold sentinel sizeBits
  split_ifs <;> omega

theorem IsMap.cells_eq (h : IsMap hash maxItems size t) {id : ℕ}
    (hid : t.link id ≠ sentinel maxItems) :
    ∃ e, t.data[t.link id]? = some e ∧ cells maxItems t id = some e := by
  have hget := List.getElem?_eq_getElem (h.linked id hid)
  exact ⟨_, hget, (cells_of_ne hid).trans hget⟩

/-- What the loop tells of the cell at which a search stops. -/
theorem IsMap.locate_eq (h : IsMap hash maxItems size t) (key : K) :
    locate hash maxItems size t key =
      match ProbeTable.locate Prod.fst (cells maxItems t) key (probes hash size key) with
      | none => .ERROR
      | some c => if t.link c = sentinel maxItems then .EMPTY c else .FOUND c := by
  unfold locate probes
  induction List.range size with
  | nil => rfl
  | cons i is ih =>
    rw [locateFrom, List.map_cons, ProbeTable.locate]
    by_cases hlink : t.link ((hash key % size + i) % size) = sentinel maxItems
    · rw [cells_of_eq hlink, if_pos hlink]
      exact (if_pos hlink).symm
    · obtain ⟨e, hdata, hcell⟩ := h.cells_eq hlink
      rw [hcell, hdata, if_neg hlink, Option.map_some]
      dsimp only
      by_cases hkey : e.1 = key
      · rw [if_pos (congrArg some hkey), if_pos hkey]
        exact (if_neg hlink).symm
      · rw [if_neg (fun heq => hkey (Option.some.inj heq)), if_neg hkey]
        exact ih

theorem IsMap.find_eq (h : IsMap hash maxItems size t) (key : K) :
    find hash maxItems size t key =
      (ProbeTable.find Prod.fst (probes hash size) (cells maxItems t) key).map Prod.snd := by
  have hloc := h.locate_eq key
  unfold find ProbeTable.find
  generalize locate hash maxItems size t key = l at hloc ⊢
  generalize ProbeTable.locate Prod.fst (cells maxItems t) key (probes hash size key) = r at hloc ⊢
  subst hloc
  cases r with
  | none => rfl
  | some c =>
    rw [Option.bind_some]
    by_cases hlink : t.link c = sentinel maxItems
    · rw [cells_of_eq hlink]
      dsimp only
      rw [if_pos hlink]
      rfl
    · rw [cells_of_ne hlink]
      dsimp only
      rw [if_neg hlink]

omit [DecidableEq K] in
theorem probes_nodup (key : K) : (probes hash size key).Nodup := by
  refine List.Nodup.map_on (fun i hi j hj heq => ?_) List.nodup_range
  have hi' := List.mem_range.mp hi
  have hj' := List.mem_range.mp hj
  have hcancel : i ≡ j [MOD size] := Nat.ModEq.add_left_cancel' _ heq
  rwa [Nat.ModEq, Nat.mod_eq_of_lt hi', Nat.mod_eq_of_lt hj'] at hcancel

/-- With more cells than entries each search stops at a cell. -/
theorem IsMap.exists_locate (h : IsMap hash maxItems size t) (hsize : maxItems < size) (key : K) :
    ∃ c, ProbeTable.locate Prod.fst (cells maxItems t) key (probes hash size key) = some c := by
  have hlen : (probes hash size key).length = size := by rw [probes, List.length_map,
    List.length_range]
  have hfits := h.fits
  refine ProbeTable.exists_locate (probes_nodup key) (n := t.data.length)
    (by omega) (fun c e hc => h.linked c (link_ne hc)) fun c d e f hc _ => h.distinct c d (link_ne hc)

/-- A new entry in a cell where a search for its key stops. -/
theorem IsMap.cells_free {c : ℕ} (h : IsMap hash maxItems size t)
    (hmax : maxItems < 2 ^ 64 - 1) (hc : t.link c = sentinel maxItems)
    (hlen : t.data.length < maxItems) :
    ∃ t', emplace maxItems t c key v = some t' ∧
      cells maxItems t' = Function.update (cells maxItems t) c (some (key, v)) ∧
      (∀ id, t'.link id ≠ sentinel maxItems → t'.link id < t'.data.length) ∧
      (∀ id id', t'.link id ≠ sentinel maxItems → t'.link id = t'.link id' → id = id') ∧
      t'.data.length = t.data.length + 1 := by
  obtain ⟨hlt, hbits⟩ := lt_sentinel hmax
  have hmod : t.data.length % 2 ^ sizeBits maxItems = t.data.length :=
    Nat.mod_eq_of_lt (by omega)
  have hnew : t.data.length ≠ sentinel maxItems := by omega
  have hother : ∀ id, t.link id ≠ t.data.length := fun id heq =>
    absurd (h.linked id (heq ▸ hnew)) (heq ▸ lt_irrefl _)
  have hrun : emplace maxItems t c key v =
      some ⟨Function.update t.link c t.data.length, t.data ++ [(key, v)]⟩ := by
    rw [emplace, if_pos hc, if_neg (Nat.ne_of_lt hlen), hmod]
  have hgrow : (t.data ++ [(key, v)]).length = t.data.length + 1 := by
    rw [List.length_append, List.length_singleton]
  refine ⟨_, hrun, ?_, fun id hid => ?_, fun id id' hid heq => ?_, hgrow⟩
  · funext id
    by_cases hidc : id = c
    · subst hidc
      simp only [cells, Function.update_self, hnew, if_false, List.getElem?_concat_length]
    · rw [Function.update_of_ne hidc]
      simp only [cells, Function.update_of_ne hidc]
      by_cases hlink : t.link id = sentinel maxItems
      · simp only [hlink, if_true]
      · simp only [hlink, if_false, List.getElem?_append_left (h.linked id hlink)]
  · dsimp only at hid ⊢
    rw [hgrow]
    by_cases hidc : id = c
    · rw [hidc, Function.update_self]
      omega
    · rw [Function.update_of_ne hidc] at hid ⊢
      exact (h.linked id hid).trans (Nat.lt_succ_self _)
  · dsimp only at hid heq
    by_cases hidc : id = c
    · by_cases hidc' : id' = c
      · rw [hidc, hidc']
      · rw [hidc, Function.update_self, Function.update_of_ne hidc'] at heq
        exact absurd heq.symm (hother id')
    · rw [Function.update_of_ne hidc] at hid heq
      by_cases hidc' : id' = c
      · rw [hidc', Function.update_self] at heq
        exact absurd heq (hother id)
      · rw [Function.update_of_ne hidc'] at heq
        exact h.distinct id id' hid heq

/-- Another entry in a cell that has one. -/
theorem IsMap.cells_set {c : ℕ} (h : IsMap hash maxItems size t)
    (hc : t.link c ≠ sentinel maxItems) (e : K × V) :
    cells maxItems ⟨t.link, t.data.set (t.link c) e⟩ =
      Function.update (cells maxItems t) c (some e) := by
  have hlt := h.linked c hc
  funext id
  by_cases hidc : id = c
  · subst hidc
    rw [Function.update_self, cells, if_neg hc, List.getElem?_set_self hlt]
  · rw [Function.update_of_ne hidc, cells]
    dsimp only
    by_cases hlink : t.link id = sentinel maxItems
    · rw [if_pos hlink, cells_of_eq hlink]
    · have hne : t.link c ≠ t.link id := fun heq => hidc (h.distinct c id hc heq).symm
      rw [if_neg hlink, cells_of_ne hlink, List.getElem?_set_ne hne]

/-- A map whose cells are those of a map with one more entry is a map with that entry. -/
theorem IsMap.of_update {c : ℕ} {t' : Map K V} (h : IsMap hash maxItems size t)
    (hloc : ProbeTable.locate Prod.fst (cells maxItems t) key (probes hash size key) = some c)
    (hcells : cells maxItems t' = Function.update (cells maxItems t) c (some (key, v)))
    (hlinked : ∀ id, t'.link id ≠ sentinel maxItems → t'.link id < t'.data.length)
    (hdistinct : ∀ id id', t'.link id ≠ sentinel maxItems → t'.link id = t'.link id' → id = id')
    (hfits : t'.data.length ≤ maxItems) :
    IsMap hash maxItems size t' ∧ ∀ k, find hash maxItems size t' k =
      if key = k then some v else find hash maxItems size t k := by
  have hinsert : ProbeTable.insert Prod.fst (probes hash size) (cells maxItems t) (key, v) =
      cells maxItems t' := (ProbeTable.insert_eq hloc).trans hcells.symm
  have hmap : IsMap hash maxItems size t' :=
    ⟨hlinked, hdistinct, hinsert ▸ (h.reached.insert hloc).1, hfits⟩
  refine ⟨hmap, fun k => ?_⟩
  rw [hmap.find_eq, h.find_eq, ← hinsert, ProbeTable.find_insert h.reached hloc]
  dsimp only
  by_cases hk : key = k
  · rw [if_pos hk, if_pos hk, Option.map_some]
  · rw [if_neg hk, if_neg hk]

/-- An insert where there is room. -/
theorem IsMap.insert (h : IsMap hash maxItems size t) (hmax : maxItems < 2 ^ 64 - 1)
    (hsize : maxItems < size) (hlen : t.data.length < maxItems) (key : K) (v : V) :
    ∃ t', EasyMap.insert hash maxItems size t key v = some t' ∧ IsMap hash maxItems size t' ∧
      t'.data.length ≤ t.data.length + 1 ∧ ∀ k, find hash maxItems size t' k =
        if key = k then some v else find hash maxItems size t k := by
  obtain ⟨c, hc⟩ := h.exists_locate hsize key
  have hloc := h.locate_eq key
  rw [hc] at hloc
  dsimp only at hloc
  by_cases hlink : t.link c = sentinel maxItems
  · obtain ⟨t', hrun, hcells, hlinked, hdistinct, hgrow⟩ := h.cells_free hmax hlink hlen
    obtain ⟨hmap, hfind⟩ := h.of_update hc hcells hlinked hdistinct (by omega)
    rw [if_pos hlink] at hloc
    refine ⟨t', ?_, hmap, hgrow.le, hfind⟩
    rw [EasyMap.insert, hloc]
    exact hrun
  · have hcells := h.cells_set hlink (key, v)
    have hsame : (t.data.set (t.link c) (key, v)).length = t.data.length := List.length_set
    obtain ⟨hmap, hfind⟩ := h.of_update hc hcells (fun id hid => hsame ▸ h.linked id hid)
      h.distinct (hsame ▸ h.fits)
    rw [if_neg hlink] at hloc
    refine ⟨_, ?_, hmap, hsame.le.trans (Nat.le_succ _), hfind⟩
    rw [EasyMap.insert, hloc]
    exact if_neg hlink

/-- A write through the pointer of a search. -/
theorem IsMap.assign (h : IsMap hash maxItems size t) (hsize : maxItems < size) (key : K) (v : V) :
    IsMap hash maxItems size (EasyMap.assign hash maxItems size t key v) ∧
      ∀ k, find hash maxItems size (EasyMap.assign hash maxItems size t key v) k =
        if key = k then (find hash maxItems size t k).map fun _ => v
        else find hash maxItems size t k := by
  obtain ⟨c, hc⟩ := h.exists_locate hsize key
  have hloc := h.locate_eq key
  have hfindkey := h.find_eq key
  rw [hc] at hloc
  rw [ProbeTable.find, hc, Option.bind_some] at hfindkey
  dsimp only at hloc
  by_cases hlink : t.link c = sentinel maxItems
  · rw [if_pos hlink] at hloc
    rw [cells_of_eq hlink, Option.map_none] at hfindkey
    have hsame : EasyMap.assign hash maxItems size t key v = t := by
      rw [EasyMap.assign, hloc]
    rw [hsame]
    refine ⟨h, fun k => ?_⟩
    by_cases hk : key = k
    · rw [if_pos hk, ← hk, hfindkey, Option.map_none]
    · rw [if_neg hk]
  · rw [if_neg hlink] at hloc
    obtain ⟨e, hdata, hcell⟩ := h.cells_eq hlink
    have hekey : e.1 = key := ProbeTable.locate_some hc hcell
    have hmodify : t.data.modify (t.link c) (fun e => (e.1, v)) =
        t.data.set (t.link c) (key, v) := by
      rw [List.modify_eq_set_getElem?, hdata, Option.map_eq_map, Option.map_some, Option.getD_some,
        hekey]
    have hrun : EasyMap.assign hash maxItems size t key v =
        ⟨t.link, t.data.set (t.link c) (key, v)⟩ := by
      rw [EasyMap.assign, hloc]
      dsimp only
      rw [hmodify]
    have hsame : (t.data.set (t.link c) (key, v)).length = t.data.length := List.length_set
    obtain ⟨hmap, hfind⟩ := h.of_update hc (h.cells_set hlink (key, v))
      (fun id hid => hsame ▸ h.linked id hid) h.distinct (hsame ▸ h.fits)
    rw [hrun]
    refine ⟨hmap, fun k => ?_⟩
    rw [hfind]
    by_cases hk : key = k
    · rw [if_pos hk, if_pos hk, ← hk, hfindkey, hcell, Option.map_some, Option.map_some]
    · rw [if_neg hk, if_neg hk]

end Entries

end HM4.EasyMap
