import HM4.Isam
import HM4.General.ProbeTable
import Mathlib.Data.List.Lex

/-!
# Searchers for the fields of a record

A field is searched by its name in the container, in a sorted index, in a hashtable, or while the
schema is read. With a repeated name the first, the last or any of its fields is found.
-/

namespace HM4.Isam

open Bytes Database Separated

/-! ## The code -/

/-- `LinearSearcherByName`. -/
def linearSearcher (container : List Field) (name : Key) : Option Field :=
  container.find? fun field => field.name = name

/-- What `std::sort` may leave in the index: the fields in the order of their names. Fields of one
name may stand in any order. -/
structure IsSorted (container ix : List Field) : Prop where
  perm : ix.Perm container
  sorted : ix.Pairwise fun a b => a.name ≤ b.name

/-- `IndexSearcherByName`: `std::lower_bound`, and a check of what it finds. -/
def indexSearcher (ix : List Field) (name : Key) : Option Field :=
  match ix.find? fun field => ¬field.name < name with
  | none => none
  | some field => if field.name = name then some field else none

/-- What `createAndSearchByName` does with a field. -/
def searchPush (name : Key) (st : List Field × ℕ) (field : Field) : (List Field × ℕ) × Bool :=
  if st.1.length = CONTAINER_SIZE then (([], MAX), true)
  else
    let container := st.1 ++ [field]
    ((container, if st.2 = MAX ∧ field.name = name then container.length - 1 else st.2), false)

/-- `createAndSearchByName`: the container, and the place of the field. -/
def createAndSearchByName (schema name : Key) : List Field × ℕ :=
  (iterateSchema (searchPush name) schema ([], MAX)).2

/-- `PrecomputedSearcherByName` without a name. -/
def precomputedSearcher (st : List Field × ℕ) : Option Field := st.1[st.2]?

/-- `PrecomputedSearcherByName` with a name. -/
def precomputedSearcherByName (st : List Field × ℕ) (name : Key) : Option Field :=
  match st.1[st.2]? with
  | none => none
  | some field => if field.name ≠ name then none else some field

/-- `HashSearcherByName::HT_CELLS`. -/
def HT_CELLS : ℕ := 1024

/-- `CompactStorage::sentinel__`. -/
def sentinel : ℕ := 255

/-- The hashtable: the tokens of `TopHashIndex`, and `CompactStorage` with its links. -/
structure Hashtable where
  /-- `TopHashIndex::data_`. -/
  token : ℕ → ℕ
  /-- `CompactStorage::link_`. -/
  link : ℕ → ℕ
  /-- `CompactStorage::data_`. -/
  data : List Field

namespace Hashtable

/-- A hashtable without fields. -/
def empty : Hashtable := ⟨fun _ => 0, fun _ => sentinel, []⟩

/-- `TopHashIndex::getToken`. -/
def getToken (hash : ℕ) : ℕ := hash % 256 ||| 1

/-- `EasyHashtable::Locator`. -/
inductive Locator
  | ERROR
  | EMPTY (id : ℕ)
  | FOUND (id : ℕ)

/-- The loop of `locate_`. -/
def locateFrom (t : Hashtable) (key : Key) (cell token : ℕ) : List ℕ → Locator
  | [] => .ERROR
  | i :: is =>
    let id := (cell + i) % HT_CELLS
    if t.token id = token then
      if t.data[t.link id]?.map Field.name = some key then .FOUND id
      else locateFrom t key cell token is
    else if t.token id = 0 then .EMPTY id
    else locateFrom t key cell token is

variable (hash : Key → ℕ)

/-- `EasyHashtable::locate_`. -/
def locate (t : Hashtable) (key : Key) : Locator :=
  locateFrom t key (hash key % HT_CELLS) (getToken (hash key)) (List.range HT_CELLS)

/-- `CompactStorage::emplace` and `TopHashIndex::emplace`; a full container throws. -/
def emplace (t : Hashtable) (id token : ℕ) (field : Field) : Option Hashtable :=
  if t.link id = sentinel then
    if t.data.length = CONTAINER_SIZE then none
    else some ⟨Function.update t.token id token, Function.update t.link id (t.data.length % 256),
      t.data ++ [field]⟩
  else some ⟨Function.update t.token id token, t.link, t.data.set (t.link id) field⟩

/-- `EasyHashtable::insertF_`. -/
def insert (t : Hashtable) (field : Field) : Option Hashtable :=
  match t.locate hash field.name with
  | .ERROR => some t
  | .EMPTY id => t.emplace id (getToken (hash field.name)) field
  | .FOUND id => t.emplace id (getToken (hash field.name)) field

/-- `EasyHashtable::find`. -/
def find (t : Hashtable) (key : Key) : Option Field :=
  match t.locate hash key with
  | .FOUND id => t.data[t.link id]?
  | _ => none

/-- The constructor of `HashSearcherByName`. -/
def ofFields (container : List Field) : Option Hashtable :=
  container.foldlM (insert hash) empty

end Hashtable

/-- `HashSearcherByName`. -/
def hashSearcher (hash : Key → ℕ) (container : List Field) (name : Key) : Option Field :=
  (Hashtable.ofFields hash container).bind fun t => t.find hash name

/-- `selectFastSearcher`. -/
def selectFastSearcher (size searches : ℕ) : Prop :=
  [MAX, MAX, 10, 4, 3].getD (min searches 4) 0 ≤ size

instance (size searches : ℕ) : Decidable (selectFastSearcher size searches) :=
  inferInstanceAs (Decidable (_ ≤ _))

/-- `ISAM::load` with a searcher. -/
def loadBy (searcher : Key → Option Field) (storage name : Key) : Option Key :=
  match searcher name with
  | none => some []
  | some field => field.load storage

/-- `IMGET::collect_N__` of a record with the right size: the searcher depends on the work. -/
def collectN (hash : Key → ℕ) (isam : ISAM) (storage : Key) (names : List Key) :
    List (Option Key) :=
  if selectFastSearcher isam.size names.length then
    names.map (loadBy (hashSearcher hash isam.container) storage)
  else names.map (loadBy (linearSearcher isam.container) storage)

/-! ## The hashtable -/

namespace Hashtable

variable {hash : Key → ℕ} {t : Hashtable}

theorem getToken_ne_zero (n : ℕ) : getToken n ≠ 0 :=
  Nat.ne_of_gt (Nat.lt_of_lt_of_le Nat.one_pos Nat.right_le_or)

/-- The field in a cell. -/
def cells (t : Hashtable) (id : ℕ) : Option Field :=
  if t.token id = 0 then none else t.data[t.link id]?

/-- The cells in the order in which a key tries them. -/
def probes (hash : Key → ℕ) (key : Key) : List ℕ :=
  (List.range HT_CELLS).map fun i => (hash key % HT_CELLS + i) % HT_CELLS

/-- A cell with a token has a link of its own, to a field with that token. -/
structure IsTable (hash : Key → ℕ) (t : Hashtable) : Prop where
  sentinel_iff : ∀ id, t.link id = sentinel ↔ t.token id = 0
  linked : ∀ id, t.token id ≠ 0 →
    ∃ field, t.data[t.link id]? = some field ∧ t.token id = getToken (hash field.name)
  distinct : ∀ id id', t.token id ≠ 0 → t.link id = t.link id' → id = id'
  fits : t.data.length ≤ CONTAINER_SIZE

theorem isTable_empty : IsTable hash empty where
  sentinel_iff := fun _ => iff_of_true rfl rfl
  linked := fun _ h => absurd rfl h
  distinct := fun _ _ h => absurd rfl h
  fits := Nat.zero_le _

theorem cells_of_eq {id : ℕ} (h : t.token id = 0) : t.cells id = none := if_pos h

theorem cells_of_ne {id : ℕ} (h : t.token id ≠ 0) : t.cells id = t.data[t.link id]? := if_neg h

theorem IsTable.cells_eq (h : IsTable hash t) {id : ℕ} (hid : t.token id ≠ 0) :
    ∃ field, t.data[t.link id]? = some field ∧ t.cells id = some field ∧
      t.token id = getToken (hash field.name) := by
  obtain ⟨field, hfield, htoken⟩ := h.linked id hid
  exact ⟨field, hfield, (cells_of_ne hid).trans hfield, htoken⟩

/-- The loop over the tokens finds the cell that a loop over the names finds. -/
theorem IsTable.locateFrom_eq (h : IsTable hash t) (key : Key) (cell : ℕ) (is : List ℕ) :
    locateFrom t key cell (getToken (hash key)) is =
      match ProbeTable.locate Field.name t.cells key (is.map fun i => (cell + i) % HT_CELLS) with
      | none => .ERROR
      | some c => if t.token c = 0 then .EMPTY c else .FOUND c := by
  induction is with
  | nil => rfl
  | cons i is ih =>
    rw [locateFrom, List.map_cons, ProbeTable.locate]
    by_cases hzero : t.token ((cell + i) % HT_CELLS) = 0
    · have hcell : t.cells ((cell + i) % HT_CELLS) = none := if_pos hzero
      rw [hcell, if_neg (hzero ▸ (getToken_ne_zero _).symm), if_pos hzero]
      exact (if_pos hzero).symm
    · obtain ⟨field, hdata, hcell, htoken⟩ := h.cells_eq hzero
      rw [hcell, hdata, Option.map_some]
      dsimp only
      by_cases hname : field.name = key
      · rw [if_pos (hname ▸ htoken), if_pos (congrArg some hname), if_pos hname]
        exact (if_neg hzero).symm
      · rw [if_neg (fun heq => hname (Option.some.inj heq)), if_neg hname, if_neg hzero, ite_self]
        exact ih

theorem IsTable.locate_eq (h : IsTable hash t) (key : Key) :
    t.locate hash key =
      match ProbeTable.locate Field.name t.cells key (probes hash key) with
      | none => .ERROR
      | some c => if t.token c = 0 then .EMPTY c else .FOUND c := by
  rw [locate, h.locateFrom_eq, probes]

theorem IsTable.find_eq (h : IsTable hash t) (key : Key) :
    t.find hash key = ProbeTable.find Field.name (probes hash) t.cells key := by
  have hloc := h.locate_eq key
  unfold find ProbeTable.find
  generalize t.locate hash key = l at hloc ⊢
  generalize ProbeTable.locate Field.name t.cells key (probes hash key) = r at hloc ⊢
  subst hloc
  cases r with
  | none => rfl
  | some c =>
    dsimp only
    rw [Option.bind_some, cells]
    by_cases hzero : t.token c = 0
    · rw [if_pos hzero, if_pos hzero]
    · rw [if_neg hzero, if_neg hzero]

theorem probes_nodup (key : Key) : (probes hash key).Nodup := by
  refine List.Nodup.map_on (fun i hi j hj heq => ?_) List.nodup_range
  have hi' := List.mem_range.mp hi
  have hj' := List.mem_range.mp hj
  unfold HT_CELLS at *
  omega

theorem length_probes (key : Key) : (probes hash key).length = HT_CELLS := by
  rw [probes, List.length_map, List.length_range]

theorem token_ne_zero {id : ℕ} {field : Field} (h : t.cells id = some field) : t.token id ≠ 0 := by
  intro hzero
  rw [cells, if_pos hzero] at h
  exact nomatch h

theorem IsTable.link_lt (h : IsTable hash t) {id : ℕ} (hid : t.token id ≠ 0) :
    t.link id < t.data.length := by
  obtain ⟨field, hfield, -⟩ := h.linked id hid
  exact (List.getElem?_eq_some_iff.mp hfield).1

/-- There are more cells than fields, so that each search stops at a cell. -/
theorem IsTable.exists_locate (h : IsTable hash t) (key : Key) :
    ∃ c, ProbeTable.locate Field.name t.cells key (probes hash key) = some c := by
  have hfits := h.fits
  have hlen : t.data.length < (probes hash key).length := by
    rw [length_probes]
    unfold HT_CELLS CONTAINER_SIZE at *
    omega
  exact ProbeTable.exists_locate (probes_nodup key) hlen (fun c _ hc => h.link_lt (token_ne_zero hc))
    fun c d _ _ hc _ => h.distinct c d (token_ne_zero hc)

/-- A new field in a cell that was free. -/
theorem IsTable.emplace_free (h : IsTable hash t) (hlen : t.data.length < CONTAINER_SIZE) {c : ℕ}
    (hc : t.link c = sentinel) (field : Field) :
    ∃ t', t.emplace c (getToken (hash field.name)) field = some t' ∧ IsTable hash t' ∧
      t'.cells = Function.update t.cells c (some field) ∧
      t'.data.length = t.data.length + 1 := by
  have hmod : t.data.length % 256 = t.data.length := by
    unfold CONTAINER_SIZE at hlen
    omega
  have hnew : t.data.length ≠ sentinel := by
    unfold CONTAINER_SIZE at hlen
    unfold sentinel
    omega
  have hother : ∀ id, t.link id ≠ t.data.length := fun id heq => by
    by_cases hid : t.token id = 0
    · exact hnew (heq.symm.trans ((h.sentinel_iff id).mpr hid))
    · exact Nat.ne_of_lt (h.link_lt hid) heq
  rw [emplace, if_pos hc, if_neg (Nat.ne_of_lt hlen), hmod]
  refine ⟨_, rfl, ⟨fun id => ?_, fun id hid => ?_, fun id id' hid heq => ?_, ?_⟩, ?_, ?_⟩
  · by_cases hidc : id = c
    · subst hidc
      dsimp only
      rw [Function.update_self, Function.update_self]
      exact iff_of_false hnew (getToken_ne_zero _)
    · dsimp only
      rw [Function.update_of_ne hidc, Function.update_of_ne hidc]
      exact h.sentinel_iff id
  · by_cases hidc : id = c
    · subst hidc
      dsimp only
      rw [Function.update_self, Function.update_self]
      exact ⟨field, List.getElem?_concat_length, rfl⟩
    · dsimp only at hid ⊢
      rw [Function.update_of_ne hidc] at hid ⊢
      rw [Function.update_of_ne hidc, List.getElem?_append_left (h.link_lt hid)]
      exact h.linked id hid
  · dsimp only at hid heq
    by_cases hidc : id = c
    · by_cases hidc' : id' = c
      · rw [hidc, hidc']
      · rw [hidc, Function.update_self, Function.update_of_ne hidc'] at heq
        exact absurd heq.symm (hother id')
    · rw [Function.update_of_ne hidc] at hid
      by_cases hidc' : id' = c
      · rw [hidc', Function.update_self, Function.update_of_ne hidc] at heq
        exact absurd heq (hother id)
      · rw [Function.update_of_ne hidc, Function.update_of_ne hidc'] at heq
        exact h.distinct id id' hid heq
  · rw [List.length_append, List.length_singleton]
    exact hlen
  · funext id
    by_cases hidc : id = c
    · have htoken : Function.update t.token c (getToken (hash field.name)) id ≠ 0 := by
        rw [hidc, Function.update_self]
        exact getToken_ne_zero _
      rw [cells_of_ne htoken, hidc, Function.update_self]
      dsimp only
      rw [Function.update_self, List.getElem?_concat_length]
    · have htoken : Function.update t.token c (getToken (hash field.name)) id = t.token id :=
        Function.update_of_ne hidc ..
      rw [Function.update_of_ne hidc]
      by_cases hid : t.token id = 0
      · rw [cells_of_eq hid, cells_of_eq (htoken.trans hid)]
      · rw [cells_of_ne hid, cells_of_ne (fun heq => hid (htoken.symm.trans heq))]
        dsimp only
        rw [Function.update_of_ne hidc, List.getElem?_append_left (h.link_lt hid)]
  · rw [List.length_append, List.length_singleton]

/-- A field in the place of another one. -/
theorem IsTable.emplace_taken (h : IsTable hash t) {c : ℕ} (hc : t.link c ≠ sentinel)
    (field : Field) :
    ∃ t', t.emplace c (getToken (hash field.name)) field = some t' ∧ IsTable hash t' ∧
      t'.cells = Function.update t.cells c (some field) ∧ t'.data.length = t.data.length := by
  have htoken : t.token c ≠ 0 := fun hzero => hc ((h.sentinel_iff c).mpr hzero)
  have hself : (t.data.set (t.link c) field)[t.link c]? = some field :=
    List.getElem?_set_self (h.link_lt htoken)
  have hother : ∀ id, id ≠ c → t.token id ≠ 0 →
      (t.data.set (t.link c) field)[t.link id]? = t.data[t.link id]? := fun id hidc hid =>
    List.getElem?_set_ne fun heq => hidc (h.distinct c id htoken heq).symm
  rw [emplace, if_neg hc]
  refine ⟨_, rfl, ⟨fun id => ?_, fun id hid => ?_, fun id id' hid heq => ?_, ?_⟩, ?_, ?_⟩
  · by_cases hidc : id = c
    · subst hidc
      dsimp only
      rw [Function.update_self]
      exact iff_of_false hc (getToken_ne_zero _)
    · dsimp only
      rw [Function.update_of_ne hidc]
      exact h.sentinel_iff id
  · by_cases hidc : id = c
    · subst hidc
      dsimp only
      rw [Function.update_self]
      exact ⟨field, hself, rfl⟩
    · dsimp only at hid ⊢
      rw [Function.update_of_ne hidc] at hid ⊢
      rw [hother id hidc hid]
      exact h.linked id hid
  · dsimp only at hid heq
    refine h.distinct id id' (fun hzero => ?_) heq
    by_cases hidc : id = c
    · exact htoken (hidc ▸ hzero)
    · rw [Function.update_of_ne hidc] at hid
      exact hid hzero
  · rw [List.length_set]
    exact h.fits
  · funext id
    by_cases hidc : id = c
    · have htoken' : Function.update t.token c (getToken (hash field.name)) id ≠ 0 := by
        rw [hidc, Function.update_self]
        exact getToken_ne_zero _
      rw [cells_of_ne htoken', hidc, Function.update_self, hself]
    · have htoken' : Function.update t.token c (getToken (hash field.name)) id = t.token id :=
        Function.update_of_ne hidc ..
      rw [Function.update_of_ne hidc]
      by_cases hid : t.token id = 0
      · rw [cells_of_eq hid, cells_of_eq (htoken'.trans hid)]
      · rw [cells_of_ne hid, cells_of_ne (fun heq => hid (htoken'.symm.trans heq)),
          hother id hidc hid]
  · rw [List.length_set]

/-- A field that is inserted into a table with room. -/
theorem IsTable.insert (h : IsTable hash t) (hlen : t.data.length < CONTAINER_SIZE)
    (field : Field) :
    ∃ c t', ProbeTable.locate Field.name t.cells field.name (probes hash field.name) = some c ∧
      t.insert hash field = some t' ∧ IsTable hash t' ∧
      t'.cells = Function.update t.cells c (some field) ∧
      t'.data.length ≤ t.data.length + 1 := by
  obtain ⟨c, hloc⟩ := h.exists_locate field.name
  have hemplace : ∃ t', t.emplace c (getToken (hash field.name)) field = some t' ∧
      IsTable hash t' ∧ t'.cells = Function.update t.cells c (some field) ∧
      t'.data.length ≤ t.data.length + 1 := by
    by_cases hc : t.link c = sentinel
    · obtain ⟨t', ht', htable, hcells, hdata⟩ := h.emplace_free hlen hc field
      exact ⟨t', ht', htable, hcells, hdata.le⟩
    · obtain ⟨t', ht', htable, hcells, hdata⟩ := h.emplace_taken hc field
      exact ⟨t', ht', htable, hcells, hdata.le.trans (Nat.le_succ _)⟩
  obtain ⟨t', ht', hspec⟩ := hemplace
  refine ⟨c, t', hloc, ?_, hspec⟩
  have hlocate := h.locate_eq field.name
  rw [hloc] at hlocate
  dsimp only at hlocate
  unfold Hashtable.insert
  generalize t.locate hash field.name = l at hlocate ⊢
  subst hlocate
  by_cases hzero : t.token c = 0
  · rw [if_pos hzero]
    exact ht'
  · rw [if_neg hzero]
    exact ht'

/-- Inserting fields one after another: a search finds the last one of its name. -/
theorem IsTable.insertAll {container : List Field} (h : IsTable hash t)
    (hreach : ProbeTable.Reached Field.name (probes hash) t.cells)
    (hlen : t.data.length + container.length ≤ CONTAINER_SIZE) :
    ∃ t', container.foldlM (Hashtable.insert hash) t = some t' ∧ ∀ key, t'.find hash key =
      ((container.reverse.find? fun field => field.name = key).or (t.find hash key)) := by
  induction container generalizing t with
  | nil =>
    refine ⟨t, rfl, fun key => ?_⟩
    rw [List.reverse_nil, List.find?_nil, Option.none_or]
  | cons field container ih =>
    rw [List.length_cons] at hlen
    obtain ⟨c, t', hloc, hinsert, htable, hcells, hdata⟩ := h.insert (by omega) field
    have hcells' := ProbeTable.insert_eq hloc
    rw [← hcells] at hcells'
    have hreach' := (hreach.insert hloc).1
    rw [hcells'] at hreach'
    obtain ⟨t'', hrun, hfind⟩ := ih htable hreach' (by omega)
    refine ⟨t'', ?_, fun key => ?_⟩
    · rw [List.foldlM_cons, hinsert]
      exact hrun
    · rw [hfind, htable.find_eq, h.find_eq, ← hcells', ProbeTable.find_insert hreach hloc,
        List.reverse_cons, List.find?_append, Option.or_assoc]
      generalize ProbeTable.find Field.name (probes hash) t.cells key = before
      generalize List.find? _ container.reverse = after
      rw [List.find?_singleton]
      by_cases hname : field.name = key
      · rw [if_pos hname, if_pos (decide_eq_true hname), Option.some_or]
      · rw [if_neg hname, if_neg (fun h => hname (of_decide_eq_true h)), Option.none_or]

end Hashtable

/-! ## What each searcher finds -/

/-- Two ways to take the fields of a schema that go on and stop together. -/
theorem iterateTokens_lockstep {σ τ : Type*} {f : σ → Field → σ × Bool} {g : τ → Field → τ × Bool}
    {R : σ → τ → Prop}
    (h : ∀ st st' field, R st st' →
      (f st field).2 = (g st' field).2 ∧ R (f st field).1 (g st' field).1)
    (tokens : List Key) (off : ℕ) {st : σ} {st' : τ} (hR : R st st') :
    R (iterateTokens f tokens off st).2 (iterateTokens g tokens off st').2 := by
  induction tokens generalizing off st st' with
  | nil => exact hR
  | cons s tokens ih =>
    unfold iterateTokens
    dsimp only
    split
    · exact hR
    · split
      · exact hR
      · generalize Field.mk off _ _ = field
        obtain ⟨hstop, hnext⟩ := h st st' field hR
        rw [hstop]
        split
        · exact hnext
        · exact ih _ hnext

/-- The place is that of the first field with the name, or there is none. -/
def IsFirst (name : Key) (st : List Field × ℕ) (container : List Field) : Prop :=
  st.1 = container ∧ container.length ≤ CONTAINER_SIZE ∧
    ((st.2 = MAX ∧ linearSearcher container name = none) ∨
      (st.2 < container.length ∧ container[st.2]? = linearSearcher container name))

theorem isFirst_push (name : Key) (st : List Field × ℕ) (container : List Field) (field : Field)
    (h : IsFirst name st container) :
    (searchPush name st field).2 = (push container field).2 ∧
      IsFirst name (searchPush name st field).1 (push container field).1 := by
  obtain ⟨rfl, hlen, hid⟩ := h
  unfold searchPush push
  by_cases hfull : st.1.length = CONTAINER_SIZE
  · rw [if_pos hfull, if_pos hfull]
    exact ⟨rfl, rfl, Nat.zero_le _, .inl ⟨rfl, rfl⟩⟩
  · rw [if_neg hfull, if_neg hfull]
    have hsize : (st.1 ++ [field]).length = st.1.length + 1 := by
      rw [List.length_append, List.length_singleton]
    have hfind : linearSearcher (st.1 ++ [field]) name =
        (linearSearcher st.1 name).or (linearSearcher [field] name) := List.find?_append
    refine ⟨rfl, rfl, hsize.le.trans (Nat.lt_of_le_of_ne hlen hfull), ?_⟩
    dsimp only
    rcases hid with ⟨hmax, hnone⟩ | ⟨hlt, hfirst⟩
    · rw [hfind, hnone, Option.none_or, linearSearcher, List.find?_singleton, hsize]
      by_cases hname : field.name = name
      · rw [if_pos ⟨hmax, hname⟩, if_pos (decide_eq_true hname), Nat.add_sub_cancel]
        exact .inr ⟨Nat.lt_succ_self _, List.getElem?_concat_length⟩
      · rw [if_neg fun h => hname h.2, if_neg fun h => hname (of_decide_eq_true h)]
        exact .inl ⟨hmax, rfl⟩
    · have hne : st.2 ≠ MAX := by
        unfold MAX
        unfold CONTAINER_SIZE at hlen
        omega
      obtain ⟨first, hsome⟩ : ∃ first, st.1[st.2]? = some first := ⟨_, List.getElem?_eq_getElem hlt⟩
      rw [if_neg fun h => hne h.1, hfind, ← hfirst, hsome, Option.some_or, hsize,
        List.getElem?_append_left hlt, hsome]
      exact .inr ⟨Nat.lt_succ_of_lt hlt, rfl⟩

theorem isFirst_createAndSearchByName (schema name : Key) :
    IsFirst name (createAndSearchByName schema name) (fieldsOf schema) :=
  iterateTokens_lockstep (isFirst_push name) _ 0 ⟨rfl, Nat.zero_le _, .inl ⟨rfl, rfl⟩⟩

/-- The search while the schema is read gives the first field of a name. -/
theorem precomputedSearcher_eq (schema name : Key) :
    precomputedSearcher (createAndSearchByName schema name) =
      linearSearcher (fieldsOf schema) name := by
  obtain ⟨hcontainer, hlen, hid⟩ := isFirst_createAndSearchByName schema name
  unfold precomputedSearcher
  rw [hcontainer]
  rcases hid with ⟨hmax, hnone⟩ | ⟨-, hfirst⟩
  · rw [hmax, hnone]
    unfold CONTAINER_SIZE at hlen
    exact List.getElem?_eq_none (by unfold MAX; omega)
  · exact hfirst

theorem linearSearcher_name {container : List Field} {name : Key} {field : Field}
    (h : linearSearcher container name = some field) : field.name = name := by
  have hname := List.find?_some h
  exact of_decide_eq_true hname

theorem precomputedSearcherByName_eq (schema name : Key) :
    precomputedSearcherByName (createAndSearchByName schema name) name =
      linearSearcher (fieldsOf schema) name := by
  have hfirst := precomputedSearcher_eq schema name
  unfold precomputedSearcher at hfirst
  rw [precomputedSearcherByName, hfirst]
  cases hfind : linearSearcher (fieldsOf schema) name with
  | none => rfl
  | some field => exact if_neg (not_not.mpr (linearSearcher_name hfind))

/-- The hashtable gives the last field of a name. -/
theorem hashSearcher_eq (hash : Key → ℕ) {container : List Field}
    (h : container.length ≤ CONTAINER_SIZE) (name : Key) :
    hashSearcher hash container name =
      container.reverse.find? fun field => field.name = name := by
  obtain ⟨t, ht, hfind⟩ := @Hashtable.IsTable.insertAll hash Hashtable.empty container
    Hashtable.isTable_empty (fun c v hc => nomatch hc) (by rw [Hashtable.empty, List.length_nil, Nat.zero_add]; exact h)
  have hnone : Hashtable.empty.find hash name = none := by
    rw [Hashtable.isTable_empty.find_eq]
    cases hf : ProbeTable.find Field.name (Hashtable.probes hash) Hashtable.empty.cells name with
    | none => rfl
    | some v =>
      obtain ⟨c, -, hc⟩ := Option.bind_eq_some_iff.mp hf
      exact nomatch hc
  rw [hashSearcher, Hashtable.ofFields, ht, Option.bind_some, hfind, hnone, Option.or_none]

/-! ## When they agree -/

/-- The fields with a name. -/
def named (container : List Field) (name : Key) : List Field :=
  container.filter fun field => field.name = name

theorem linearSearcher_eq_head? (container : List Field) (name : Key) :
    linearSearcher container name = (named container name).head? := List.head?_filter.symm

theorem hashSearcher_eq_getLast? (hash : Key → ℕ) {container : List Field}
    (h : container.length ≤ CONTAINER_SIZE) (name : Key) :
    hashSearcher hash container name = (named container name).getLast? :=
  (hashSearcher_eq hash h name).trans List.getLast?_filter.symm

/-- No field comes twice. -/
theorem IsLayout.nodup {container : List Field} (h : IsLayout container) : container.Nodup := by
  refine List.nodup_iff_getElem?_ne_getElem?.mpr fun i j hij hj heq => ?_
  have hget : container[j]? = some container[j] := List.getElem?_eq_getElem hj
  have hle := h.consecutive.end_le (heq.trans hget) hget hij
  have hpos := h.positive _ (List.getElem_mem hj)
  omega

theorem head?_eq_getLast?_iff {α : Type*} {l : List α} (h : l.Nodup) :
    l.head? = l.getLast? ↔ l.length ≤ 1 := by
  match l with
  | [] => exact iff_of_true rfl (Nat.zero_le 1)
  | [x] => exact iff_of_true rfl le_rfl
  | x :: y :: l =>
    refine iff_of_false (fun heq => ?_) (by simp)
    rw [List.head?_cons, List.getLast?_cons_cons] at heq
    exact (List.nodup_cons.mp h).1 (List.mem_of_getLast? heq.symm)

/-- A sorted index finds the field of a name that comes once, and no other. -/
theorem IsSorted.indexSearcher_eq {container ix : List Field} (h : IsSorted container ix)
    {name : Key} (hone : (named container name).length ≤ 1) :
    indexSearcher ix name = linearSearcher container name := by
  have hperm : (named ix name).Perm (named container name) := h.perm.filter _
  rw [linearSearcher_eq_head?, indexSearcher]
  match hnamed : named container name with
  | [] =>
    rw [hnamed] at hperm
    have hnone : ∀ field ∈ ix, field.name ≠ name := fun field hmem heq => by
      have hin : field ∈ named ix name := List.mem_filter.mpr ⟨hmem, decide_eq_true heq⟩
      rw [hperm.eq_nil] at hin
      exact List.not_mem_nil hin
    cases hfind : ix.find? fun field => ¬field.name < name with
    | none => rfl
    | some field => exact if_neg (hnone field (List.mem_of_find?_eq_some hfind))
  | [field] =>
    rw [hnamed] at hperm
    have honly : named ix name = [field] := List.perm_singleton.mp hperm
    have hin : field ∈ named ix name := honly ▸ List.mem_singleton_self field
    obtain ⟨hmem, hname⟩ := List.mem_filter.mp hin
    have hname' : field.name = name := of_decide_eq_true hname
    cases hfind : ix.find? fun field => ¬field.name < name with
    | none =>
      have hless := List.find?_eq_none.mp hfind field hmem
      rw [hname'] at hless
      simp at hless
    | some first =>
      obtain ⟨hnot, before, after, rfl, hbefore⟩ := List.find?_eq_some_iff_append.mp hfind
      have hge : ¬first.name < name := of_decide_eq_true hnot
      have hfirst : first.name = name := by
        rcases List.mem_append.mp hmem with hmem | hmem
        · have hless := hbefore field hmem
          rw [hname'] at hless
          simp at hless
        · rcases List.mem_cons.mp hmem with rfl | hmem
          · exact hname'
          · have hle := (List.pairwise_cons.mp (List.pairwise_append.mp h.sorted).2.1).1 field hmem
            rw [hname'] at hle
            exact le_antisymm hle (not_lt.mp hge)
      have hin' : first ∈ named (before ++ first :: after) name :=
        List.mem_filter.mpr ⟨by simp, decide_eq_true hfirst⟩
      rw [honly] at hin'
      dsimp only
      rw [if_pos hfirst, List.mem_singleton.mp hin', List.head?_cons]
  | _ :: _ :: _ =>
    rw [hnamed] at hone
    simp at hone

/-- All searchers find the same field for a name, or all find none. -/
structure Agree (hash : Key → ℕ) (ix : List Field) (schema name : Key) : Prop where
  index : indexSearcher ix name = linearSearcher (ISAM.ofSchema schema).container name
  hash : hashSearcher hash (ISAM.ofSchema schema).container name =
    linearSearcher (ISAM.ofSchema schema).container name
  precomputed : precomputedSearcher (createAndSearchByName schema name) =
    linearSearcher (ISAM.ofSchema schema).container name
  precomputedByName : precomputedSearcherByName (createAndSearchByName schema name) name =
    linearSearcher (ISAM.ofSchema schema).container name

/-- The searchers agree on a name exactly if no two fields of the schema have it, for each hash
function and each way in which the index can be sorted. -/
theorem searchers_agree_iff (hash : Key → ℕ) (schema name : Key) {ix : List Field}
    (h : IsSorted (ISAM.ofSchema schema).container ix) :
    Agree hash ix schema name ↔ (named (ISAM.ofSchema schema).container name).length ≤ 1 := by
  have hlayout := (ISAM.ofSchema schema).isLayout
  have hnodup : (named (ISAM.ofSchema schema).container name).Nodup := hlayout.nodup.filter _
  rw [← head?_eq_getLast?_iff hnodup]
  constructor
  · intro hagree
    have hhash := hagree.hash
    rwa [hashSearcher_eq_getLast? hash hlayout.fits, linearSearcher_eq_head?, eq_comm] at hhash
  · intro heq
    exact {
      index := h.indexSearcher_eq ((head?_eq_getLast?_iff hnodup).mp heq)
      hash := by rw [hashSearcher_eq_getLast? hash hlayout.fits, linearSearcher_eq_head?, heq]
      precomputed := precomputedSearcher_eq schema name
      precomputedByName := precomputedSearcherByName_eq schema name }

/-- The schema `1:a`. -/
theorem searchers_agree_one_field :
    Agree (fun _ => 0) [⟨0, 1, [97]⟩] (schemaText [(1, [97])]) [97] ↔
      (named (ISAM.ofSchema (schemaText [(1, [97])])).container [97]).length ≤ 1 :=
  have hfields : (ISAM.ofSchema (schemaText [(1, [97])])).container = [⟨0, 1, [97]⟩] := by
    decide +kernel
  searchers_agree_iff (fun _ => 0) (schemaText [(1, [97])]) [97]
    ⟨hfields ▸ List.Perm.refl _, List.pairwise_singleton _ _⟩

/-- The schema `1:a,1:a`: one searcher finds the first field, the other one the second. -/
theorem repeated_name :
    linearSearcher (ISAM.ofSchema (schemaText [(1, [97]), (1, [97])])).container [97] =
      some ⟨0, 1, [97]⟩ ∧
    ∀ hash : Key → ℕ, hashSearcher hash (ISAM.ofSchema (schemaText [(1, [97]), (1, [97])])).container [97] =
      some ⟨1, 1, [97]⟩ := by
  have hfields : (ISAM.ofSchema (schemaText [(1, [97]), (1, [97])])).container =
      [⟨0, 1, [97]⟩, ⟨1, 1, [97]⟩] := by decide +kernel
  refine ⟨?_, fun hash => ?_⟩
  · rw [hfields]
    rfl
  · rw [hashSearcher_eq hash (ISAM.ofSchema _).isLayout.fits, hfields]
    rfl

end HM4.Isam
