import HM4.DiskTable
import HM4.FileMeta
import HM4.General.IndexSort

/-!
# Loading the tables of a directory

The loader keeps the tables of a directory open. A refresh asks the directory
for the names that match the path, takes the number of each file, keeps a table
that was opened under this number and opens the others, then sorts the tables,
newest first. A number that a removed file had before is no promise about the
file that has it now.
-/

namespace HM4.DirectoryListLoader

open Bytes Pairs DiskTable FileMeta IndexSort

/-! ### Directories -/

/-- The mask of the file type in `st_mode`. -/
def sIFMT : ℕ := 0o170000

/-- The type of a regular file. -/
def sIFREG : ℕ := 0o100000

/-- The type of a link. -/
def sIFLNK : ℕ := 0o120000

/-- The type of a directory. -/
def sIFDIR : ℕ := 0o040000

/-- A name in a directory with what `stat` and `open` find under it. -/
structure Entry where
  /-- The name. -/
  name : Key
  /-- `st_mode`. -/
  mode : ℕ
  /-- `st_ino`. -/
  inode : ℕ
  /-- The table in the file, nothing for a subdirectory. -/
  table : Option Table

/-- A table file. -/
def Entry.IsTable (e : Entry) : Prop := e.table.isSome ∧ e.mode &&& sIFMT = sIFREG

/-- A subdirectory. -/
def Entry.IsDirectory (e : Entry) : Prop := e.table = none ∧ e.mode &&& sIFMT = sIFDIR

/-- The pairs in a file. -/
def Entry.pairs (e : Entry) : List Pair := (e.table.map Table.pairs).getD []

/-- The names that match the path of the loader, in the order of `glob`. Names
and numbers that exist at the same time are distinct, and no file has number 0. -/
structure Directory where
  /-- What matches. -/
  entries : List Entry
  names_nodup : (entries.map Entry.name).Nodup
  inodes_nodup : (entries.map Entry.inode).Nodup
  inode_pos : ∀ e ∈ entries, 0 < e.inode
  kind : ∀ e ∈ entries, e.IsTable ∨ e.IsDirectory

namespace Directory

/-- The entry under a name. -/
def entry (d : Directory) (name : Key) : Option Entry :=
  d.entries.find? (fun e => e.name == name)

/-- `MyGlob::open` and the names it holds, nothing when no name matches. -/
def glob (d : Directory) : Option (List Key) :=
  if d.entries = [] then none else some (d.entries.map Entry.name)

/-- The table files that are present. -/
def tables (d : Directory) : List Entry := d.entries.filter (fun e => e.table.isSome)

end Directory

/-- `checkFileInode`. -/
def checkFileInode (d : Directory) (filename : Key) : ℕ :=
  match d.entry filename with
  | none => 0
  | some buf =>
    if buf.mode &&& sIFREG ≠ 0 then buf.inode
    else if buf.mode &&& sIFLNK ≠ 0 then buf.inode
    else 0

/-! ### The loader -/

/-- What the loader uses of an opened table. -/
structure DiskList where
  /-- The number it was opened under. -/
  id : ℕ
  /-- The pairs it shows. -/
  pairs : List Pair
  /-- The metadata it read. -/
  metadata : FileMetaBlob

/-- The metadata of a table that could not be opened. -/
def clearedMetadata : FileMetaBlob := ⟨0, 0, 0, 0⟩

namespace DiskList

/-- `DiskList::open`. -/
def «open» (d : Directory) (id : ℕ) (filename : Key) : DiskList :=
  match (d.entry filename).bind Entry.table with
  | some t => ⟨id, t.pairs, fileMeta t.pairs⟩
  | none => ⟨id, [], clearedMetadata⟩

/-- `DiskList::createdMax`. -/
def createdMax (t : DiskList) : ℕ := FileMeta.createdMax t.metadata

/-- What is left of a table that was moved: its mappings are gone, the plain
members stay. -/
def moved (t : DiskList) : DiskList := { t with pairs := [] }

end DiskList

/-- One round of the loop of `ContainerHelper::copy`, over the new and the old
container. -/
def copyStep (d : Directory) (s : List DiskList × List DiskList) (filename : Key) :
    List DiskList × List DiskList :=
  let id := checkFileInode d filename
  if id = 0 then s
  else
    match s.2.findIdx? (fun table => table.id == id) with
    | some i => moveOut DiskList.moved s i
    | none => (s.1 ++ [DiskList.open d id filename], s.2)

/-- The loop of `ContainerHelper::copy`. -/
def copy (d : Directory) (files : List Key) (container : List DiskList) : List DiskList :=
  (files.foldl (copyStep d) ([], container)).1

/-- The key of the index sort. -/
def createdMaxAt (neo : List DiskList) (i : ℕ) : ℕ := (neo[i]?.map DiskList.createdMax).getD 0

/-- `ContainerHelper::sort_`. -/
def sort_ (std : StdSort ℕ) (neo : List DiskList) : List DiskList :=
  let ix := std.sort (descending (createdMaxAt neo)) (List.range neo.length)
  (ix.foldl (moveOut DiskList.moved) ([], neo)).1

/-- `DirectoryListLoader`. -/
structure Loader where
  /-- The pattern of the names. -/
  path : Key
  /-- The opened tables. -/
  container : List DiskList

/-- The character `*`. -/
def star : Byte := 42

/-- `DirectoryListLoader::checkIfLoaderNeed`. -/
def checkIfLoaderNeed (s : Key) : Bool := s.contains star

/-- `DirectoryListLoader::refresh`. -/
def Loader.refresh (std : StdSort ℕ) (l : Loader) (d : Directory) : Loader :=
  if l.path = [] then l
  else
    match d.glob with
    | some files => { l with container := sort_ std (copy d files l.container) }
    | none => { l with container := [] }

/-- The constructor, which ends the program for a path without a wildcard. -/
def Loader.construct (std : StdSort ℕ) (path : Key) (d : Directory) : Option Loader :=
  if checkIfLoaderNeed path = false then none
  else some (Loader.refresh std ⟨path, []⟩ d)

/-- The directory that each refresh finds, and the loader after it. -/
def Loader.refreshes (std : StdSort ℕ) (l : Loader) : List Directory → List (Directory × Loader)
  | [] => []
  | d :: ds => (d, l.refresh std d) :: (l.refresh std d).refreshes std ds

/-- The constructor followed by refreshes. -/
def history (std : StdSort ℕ) (path : Key) (d : Directory) (ds : List Directory) :
    Option (List (Directory × Loader)) :=
  (Loader.construct std path d).map (fun l => (d, l) :: l.refreshes std ds)

/-! ### What one refresh does -/

/-- With distinct keys the first element of a key is the only one. -/
theorem find?_of_nodup {α : Type*} {β : Type*} [BEq β] [LawfulBEq β] {key : α → β} {l : List α}
    (h : (l.map key).Nodup) {a : α} (ha : a ∈ l) :
    l.find? (fun b => key b == key a) = some a := by
  induction l with
  | nil => exact absurd ha List.not_mem_nil
  | cons b l ih =>
    rw [List.map_cons, List.nodup_cons] at h
    rw [List.find?_cons]
    rcases List.mem_cons.mp ha with rfl | hal
    · rw [beq_self_eq_true]
    · have hne : (key b == key a) = false :=
        beq_false_of_ne fun hk => h.1 (hk ▸ List.mem_map_of_mem hal)
      rw [hne]
      exact ih h.2 hal

theorem entry_of_mem {d : Directory} {e : Entry} (he : e ∈ d.entries) :
    d.entry e.name = some e :=
  find?_of_nodup d.names_nodup he

/-- A regular file is taken for one. -/
theorem IsTable.regular {e : Entry} (h : e.IsTable) : e.mode &&& sIFREG ≠ 0 := by
  have hm : e.mode &&& sIFREG = (e.mode &&& sIFMT) &&& sIFREG := by
    rw [Nat.and_assoc]; rfl
  rw [hm, h.2]
  decide

/-- A directory is not taken for a file or a link. -/
theorem IsDirectory.neither {e : Entry} (h : e.IsDirectory) :
    e.mode &&& sIFREG = 0 ∧ e.mode &&& sIFLNK = 0 := by
  have hr : e.mode &&& sIFREG = (e.mode &&& sIFMT) &&& sIFREG := by
    rw [Nat.and_assoc]; rfl
  have hl : e.mode &&& sIFLNK = (e.mode &&& sIFMT) &&& sIFLNK := by
    rw [Nat.and_assoc]; rfl
  rw [hr, hl, h.2]
  decide

theorem tables_inodes_nodup (d : Directory) : (d.tables.map Entry.inode).Nodup :=
  d.inodes_nodup.sublist (List.filter_sublist.map _)

theorem checkFileInode_table {d : Directory} {e : Entry} (he : e ∈ d.entries)
    (h : e.table.isSome = true) : checkFileInode d e.name = e.inode := by
  have ht : e.IsTable := (d.kind e he).resolve_right fun hd => by
    rw [hd.1] at h
    exact absurd h Bool.false_ne_true
  unfold checkFileInode
  rw [entry_of_mem he]
  dsimp only
  rw [if_pos (IsTable.regular ht)]

theorem checkFileInode_directory {d : Directory} {e : Entry} (he : e ∈ d.entries)
    (h : e.table.isSome = false) : checkFileInode d e.name = 0 := by
  have ht : e.IsDirectory := (d.kind e he).resolve_left fun hd => by
    rw [hd.1] at h
    exact absurd h.symm Bool.false_ne_true
  obtain ⟨hr, hl⟩ := IsDirectory.neither ht
  unfold checkFileInode
  rw [entry_of_mem he]
  dsimp only
  rw [if_neg (not_not_intro hr), if_neg (not_not_intro hl)]

/-- The table of a file, opened anew. -/
def openEntry (e : Entry) : DiskList := ⟨e.inode, e.pairs, fileMeta e.pairs⟩

/-- The opened table of a number. -/
def opened (container : List DiskList) (id : ℕ) : Option DiskList :=
  container.find? (fun table => table.id == id)

/-- The table that a refresh has for a file. -/
def load (container : List DiskList) (e : Entry) : DiskList :=
  (opened container e.inode).getD (openEntry e)

theorem open_eq {d : Directory} {e : Entry} (he : e ∈ d.entries)
    (h : e.table.isSome = true) : DiskList.open d e.inode e.name = openEntry e := by
  obtain ⟨t, ht⟩ := Option.isSome_iff_exists.mp h
  unfold DiskList.open openEntry Entry.pairs
  rw [entry_of_mem he, Option.bind_some, ht]
  rfl

theorem opened_cons (t : DiskList) (container : List DiskList) (id : ℕ) :
    opened (t :: container) id = if t.id = id then some t else opened container id := by
  unfold opened
  rw [List.find?_cons]
  by_cases h : t.id = id
  · rw [if_pos h, h, beq_self_eq_true]
  · rw [if_neg h, beq_false_of_ne h]

/-- Moving a table out does not hide the tables of the other numbers. -/
theorem opened_modify {container : List DiskList} {i id : ℕ}
    (h : ∀ t, container[i]? = some t → t.id ≠ id) :
    opened (container.modify i DiskList.moved) id = opened container id := by
  induction container generalizing i with
  | nil => rw [List.modify_nil]
  | cons t ts ih =>
    cases i with
    | zero =>
      have hid : t.id ≠ id := h t rfl
      have hmoved : t.moved.id ≠ id := hid
      rw [List.modify_zero_cons, opened_cons, opened_cons, if_neg hid, if_neg hmoved]
    | succ i =>
      rw [List.modify_succ_cons, opened_cons, opened_cons, ih h]

/-- A round for a table file adds its table and leaves the tables of the other
numbers where they are. -/
theorem copyStep_table {d : Directory} {e : Entry} (he : e ∈ d.entries)
    (h : e.table.isSome = true) (s : List DiskList × List DiskList) :
    (copyStep d s e.name).1 = s.1 ++ [load s.2 e] ∧
      ∀ id ≠ e.inode, opened (copyStep d s e.name).2 id = opened s.2 id := by
  have hpos : e.inode ≠ 0 := (d.inode_pos e he).ne'
  have hopened : opened s.2 e.inode =
      (s.2.findIdx? (fun table => table.id == e.inode)).bind (s.2[·]?) :=
    List.find?_eq_bind_findIdx?_getElem?
  unfold copyStep load
  dsimp only
  rw [checkFileInode_table he h, if_neg hpos, hopened]
  cases hi : s.2.findIdx? (fun table => table.id == e.inode) with
  | none => exact ⟨by rw [open_eq he h]; rfl, fun _ _ => rfl⟩
  | some i =>
    obtain ⟨hlt, hid, _⟩ := List.findIdx?_eq_some_iff_getElem.mp hi
    have hget : s.2[i]? = some s.2[i] := List.getElem?_eq_getElem hlt
    unfold moveOut
    dsimp only
    rw [Option.bind_some, hget]
    refine ⟨rfl, fun id hne => opened_modify fun t ht => ?_⟩
    rw [hget] at ht
    rw [← Option.some.inj ht, eq_of_beq hid]
    exact hne.symm

/-- A round for a subdirectory does nothing. -/
theorem copyStep_directory {d : Directory} {e : Entry} (he : e ∈ d.entries)
    (h : e.table.isSome = false) (s : List DiskList × List DiskList) :
    copyStep d s e.name = s := by
  unfold copyStep
  dsimp only
  rw [checkFileInode_directory he h, if_pos rfl]

/-- The rounds for some of the entries. -/
theorem foldl_copyStep {d : Directory} {es : List Entry} (hes : ∀ e ∈ es, e ∈ d.entries)
    (hnodup : (es.map Entry.inode).Nodup) (s : List DiskList × List DiskList) :
    ((es.map Entry.name).foldl (copyStep d) s).1 =
      s.1 ++ (es.filter (fun e => e.table.isSome)).map (load s.2) := by
  induction es generalizing s with
  | nil => exact (List.append_nil _).symm
  | cons e es ih =>
    obtain ⟨he, hes⟩ := List.forall_mem_cons.mp hes
    rw [List.map_cons, List.nodup_cons] at hnodup
    rw [List.map_cons, List.foldl_cons, ih hes hnodup.2]
    cases h : e.table.isSome with
    | false =>
      rw [copyStep_directory he h, List.filter_cons, h, if_neg Bool.false_ne_true]
    | true =>
      obtain ⟨hfst, hsnd⟩ := copyStep_table he h s
      have hrest : (es.filter (fun e => e.table.isSome)).map (load (copyStep d s e.name).2) =
          (es.filter (fun e => e.table.isSome)).map (load s.2) := by
        refine List.map_congr_left fun e' he' => ?_
        have hne : e'.inode ≠ e.inode := fun hid =>
          hnodup.1 (hid ▸ List.mem_map_of_mem (List.mem_of_mem_filter he'))
        unfold load
        rw [hsnd e'.inode hne]
      rw [List.filter_cons, h, if_pos rfl, hfst, hrest, List.map_cons, List.append_assoc]
      rfl

/-- `ContainerHelper::copy` has one table for each table file that is present. -/
theorem copy_eq (d : Directory) (container : List DiskList) :
    copy d (d.entries.map Entry.name) container = d.tables.map (load container) := by
  have h := foldl_copyStep (fun e he => he) d.inodes_nodup ([], container)
  rwa [List.nil_append] at h

theorem sort_ix (std : StdSort ℕ) (neo : List DiskList) :
    sort_ std neo =
      (std.sort (descending (createdMaxAt neo)) (List.range neo.length)).flatMap
        (fun i => neo[i]?.toList) := by
  have hnodup : (std.sort (descending (createdMaxAt neo)) (List.range neo.length)).Nodup :=
    (std.perm _ _).nodup_iff.mpr List.nodup_range
  unfold sort_
  dsimp only
  rw [foldl_moveOut DiskList.moved hnodup]
  rfl

theorem createdMaxAt_of_getElem? {neo : List DiskList} {i : ℕ} {t : DiskList}
    (h : neo[i]? = some t) : createdMaxAt neo i = t.createdMax := by
  unfold createdMaxAt
  rw [h]
  rfl

/-- `ContainerHelper::sort_` loses no table. -/
theorem sort_perm (std : StdSort ℕ) (neo : List DiskList) : (sort_ std neo).Perm neo := by
  rw [sort_ix]
  exact flatMap_perm (std.perm _ _)

/-- `ContainerHelper::sort_` sorts by what `createdMax` returns. -/
theorem sort_sorted (std : StdSort ℕ) (neo : List DiskList) :
    (sort_ std neo).Pairwise (fun t u => u.createdMax ≤ t.createdMax) := by
  rw [sort_ix]
  refine pairwise_flatMap ((std.sorted _ _ (strict_descending _)).imp ?_)
  intro i j hij t u ht hu
  have hle := descending_eq_false.mp hij
  rwa [createdMaxAt_of_getElem? ht, createdMaxAt_of_getElem? hu] at hle

/-- A refresh sorts one table for each table file that is present. -/
theorem refresh_container (std : StdSort ℕ) {l : Loader} (hpath : l.path ≠ []) (d : Directory) :
    (l.refresh std d).container = sort_ std (d.tables.map (load l.container)) := by
  unfold Loader.refresh Directory.glob
  rw [if_neg hpath]
  by_cases he : d.entries = []
  · have ht : d.tables = [] := by
      unfold Directory.tables
      rw [he, List.filter_nil]
    rw [if_pos he, ht]
    exact (sort_perm std []).eq_nil.symm
  · rw [if_neg he]
    dsimp only
    rw [copy_eq]

theorem refresh_path (std : StdSort ℕ) (l : Loader) (d : Directory) :
    (l.refresh std d).path = l.path := by
  unfold Loader.refresh
  split
  · rfl
  · split <;> rfl

/-! ### Whole histories -/

/-- What a table is loaded for: the number and the pairs. -/
def DiskList.shown (t : DiskList) : ℕ × List Pair := (t.id, t.pairs)

/-- The number and the pairs of a file. -/
def Entry.shown (e : Entry) : ℕ × List Pair := (e.inode, e.pairs)

/-- The greatest creation time that the metadata holds. -/
def DiskList.greatestCreated (t : DiskList) : ℕ := t.metadata.createdMax

/-- The tables are those of the directory, one for each file, in the order of
a time. -/
structure Exact (time : DiskList → ℕ) (d : Directory) (container : List DiskList) : Prop where
  /-- Each file has one table, which shows its pairs. -/
  tables : (container.map DiskList.shown).Perm (d.tables.map Entry.shown)
  /-- The newest table comes first. -/
  sorted : container.Pairwise (fun t u => time u ≤ time t)

/-- A number that a table was opened under stands for the same pairs in the
next directory, or for no file at all. -/
def NumbersKeep (d d' : Directory) : Prop :=
  ∀ e ∈ d.tables, ∀ e' ∈ d'.tables, e.inode = e'.inode → e.pairs = e'.pairs

/-- The order by the smallest creation time is an order by the greatest. -/
def TimesAgree (d : Directory) : Prop :=
  ∀ e ∈ d.tables, ∀ e' ∈ d.tables,
    (fileMeta e'.pairs).createdMin ≤ (fileMeta e.pairs).createdMin →
      (fileMeta e'.pairs).createdMax ≤ (fileMeta e.pairs).createdMax

/-- The container holds the tables of a directory as they are opened. -/
def Loaded (d : Directory) (container : List DiskList) : Prop :=
  container.Perm (d.tables.map openEntry)

/-- The directory without a file. -/
def Directory.none : Directory where
  entries := []
  names_nodup := List.nodup_nil
  inodes_nodup := List.nodup_nil
  inode_pos _ he := absurd he List.not_mem_nil
  kind _ he := absurd he List.not_mem_nil

theorem loaded_none : Loaded Directory.none [] := List.Perm.nil

theorem numbersKeep_none (d : Directory) : NumbersKeep Directory.none d :=
  fun _ he => absurd he List.not_mem_nil

theorem Loaded.opened {d : Directory} {container : List DiskList} (h : Loaded d container)
    {e : Entry} (he : e ∈ d.tables) : opened container e.inode = some (openEntry e) := by
  have hids : (container.map DiskList.id).Perm (d.tables.map Entry.inode) := by
    have hp := h.map DiskList.id
    rwa [List.map_map] at hp
  exact find?_of_nodup (hids.nodup_iff.mpr (tables_inodes_nodup d))
    (h.mem_iff.mpr (List.mem_map_of_mem he))

/-- While the numbers keep their content a refresh has the right tables. -/
theorem Loaded.load {d d' : Directory} {container : List DiskList} (h : Loaded d container)
    (hkeep : NumbersKeep d d') {e' : Entry} (he' : e' ∈ d'.tables) :
    load container e' = openEntry e' := by
  unfold DirectoryListLoader.load
  cases ho : DirectoryListLoader.opened container e'.inode with
  | none => rfl
  | some t =>
    obtain ⟨e, he, rfl⟩ := List.mem_map.mp (h.mem_iff.mp (List.mem_of_find?_eq_some ho))
    have hid : e.inode = e'.inode := 
      eq_of_beq (List.find?_some (p := fun t : DiskList => t.id == e'.inode) ho)
    unfold openEntry
    rw [Option.getD_some, hid, hkeep e he e' he' hid]

/-- A refresh that has the right tables shows that the numbers kept their
content. -/
theorem Loaded.numbersKeep {d d' : Directory} {container : List DiskList}
    (h : Loaded d container)
    (hp : ((d'.tables.map (DirectoryListLoader.load container)).map DiskList.shown).Perm
      (d'.tables.map Entry.shown)) : NumbersKeep d d' := by
  intro e he e' he' hid
  have hload : DirectoryListLoader.load container e' = openEntry e := by
    unfold DirectoryListLoader.load
    rw [← hid, h.opened he]
    rfl
  have hmem : (openEntry e).shown ∈ d'.tables.map Entry.shown :=
    hp.mem_iff.mp (hload ▸ List.mem_map_of_mem (List.mem_map_of_mem he'))
  obtain ⟨e'', he'', hshown⟩ := List.mem_map.mp hmem
  have hinode : e''.inode = e'.inode := (congrArg Prod.fst hshown).trans hid
  have hpairs : e''.pairs = e.pairs := congrArg Prod.snd hshown
  have heq : e'' = e' := List.inj_on_of_nodup_map (tables_inodes_nodup d') he'' he' hinode
  rw [← hpairs, heq]

/-- The loader that has just opened the tables of a directory. -/
def fresh (std : StdSort ℕ) (path : Key) (d : Directory) : Loader :=
  ⟨path, sort_ std (d.tables.map openEntry)⟩

theorem loaded_fresh (std : StdSort ℕ) (path : Key) (d : Directory) :
    Loaded d (fresh std path d).container :=
  sort_perm std _

/-- While the numbers keep their content a refresh is as good as opening all
tables. -/
theorem refresh_eq_fresh (std : StdSort ℕ) {l : Loader} (hpath : l.path ≠ []) {d d' : Directory}
    (h : Loaded d l.container) (hkeep : NumbersKeep d d') :
    l.refresh std d' = fresh std l.path d' := by
  have hc := refresh_container std hpath d'
  have hp := refresh_path std l d'
  rw [List.map_congr_left fun e' he' => h.load hkeep he'] at hc
  cases hr : l.refresh std d' with
  | mk path container =>
    rw [hr] at hc hp
    unfold fresh
    rw [← hc, ← hp]

/-- The tables shown after a refresh, in some order. -/
theorem shown_refresh (std : StdSort ℕ) {l : Loader} (hpath : l.path ≠ []) (d : Directory) :
    ((l.refresh std d).container.map DiskList.shown).Perm
      ((d.tables.map (load l.container)).map DiskList.shown) := by
  rw [refresh_container std hpath]
  exact (sort_perm std _).map _

theorem shown_fresh (std : StdSort ℕ) (path : Key) (d : Directory) :
    ((fresh std path d).container.map DiskList.shown).Perm (d.tables.map Entry.shown) := by
  have h := (loaded_fresh std path d).map DiskList.shown
  rwa [List.map_map] at h

/-- While every number keeps its content each loader is as good as a fresh one. -/
theorem refreshes_eq_fresh (std : StdSort ℕ) {l : Loader} (hpath : l.path ≠ []) {d : Directory}
    (h : Loaded d l.container) {ds : List Directory} (hchain : (d :: ds).IsChain NumbersKeep) :
    l.refreshes std ds = ds.map (fun d' => (d', fresh std l.path d')) := by
  induction ds generalizing d l with
  | nil => rfl
  | cons d' ds ih =>
    obtain ⟨hkeep, hchain⟩ := List.isChain_cons_cons.mp hchain
    unfold Loader.refreshes
    rw [refresh_eq_fresh std hpath h hkeep, List.map_cons]
    exact congrArg _ (ih (l := fresh std l.path d') hpath (loaded_fresh std l.path d') hchain)

/-- Right tables after every refresh show that every number kept its content. -/
theorem isChain_of_shown (std : StdSort ℕ) {l : Loader} (hpath : l.path ≠ []) {d : Directory}
    (h : Loaded d l.container) {ds : List Directory}
    (hall : ∀ x ∈ l.refreshes std ds,
      (x.2.container.map DiskList.shown).Perm (x.1.tables.map Entry.shown)) :
    (d :: ds).IsChain NumbersKeep := by
  induction ds generalizing d l with
  | nil => exact List.IsChain.singleton d
  | cons d' ds ih =>
    obtain ⟨hhead, htail⟩ := List.forall_mem_cons.mp hall
    have hkeep : NumbersKeep d d' :=
      h.numbersKeep ((shown_refresh std hpath d').symm.trans hhead)
    rw [refresh_eq_fresh std hpath h hkeep] at htail
    exact List.isChain_cons_cons.mpr
      ⟨hkeep, ih (l := fresh std l.path d') hpath (loaded_fresh std l.path d') htail⟩

/-- A fresh container is in the order of `createdMax`. -/
theorem fresh_sorted (std : StdSort ℕ) (path : Key) (d : Directory) :
    (fresh std path d).container.Pairwise (fun t u => u.createdMax ≤ t.createdMax) :=
  sort_sorted std _

/-- A fresh container is in the order of the greatest times when these agree
with the smallest ones. -/
theorem fresh_sorted_greatest (std : StdSort ℕ) (path : Key) {d : Directory} (h : TimesAgree d) :
    (fresh std path d).container.Pairwise (fun t u => u.greatestCreated ≤ t.greatestCreated) := by
  refine (fresh_sorted std path d).imp_of_mem fun {t u} ht hu hle => ?_
  obtain ⟨e, he, rfl⟩ := List.mem_map.mp ((loaded_fresh std path d).mem_iff.mp ht)
  obtain ⟨e', he', rfl⟩ := List.mem_map.mp ((loaded_fresh std path d).mem_iff.mp hu)
  exact h e he e' he' hle

/-- Two tables that `createdMax` does not keep apart may come in either order. -/
theorem exists_fresh_sublist (path : Key) {d : Directory} {e e' : Entry} (he : e ∈ d.tables)
    (he' : e' ∈ d.tables) (hne : e ≠ e')
    (hle : (openEntry e').createdMax ≤ (openEntry e).createdMax) :
    ∃ std : StdSort ℕ, [openEntry e, openEntry e'].Sublist (fresh std path d).container := by
  set neo := d.tables.map openEntry with hneo
  obtain ⟨i, hi, hei⟩ := List.getElem_of_mem he
  obtain ⟨j, hj, hej⟩ := List.getElem_of_mem he'
  have hgi : neo[i]? = some (openEntry e) := by
    rw [hneo, List.getElem?_map, List.getElem?_eq_getElem hi, hei]
    rfl
  have hgj : neo[j]? = some (openEntry e') := by
    rw [hneo, List.getElem?_map, List.getElem?_eq_getElem hj, hej]
    rfl
  have hij : i ≠ j := by
    rintro rfl
    exact hne (hei.symm.trans hej)
  have hless : descending (createdMaxAt neo) j i = false := by
    rw [descending_eq_false, createdMaxAt_of_getElem? hgi, createdMaxAt_of_getElem? hgj]
    exact hle
  have hlen : neo.length = d.tables.length := List.length_map _
  obtain ⟨std, hs⟩ := StdSort.exists_sublist (strict_descending (createdMaxAt neo))
    (List.mem_range.mpr (hlen ▸ hi)) (List.mem_range.mpr (hlen ▸ hj)) hij hless
  refine ⟨std, ?_⟩
  have hsub := sublist_flatMap (fun i => neo[i]?.toList) hs
  rw [List.flatMap_cons, List.flatMap_cons, hgi, hgj] at hsub
  unfold fresh
  dsimp only
  rw [sort_ix]
  exact hsub

/-- An order by the greatest times for every sort shows that these agree with
the smallest ones. -/
theorem timesAgree_of_sorted (path : Key) {d : Directory}
    (h : ∀ std : StdSort ℕ, (fresh std path d).container.Pairwise
      (fun t u => u.greatestCreated ≤ t.greatestCreated)) : TimesAgree d := by
  intro e he e' he' hle
  by_cases hne : e = e'
  · rw [hne]
  · obtain ⟨std, hs⟩ := exists_fresh_sublist path he he' hne hle
    exact List.rel_of_pairwise_cons ((h std).sublist hs) (List.mem_singleton_self _)

/-- The constructor and the refreshes are refreshes of a loader without tables. -/
theorem history_eq (std : StdSort ℕ) {path : Key} (h : checkIfLoaderNeed path = true)
    (d : Directory) (ds : List Directory) :
    history std path d ds = some (Loader.refreshes std ⟨path, []⟩ (d :: ds)) := by
  unfold history Loader.construct
  rw [h, if_neg Bool.false_ne_true.symm]
  rfl

theorem path_ne_nil {path : Key} (h : checkIfLoaderNeed path = true) : path ≠ [] := by
  rintro rfl
  exact Bool.false_ne_true h

/-- After every refresh the tables are those of the directory in the order of
`createdMax` exactly if no number of a loaded table comes back with other
content. They are in the order of the greatest creation times too, whatever the
sort does with equal elements, exactly if in addition the greatest times are in
the order of the smallest ones. -/
theorem history_exact_iff {path : Key} (hpath : checkIfLoaderNeed path = true) (d : Directory)
    (ds : List Directory) :
    (∀ std : StdSort ℕ,
      (∀ hs, history std path d ds = some hs →
        ∀ x ∈ hs, Exact DiskList.createdMax x.1 x.2.container) ↔
      (d :: ds).IsChain NumbersKeep) ∧
    ((∀ (std : StdSort ℕ) (hs), history std path d ds = some hs →
        ∀ x ∈ hs, Exact DiskList.greatestCreated x.1 x.2.container) ↔
      (d :: ds).IsChain NumbersKeep ∧ ∀ d' ∈ d :: ds, TimesAgree d') := by
  have hne := path_ne_nil hpath
  have hstart : ∀ std, history std path d ds =
      some (Loader.refreshes std ⟨path, []⟩ (d :: ds)) := fun std => history_eq std hpath d ds
  have hfresh : (d :: ds).IsChain NumbersKeep → ∀ std,
      Loader.refreshes std ⟨path, []⟩ (d :: ds) =
        (d :: ds).map (fun d' => (d', fresh std path d')) := fun hchain std =>
    refreshes_eq_fresh std (l := ⟨path, []⟩) hne loaded_none
      (List.isChain_cons_cons.mpr ⟨numbersKeep_none d, hchain⟩)
  have hback : ∀ (std : StdSort ℕ) (time : DiskList → ℕ),
      (∀ x ∈ Loader.refreshes std ⟨path, []⟩ (d :: ds), Exact time x.1 x.2.container) →
        (d :: ds).IsChain NumbersKeep := fun std time hall =>
    (List.isChain_cons_cons.mp
      (isChain_of_shown std (l := ⟨path, []⟩) hne loaded_none fun x hx => (hall x hx).tables)).2
  refine ⟨fun std => ⟨fun hall => hback std _ (hall _ (hstart std)), ?_⟩, fun hall => ?_, ?_⟩
  · intro hchain hs hhs x hx
    rw [hstart, hfresh hchain, Option.some.injEq] at hhs
    obtain ⟨d', _, rfl⟩ := List.mem_map.mp (hhs ▸ hx)
    exact ⟨shown_fresh std path d', fresh_sorted std path d'⟩
  · have hchain := hback (StdSort.stable ℕ) _ (hall _ _ (hstart _))
    refine ⟨hchain, fun d' hd' => timesAgree_of_sorted path fun std => ?_⟩
    have hmem : (d', fresh std path d') ∈ Loader.refreshes std ⟨path, []⟩ (d :: ds) := by
      rw [hfresh hchain]
      exact List.mem_map_of_mem hd'
    exact (hall std _ (hstart std) _ hmem).sorted
  · rintro ⟨hchain, hagree⟩ std hs hhs x hx
    rw [hstart, hfresh hchain, Option.some.injEq] at hhs
    obtain ⟨d', hd', rfl⟩ := List.mem_map.mp (hhs ▸ hx)
    exact ⟨shown_fresh std path d', fresh_sorted_greatest std path (hagree d' hd')⟩

/-- A table file, always under the same name and number. -/
def oneEntry (t : Table) : Entry := ⟨[102], 0o100644, 7, some t⟩

theorem isTable_oneEntry (t : Table) : (oneEntry t).IsTable := ⟨rfl, show 0o100644 &&& 0o170000 = 0o100000 by decide⟩

/-- The directory with this one file. -/
def oneFile (t : Table) : Directory where
  entries := [oneEntry t]
  names_nodup := List.nodup_singleton _
  inodes_nodup := List.nodup_singleton _
  inode_pos e he := by
    rw [List.mem_singleton.mp he]
    exact Nat.succ_pos 6
  kind e he := by
    rw [List.mem_singleton.mp he]
    exact Or.inl (isTable_oneEntry t)

/-- The path of the witnesses, which is a wildcard. -/
theorem checkIfLoaderNeed_star : checkIfLoaderNeed [star] = true := rfl

/-- Two tables of one file, one after the other under one number, are not the
same. -/
theorem not_numbersKeep :
    ¬ NumbersKeep (oneFile (Table.single (letter 97 1))) (oneFile (Table.single (letter 98 2))) := by
  intro h
  have hpairs := h _ (List.mem_singleton_self _) _ (List.mem_singleton_self _) rfl
  exact absurd (congrArg (List.map Pair.key) hpairs) (by decide)

/-- For a kept number the condition holds, and the tables are right. -/
theorem history_exact_iff_small :
    checkIfLoaderNeed [star] = true ∧
      ((∀ std : StdSort ℕ,
        (∀ hs, history std [star] (oneFile (Table.single (letter 97 1)))
            [oneFile (Table.single (letter 97 1))] = some hs →
          ∀ x ∈ hs, Exact DiskList.createdMax x.1 x.2.container) ↔
        [oneFile (Table.single (letter 97 1)), oneFile (Table.single (letter 97 1))].IsChain
          NumbersKeep)) :=
  ⟨checkIfLoaderNeed_star, (history_exact_iff checkIfLoaderNeed_star _ _).1⟩

/-- After the file was replaced by one that got its number, the old pairs are
shown. -/
theorem history_stale :
    ¬ ∀ (std : StdSort ℕ) (path : Key) (d : Directory) (ds : List Directory)
        (hs : List (Directory × Loader)), history std path d ds = some hs →
      ∀ x ∈ hs, Exact DiskList.createdMax x.1 x.2.container := by
  intro hall
  have hex := hall (StdSort.stable ℕ) [star] (oneFile (Table.single (letter 97 1)))
    [oneFile (Table.single (letter 98 2))] _ (history_eq _ checkIfLoaderNeed_star _ _)
  have hchain := isChain_of_shown (StdSort.stable ℕ) (l := ⟨[star], []⟩)
    (path_ne_nil checkIfLoaderNeed_star) loaded_none fun x hx => (hex x hx).tables
  exact not_numbersKeep
    (List.isChain_cons_cons.mp (List.isChain_cons_cons.mp hchain).2).1

end HM4.DirectoryListLoader
