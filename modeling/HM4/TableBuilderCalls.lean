import HM4.TableBuilder

/-!
# The calls of the table builder, file by file

The five builders work side by side, each on its own file. So the calls on one file
are those of its builder alone, as if it had been fed by itself: the file is opened,
written piece by piece and closed, and the pieces are all that the builder has to
write, whatever the size of its buffer.
-/

namespace HM4.TableBuilder

open Bytes Pairs FileMeta FileCalls FileWriterCalls HashIndex Compaction TableRoundTrip
open TableFile (WriteOptions encodePair alignCalc ALIGN encodeMeta metaOptions alignedSize)

/-! ### Calls on one file -/

/-- All calls have to do with one file. -/
def Only (f : FileName) (t : Calls) : Prop := ∀ c ∈ t, c.names f = true ∧ c.renames = false

theorem only_nil (f : FileName) : Only f [] := fun _ hc => absurd hc List.not_mem_nil

theorem only_append {f : FileName} {t u : Calls} (ht : Only f t) (hu : Only f u) :
    Only f (t ++ u) :=
  fun c hc => (List.mem_append.mp hc).elim (ht c) (hu c)

theorem only_writes (f : FileName) (cs : List Key) : Only f (cs.map (Call.write f)) := by
  intro c hc
  obtain ⟨data, _, rfl⟩ := List.mem_map.mp hc
  exact ⟨beq_self_eq_true f, rfl⟩

theorem only_session (o : Outcomes FileName) (f : FileName) (cs : List Key) :
    Only f (session o f cs) := by
  have hself : (f == f) = true := beq_self_eq_true f
  have hone : ∀ c : SysCall, c.names f = true → c.renames = false → Only f [c] :=
    fun c hn hr x hx => by
      rw [List.mem_singleton.mp hx]
      exact ⟨hn, hr⟩
  unfold session
  split
  · exact only_append (hone (.create f) hself rfl)
      (only_append (only_writes f cs) (hone (.close f) hself rfl))
  · exact hone (.create f) hself rfl

theorem Only.onFile {f : FileName} {t : Calls} (h : Only f t) : onFile f t = t :=
  onFile_eq_self fun c hc => (h c hc).1

/-- A call has to do with one file at most, if it is no renaming. -/
theorem names_ne {f g : FileName} {c : SysCall} (hn : c.names f = true) (hr : c.renames = false)
    (hne : f ≠ g) : c.names g = false := by
  cases c with
  | create k => exact beq_false_of_ne fun he => hne ((eq_of_beq hn).symm.trans he)
  | write k data => exact beq_false_of_ne fun he => hne ((eq_of_beq hn).symm.trans he)
  | store k data => exact beq_false_of_ne fun he => hne ((eq_of_beq hn).symm.trans he)
  | close k => exact beq_false_of_ne fun he => hne ((eq_of_beq hn).symm.trans he)
  | rename src dst => exact absurd hr.symm Bool.false_ne_true

/-- Calls on one file have nothing to do with another. -/
theorem Only.onFile_ne {f g : FileName} {t : Calls} (h : Only f t) (hne : f ≠ g) :
    FileCalls.onFile g t = [] :=
  onFile_eq_nil fun c hc => names_ne (h c hc).1 (h c hc).2 hne

theorem Adds.only {w : Writer} {r : Writer × Calls} {cs : List Key} {data : Key}
    (h : w.Adds r cs data) : Only w.file r.2 := by
  rw [h.calls]
  exact only_writes w.file cs

/-! ### Feeding one builder among others -/

section Feed

variable {B C : Type} {f : FileName} {π : B → C} {pushB : B → Pair → B × Calls}
  {pushC : C → Pair → C × Calls} {inv : B → Prop}

/-- What holds of a builder holds after it was fed. -/
theorem feed_inv (hinv : ∀ b p, inv b → inv (pushB b p).1) {b : B} (hb : inv b)
    (pairs : List Pair) : inv (feed pushB b pairs).1 := by
  induction pairs generalizing b with
  | nil => exact hb
  | cons p pairs ih => exact ih (hinv b p hb)

/-- The calls on the file of one member are those of the member fed alone. -/
theorem feed_member (hinv : ∀ b p, inv b → inv (pushB b p).1)
    (hπ : ∀ b p, inv b → π (pushB b p).1 = (pushC (π b) p).1)
    (hcalls : ∀ b p, inv b → onFile f (pushB b p).2 = (pushC (π b) p).2)
    {b : B} (hb : inv b) (pairs : List Pair) :
    π (feed pushB b pairs).1 = (feed pushC (π b) pairs).1 ∧
      onFile f (feed pushB b pairs).2 = (feed pushC (π b) pairs).2 := by
  induction pairs generalizing b with
  | nil => exact ⟨rfl, rfl⟩
  | cons p pairs ih =>
    obtain ⟨hfst, hsnd⟩ := ih (hinv b p hb)
    rw [hπ b p hb] at hfst hsnd
    refine ⟨hfst, ?_⟩
    unfold feed
    dsimp only
    rw [onFile_append, hsnd, hcalls b p hb]

/-- What a builder has to write for some pairs. -/
def feedBytes (push : B → Pair → B × Calls) (chunk : B → Pair → Key) (b : B) : List Pair → Key
  | [] => []
  | p :: rest => chunk b p ++ feedBytes push chunk (push b p).1 rest

/-- A builder that adds what it has to write for each pair adds it for all. -/
theorem feed_adds {push : B → Pair → B × Calls} {w : B → Writer} {chunk : B → Pair → Key}
    (h : ∀ b p, (w b).WellFormed →
      ∃ cs, (w b).Adds (w (push b p).1, (push b p).2) cs (chunk b p))
    {b : B} (hb : (w b).WellFormed) (pairs : List Pair) :
    ∃ cs, (w b).Adds (w (feed push b pairs).1, (feed push b pairs).2) cs
      (feedBytes push chunk b pairs) := by
  induction pairs generalizing b with
  | nil => exact ⟨[], Writer.adds_nothing hb⟩
  | cons p pairs ih =>
    obtain ⟨cs, hp⟩ := h b p hb
    obtain ⟨cs', hrest⟩ := ih hp.wellFormed
    exact ⟨cs ++ cs', hp.comp hrest⟩

end Feed

/-! ### What each builder adds -/

theorem storeBE_ne_nil (n x : ℕ) : storeBE (n + 1) x ≠ [] := by
  refine List.ne_nil_of_length_pos ?_
  rw [storeBE_length]
  exact Nat.succ_pos n

theorem encodePair_ne_nil (p : Pair) : encodePair p ≠ [] := by
  refine List.ne_nil_of_length_pos ?_
  rw [encodePair_length]
  unfold Pair.bytes sizeofPair
  omega

theorem flatten_map_singleton (s : Key) : (s.map fun c => [c]).flatten = s := by
  induction s with
  | nil => rfl
  | cons c s ih => rw [List.map_cons, List.flatten_cons, ih, List.singleton_append]

/-- A pair adds its block to the data file. -/
theorem fwrite_adds {w : Writer} (hw : w.WellFormed) (p : Pair) (options : WriteOptions) :
    ∃ cs, w.Adds (fwrite w p options) cs (block (isAligned options) p) := by
  obtain ⟨cs, h⟩ := Writer.write_adds hw (encodePair_ne_nil p)
  unfold fwrite block
  cases options with
  | NONE =>
    have hz : stride (isAligned .NONE) p - p.bytes = 0 := Nat.sub_self _
    rw [if_neg (by decide), hz, List.replicate_zero, List.append_nil]
    exact ⟨cs, h⟩
  | ALIGNED =>
    have hne : ∀ data ∈ (List.replicate (alignCalc p.bytes ALIGN - p.bytes) (0 : Byte)).map
        (fun c => [c]), data ≠ [] := by
      intro data hdata
      obtain ⟨c, _, rfl⟩ := List.mem_map.mp hdata
      exact List.cons_ne_nil c []
    obtain ⟨cs', h'⟩ := Writer.writeAll_adds h.wellFormed hne
    rw [flatten_map_singleton] at h'
    rw [if_pos rfl]
    exact ⟨cs ++ cs', h.comp h'⟩

theorem data_push_adds (b : FileDataBuilder) (p : Pair) (hw : b.fileData.WellFormed) :
    ∃ cs, b.fileData.Adds ((b.push p).1.fileData, (b.push p).2) cs
      (block (isAligned b.fileWriteOptions) p) :=
  fwrite_adds hw p b.fileWriteOptions

theorem indx_push_adds (b : FileIndxBuilder) (p : Pair) (hw : b.fileIndx.WellFormed) :
    ∃ cs, b.fileIndx.Adds ((b.push p).1.fileIndx, (b.push p).2) cs (storeBE 8 b.index) :=
  Writer.write_adds hw (storeBE_ne_nil 7 b.index)

/-- An entry of the line as it lies in the file. -/
def encodeLine (node : HotLine.HotLineNode) : Key :=
  leBytes HPair.N node.key ++ storeBE 8 node.pos

/-- What the line builder writes for one pair. -/
def lineChunk (b : FileLineBuilder) (p : Pair) : Key :=
  if b.hkey_ ≠ HotLine.createBigEndian p.key then
    encodeLine ⟨HotLine.createBigEndian p.key, b.pos⟩
  else []

theorem leBytes_ne_nil (n x : ℕ) : leBytes (n + 1) x ≠ [] := by
  refine List.ne_nil_of_length_pos ?_
  rw [leBytes_length]
  exact Nat.succ_pos n

theorem line_push_adds (b : FileLineBuilder) (p : Pair) (hw : b.fileLine.WellFormed) :
    ∃ cs, b.fileLine.Adds ((b.push p).1.fileLine, (b.push p).2) cs (lineChunk b p) := by
  unfold FileLineBuilder.push lineChunk
  by_cases h : b.hkey_ ≠ HotLine.createBigEndian p.key
  · dsimp only
    rw [if_pos h, if_pos h]
    obtain ⟨cs, hstr⟩ := Writer.write_adds hw (leBytes_ne_nil 7 (HotLine.createBigEndian p.key))
    obtain ⟨cs', hpos⟩ := Writer.write_adds hstr.wellFormed (storeBE_ne_nil 7 b.pos)
    exact ⟨cs ++ cs', hstr.comp hpos⟩
  · dsimp only
    rw [if_neg h, if_neg h]
    exact ⟨[], Writer.adds_nothing hw⟩

/-! ### What each builder has to write -/

theorem feedBytes_data (b : FileDataBuilder) (pairs : List Pair) :
    feedBytes FileDataBuilder.push (fun b p => block (isAligned b.fileWriteOptions) p) b pairs =
      blocks (isAligned b.fileWriteOptions) pairs := by
  induction pairs generalizing b with
  | nil => rfl
  | cons p pairs ih =>
    have hopt : (b.push p).1.fileWriteOptions = b.fileWriteOptions := rfl
    rw [feedBytes, ih, hopt, blocks_cons]

theorem feedBytes_indx (b : FileIndxBuilder) (pairs : List Pair) :
    feedBytes FileIndxBuilder.push (fun b _ => storeBE 8 b.index) b pairs =
      offsets (isAligned b.fileWriteOptions) b.index pairs := by
  induction pairs generalizing b with
  | nil => rfl
  | cons p pairs ih =>
    have hindex : (b.push p).1.index =
        (b.index + stride (isAligned b.fileWriteOptions) p) % 2 ^ 64 := by
      unfold FileIndxBuilder.push
      dsimp only
      cases b.fileWriteOptions <;> rfl
    have hopt : (b.push p).1.fileWriteOptions = b.fileWriteOptions := rfl
    rw [feedBytes, ih, offsets, hindex, hopt]

theorem feedBytes_line (b : FileLineBuilder) (pairs : List Pair) :
    feedBytes FileLineBuilder.push lineChunk b pairs =
      (HotLine.fileLineBuilder b.pos b.hkey_ pairs).flatMap encodeLine := by
  induction pairs generalizing b with
  | nil => rfl
  | cons p pairs ih =>
    rw [feedBytes, ih, HotLine.fileLineBuilder]
    unfold lineChunk FileLineBuilder.push
    dsimp only
    by_cases h : b.hkey_ ≠ HotLine.createBigEndian p.key
    · rw [if_pos h, if_pos h, if_pos h, List.flatMap_cons]
    · rw [if_neg h, if_neg h, if_neg h, List.nil_append]

/-- The records of pairs, numbered from a position on. -/
def recordsFrom (hash : HashFunction) (w : ℕ) : ℕ → List Pair → List HashNode
  | _, [] => []
  | pos, p :: rest => ⟨(hash p.key).val, pos⟩ :: recordsFrom hash w ((pos + 1) % 2 ^ w) rest

/-- The cells that the hash builder leaves for some pairs. -/
def hashNodes (conf : HashConf) (pairs : List Pair) : List HashNode :=
  match conf.impl with
  | .standard =>
    insertAll conf.nodesCount (recordsFrom conf.hash conf.w 0 pairs) (emptyNodes conf.nodesCount)
  | .multiPass capacity order =>
    multiPassFeed order capacity conf.nodesCount [] (emptyNodes conf.nodesCount)
      (recordsFrom conf.hash conf.w 0 pairs)

/-- The content that each file has to have. -/
def wanted (conf : BuildConf) (pairs : List Pair) : FileName → Option Key
  | .metaTemp => none
  | .metaFile =>
    some (encodeMeta (metaOptions conf.fileWriteOptions) conf.now.toNat (fileMeta pairs))
  | .indx => some (offsets (isAligned conf.fileWriteOptions) 0 pairs)
  | .line => some ((HotLine.fileLineBuilder 0 0 pairs).flatMap encodeLine)
  | .data => some (blocks (isAligned conf.fileWriteOptions) pairs)
  | .hash => conf.hash.map fun hconf => encodeNodes (hashNodes hconf pairs)

/-! ### The builder as a whole -/

/-- The writers belong to their files and keep the promise of their buffers. -/
structure Ready (b : FileBuilder) : Prop where
  indxFile : b.indx.fileIndx.file = .indx
  lineFile : b.line.fileLine.file = .line
  dataFile : b.data.fileData.file = .data
  indxWellFormed : b.indx.fileIndx.WellFormed
  lineWellFormed : b.line.fileLine.WellFormed
  dataWellFormed : b.data.fileData.WellFormed

theorem ready_create (o : Outcomes FileName) (conf : BuildConf) :
    Ready (FileBuilder.create o conf).1 where
  indxFile := rfl
  lineFile := rfl
  dataFile := rfl
  indxWellFormed _ := rfl
  lineWellFormed _ := rfl
  dataWellFormed _ := rfl

theorem Ready.pushBack (b : FileBuilder) (p : Pair) (h : Ready b) : Ready (b.pushBack p).1 := by
  obtain ⟨ci, hi⟩ := indx_push_adds b.indx p h.indxWellFormed
  obtain ⟨cl, hl⟩ := line_push_adds b.line p h.lineWellFormed
  obtain ⟨cd, hd⟩ := data_push_adds b.data p h.dataWellFormed
  exact ⟨hi.file.trans h.indxFile, hl.file.trans h.lineFile, hd.file.trans h.dataFile,
    hi.wellFormed, hl.wellFormed, hd.wellFormed⟩

theorem only_singleton {f : FileName} {c : SysCall} (hn : c.names f = true)
    (hr : c.renames = false) : Only f [c] := fun x hx => by
  rw [List.mem_singleton.mp hx]
  exact ⟨hn, hr⟩

theorem only_hash_push (b : HashIndexBuilder) (p : Pair) : Only .hash (b.push p).2 := by
  unfold HashIndexBuilder.push
  cases b.conf.impl with
  | standard => exact only_nil _
  | multiPass capacity order =>
    dsimp only
    split
    · exact only_nil _
    · split
      · exact only_singleton rfl rfl
      · exact only_nil _

theorem only_hazhPush (b : Option HashIndexBuilder) (p : Pair) : Only .hash (hazhPush b p).2 := by
  cases b with
  | none => exact only_nil _
  | some b => exact only_hash_push b p

/-- The calls for one pair, file by file. -/
theorem onFile_pushBack (b : FileBuilder) (p : Pair) (h : Ready b) :
    onFile .indx (b.pushBack p).2 = (b.indx.push p).2 ∧
      onFile .line (b.pushBack p).2 = (b.line.push p).2 ∧
      onFile .data (b.pushBack p).2 = (b.data.push p).2 ∧
      onFile .hash (b.pushBack p).2 = (hazhPush b.hazh p).2 ∧
      onFile .metaTemp (b.pushBack p).2 = [] := by
  obtain ⟨ci, hi⟩ := indx_push_adds b.indx p h.indxWellFormed
  obtain ⟨cl, hl⟩ := line_push_adds b.line p h.lineWellFormed
  obtain ⟨cd, hd⟩ := data_push_adds b.data p h.dataWellFormed
  have oi : Only .indx (b.indx.push p).2 := h.indxFile ▸ Adds.only hi
  have ol : Only .line (b.line.push p).2 := h.lineFile ▸ Adds.only hl
  have od : Only .data (b.data.push p).2 := h.dataFile ▸ Adds.only hd
  have oh := only_hazhPush b.hazh p
  unfold FileBuilder.pushBack
  dsimp only
  simp only [onFile_append]
  refine ⟨?_, ?_, ?_, ?_, ?_⟩
  · rw [oi.onFile, ol.onFile_ne (by decide), od.onFile_ne (by decide), oh.onFile_ne (by decide),
      List.append_nil, List.append_nil, List.append_nil]
  · rw [oi.onFile_ne (by decide), ol.onFile, od.onFile_ne (by decide), oh.onFile_ne (by decide),
      List.nil_append, List.append_nil, List.append_nil]
  · rw [oi.onFile_ne (by decide), ol.onFile_ne (by decide), od.onFile, oh.onFile_ne (by decide),
      List.nil_append, List.nil_append, List.append_nil]
  · rw [oi.onFile_ne (by decide), ol.onFile_ne (by decide), od.onFile_ne (by decide), oh.onFile,
      List.nil_append, List.nil_append, List.nil_append]
  · rw [oi.onFile_ne (by decide), ol.onFile_ne (by decide), od.onFile_ne (by decide),
      oh.onFile_ne (by decide)]
    rfl

theorem only_close (w : Writer) : Only w.file w.close := by
  have hself : (w.file == w.file) = true := beq_self_eq_true w.file
  unfold Writer.close Writer.flush
  split
  · exact only_nil _
  · split
    · exact only_append (only_singleton hself rfl) (only_singleton hself rfl)
    · exact only_singleton hself rfl

theorem encodeNode_ne_nil (node : HashNode) : encodeNode node ≠ [] := by
  unfold encodeNode
  exact fun h => storeBE_ne_nil 7 node.hash (List.append_eq_nil_iff.mp h).1

/-- The standard builder writes its cells in one session. -/
theorem standard_session (o : Outcomes FileName) (nodes : List HashNode) (buffer : Option ℕ) :
    ∃ cs, (Writer.create o .hash buffer).2 ++
        ((Writer.create o .hash buffer).1.writeAll (nodes.map encodeNode)).2 ++
        ((Writer.create o .hash buffer).1.writeAll (nodes.map encodeNode)).1.close =
      session o .hash cs ∧ (∀ c ∈ cs, c ≠ []) ∧
      (o.opens .hash = true → cs.flatten = encodeNodes nodes) := by
  have hw : (Writer.create o .hash buffer).1.WellFormed := fun _ => rfl
  have hne : ∀ data ∈ nodes.map encodeNode, data ≠ [] := by
    intro data hdata
    obtain ⟨node, _, rfl⟩ := List.mem_map.mp hdata
    exact encodeNode_ne_nil node
  obtain ⟨cs, h⟩ := Writer.writeAll_adds hw hne
  obtain ⟨cs', hs, hne', hflat⟩ := Writer.session_of_adds h
  exact ⟨cs', hs, hne', hflat⟩

theorem only_hash_destroy (o : Outcomes FileName) (b : HashIndexBuilder) :
    Only .hash (b.destroy o) := by
  unfold HashIndexBuilder.destroy
  cases b.conf.impl with
  | standard =>
    obtain ⟨cs, hs, _⟩ := standard_session o b.nodes b.conf.buffer
    dsimp only
    rw [hs]
    exact only_session o .hash cs
  | multiPass capacity order =>
    dsimp only
    split
    · exact only_nil _
    · exact only_singleton rfl rfl

/-- The destructor of a hash builder that may be missing. -/
def hazhDestroy (o : Outcomes FileName) (b : Option HashIndexBuilder) : Calls :=
  (b.map (HashIndexBuilder.destroy o)).getD []

/-- The constructor of a hash builder that may be missing. -/
def hazhCreate (o : Outcomes FileName) (conf : Option HashConf) : Calls :=
  ((conf.map (HashIndexBuilder.create o)).map Prod.snd).getD []

theorem only_hazhDestroy (o : Outcomes FileName) (b : Option HashIndexBuilder) :
    Only .hash (hazhDestroy o b) := by
  cases b with
  | none => exact only_nil _
  | some b => exact only_hash_destroy o b

theorem only_hazhCreate (o : Outcomes FileName) (conf : Option HashConf) :
    Only .hash (hazhCreate o conf) := by
  cases conf with
  | none => exact only_nil _
  | some conf =>
    unfold hazhCreate HashIndexBuilder.create
    rw [Option.map_some, Option.map_some, Option.getD_some]
    cases conf.impl with
    | standard => exact only_nil _
    | multiPass capacity order =>
      dsimp only
      split
      · exact only_append (t := [.create .hash]) (only_singleton rfl rfl)
          (only_append (t := [.store .hash _]) (only_singleton rfl rfl) (only_singleton rfl rfl))
      · exact only_singleton rfl rfl

/-- The metadata is written in one session. -/
theorem meta_session (o : Outcomes FileName) (conf : BuildConf) (b : FileMetaBuilder) :
    ∃ cs, writeMetaTemp o conf b = session o .metaTemp cs ∧ (∀ c ∈ cs, c ≠ []) ∧
      (o.opens .metaTemp = true → cs.flatten =
        encodeMeta (metaOptions conf.fileWriteOptions) conf.now.toNat
          ⟨b.count, b.tombstones, fixMin b.minCreated, fixMax b.maxCreated⟩) := by
  have hw : (Writer.create o .metaTemp none).1.WellFormed := fun _ => rfl
  have hne : ∀ blob, encodeMeta (metaOptions conf.fileWriteOptions) conf.now.toNat blob ≠ [] := by
    intro blob h
    have hlen := congrArg List.length h
    unfold encodeMeta at hlen
    simp only [List.length_append, storeBE_length, List.length_nil] at hlen
    omega
  obtain ⟨cs, h⟩ := Writer.write_adds hw
    (hne ⟨b.count, b.tombstones, fixMin b.minCreated, fixMax b.maxCreated⟩)
  obtain ⟨cs', hs, hne', hflat⟩ := Writer.session_of_adds h
  exact ⟨cs', hs, hne', hflat⟩

/-- The builder after it was fed. -/
def fed (o : Outcomes FileName) (conf : BuildConf) (pairs : List Pair) : FileBuilder × Calls :=
  feed FileBuilder.pushBack (FileBuilder.create o conf).1 pairs

/-- All calls up to the renaming. -/
def unnamed (o : Outcomes FileName) (conf : BuildConf) (pairs : List Pair) : Calls :=
  [.create .indx] ++ [.create .line] ++ [.create .data] ++ hazhCreate o conf.hash ++
    (fed o conf pairs).2 ++ hazhDestroy o (fed o conf pairs).1.hazh ++
    (fed o conf pairs).1.data.fileData.close ++ (fed o conf pairs).1.line.fileLine.close ++
    (fed o conf pairs).1.indx.fileIndx.close ++ writeMetaTemp o conf (fed o conf pairs).1.metadata

/-- The renaming is the last call. -/
theorem build_eq (o : Outcomes FileName) (conf : BuildConf) (isOK : Pair → Bool)
    (tombstoneOptions : TombstoneOptions) (pairs : List Pair) :
    build o conf isOK tombstoneOptions pairs =
      unnamed o conf (copy isOK tombstoneOptions pairs) ++ [.rename .metaTemp .metaFile] := by
  unfold build FileBuilder.destroy destroyMeta unnamed fed hazhDestroy
  dsimp only
  rw [← List.append_assoc, ← List.append_assoc, ← List.append_assoc, ← List.append_assoc,
    ← List.append_assoc]
  rfl

theorem ready_fed (o : Outcomes FileName) (conf : BuildConf) (pairs : List Pair) :
    Ready (fed o conf pairs).1 :=
  feed_inv Ready.pushBack (ready_create o conf) pairs

/-- The calls of the feeding, file by file. -/
theorem onFile_fed (o : Outcomes FileName) (conf : BuildConf) (pairs : List Pair) :
    ((fed o conf pairs).1.indx =
        (feed FileIndxBuilder.push (FileBuilder.create o conf).1.indx pairs).1 ∧
      onFile .indx (fed o conf pairs).2 =
        (feed FileIndxBuilder.push (FileBuilder.create o conf).1.indx pairs).2) ∧
    ((fed o conf pairs).1.line =
        (feed FileLineBuilder.push (FileBuilder.create o conf).1.line pairs).1 ∧
      onFile .line (fed o conf pairs).2 =
        (feed FileLineBuilder.push (FileBuilder.create o conf).1.line pairs).2) ∧
    ((fed o conf pairs).1.data =
        (feed FileDataBuilder.push (FileBuilder.create o conf).1.data pairs).1 ∧
      onFile .data (fed o conf pairs).2 =
        (feed FileDataBuilder.push (FileBuilder.create o conf).1.data pairs).2) ∧
    ((fed o conf pairs).1.hazh = (feed hazhPush (FileBuilder.create o conf).1.hazh pairs).1 ∧
      onFile .hash (fed o conf pairs).2 =
        (feed hazhPush (FileBuilder.create o conf).1.hazh pairs).2) := by
  have hready := ready_create o conf
  exact ⟨feed_member Ready.pushBack (fun _ _ _ => rfl)
      (fun b p h => (onFile_pushBack b p h).1) hready pairs,
    feed_member Ready.pushBack (fun _ _ _ => rfl)
      (fun b p h => (onFile_pushBack b p h).2.1) hready pairs,
    feed_member Ready.pushBack (fun _ _ _ => rfl)
      (fun b p h => (onFile_pushBack b p h).2.2.1) hready pairs,
    feed_member Ready.pushBack (fun _ _ _ => rfl)
      (fun b p h => (onFile_pushBack b p h).2.2.2.1) hready pairs⟩

/-- The calls on one file are a session that hands over some octets. -/
def Hands (o : Outcomes FileName) (f : FileName) (t : Calls) (content : Key) : Prop :=
  ∃ cs, onFile f t = session o f cs ∧ (∀ c ∈ cs, c ≠ []) ∧ (o.opens f = true → cs.flatten = content)

theorem only_create (f : FileName) : Only f [.create f] :=
  only_singleton (beq_self_eq_true f) rfl

/-- The calls up to the renaming, file by file. -/
theorem onFile_unnamed (o : Outcomes FileName) (conf : BuildConf) (pairs : List Pair) :
    onFile .indx (unnamed o conf pairs) = [.create .indx] ++ onFile .indx (fed o conf pairs).2 ++
        (fed o conf pairs).1.indx.fileIndx.close ∧
      onFile .line (unnamed o conf pairs) = [.create .line] ++ onFile .line (fed o conf pairs).2 ++
        (fed o conf pairs).1.line.fileLine.close ∧
      onFile .data (unnamed o conf pairs) = [.create .data] ++ onFile .data (fed o conf pairs).2 ++
        (fed o conf pairs).1.data.fileData.close ∧
      onFile .hash (unnamed o conf pairs) = hazhCreate o conf.hash ++
        onFile .hash (fed o conf pairs).2 ++ hazhDestroy o (fed o conf pairs).1.hazh := by
  have hready := ready_fed o conf pairs
  have ci := only_create .indx
  have cl := only_create .line
  have cd := only_create .data
  have ch := only_hazhCreate o conf.hash
  have dh := only_hazhDestroy o (fed o conf pairs).1.hazh
  have dd : Only .data _ := hready.dataFile ▸ only_close (fed o conf pairs).1.data.fileData
  have dl : Only .line _ := hready.lineFile ▸ only_close (fed o conf pairs).1.line.fileLine
  have di : Only .indx _ := hready.indxFile ▸ only_close (fed o conf pairs).1.indx.fileIndx
  obtain ⟨cs, hm, _⟩ := meta_session o conf (fed o conf pairs).1.metadata
  have dm : Only .metaTemp (writeMetaTemp o conf (fed o conf pairs).1.metadata) :=
    hm ▸ only_session o .metaTemp cs
  unfold unnamed
  simp only [onFile_append]
  refine ⟨?_, ?_, ?_, ?_⟩
  · rw [ci.onFile, cl.onFile_ne (by decide), cd.onFile_ne (by decide), ch.onFile_ne (by decide),
      dh.onFile_ne (by decide), dd.onFile_ne (by decide), dl.onFile_ne (by decide), di.onFile,
      dm.onFile_ne (by decide)]
    simp only [List.append_nil]
  · rw [ci.onFile_ne (by decide), cl.onFile, cd.onFile_ne (by decide), ch.onFile_ne (by decide),
      dh.onFile_ne (by decide), dd.onFile_ne (by decide), dl.onFile, di.onFile_ne (by decide),
      dm.onFile_ne (by decide)]
    simp only [List.append_nil, List.nil_append]
  · rw [ci.onFile_ne (by decide), cl.onFile_ne (by decide), cd.onFile, ch.onFile_ne (by decide),
      dh.onFile_ne (by decide), dd.onFile, dl.onFile_ne (by decide), di.onFile_ne (by decide),
      dm.onFile_ne (by decide)]
    simp only [List.append_nil, List.nil_append]
  · rw [ci.onFile_ne (by decide), cl.onFile_ne (by decide), cd.onFile_ne (by decide), ch.onFile,
      dh.onFile, dd.onFile_ne (by decide), dl.onFile_ne (by decide), di.onFile_ne (by decide),
      dm.onFile_ne (by decide)]
    simp only [List.append_nil, List.nil_append]

theorem hands_indx (o : Outcomes FileName) (conf : BuildConf) (pairs : List Pair) :
    Hands o .indx (unnamed o conf pairs)
      (offsets (isAligned conf.fileWriteOptions) 0 pairs) := by
  obtain ⟨cs, h⟩ := feed_adds (w := FileIndxBuilder.fileIndx) indx_push_adds
    (ready_create o conf).indxWellFormed pairs
  rw [feedBytes_indx] at h
  obtain ⟨cs', hs, hne, hflat⟩ := Writer.session_of_adds h
  obtain ⟨⟨hb, hcalls⟩, _⟩ := onFile_fed o conf pairs
  refine ⟨cs', ?_, hne, hflat⟩
  rw [(onFile_unnamed o conf pairs).1, hb, hcalls]
  exact hs

theorem hands_line (o : Outcomes FileName) (conf : BuildConf) (pairs : List Pair) :
    Hands o .line (unnamed o conf pairs)
      ((HotLine.fileLineBuilder 0 0 pairs).flatMap encodeLine) := by
  obtain ⟨cs, h⟩ := feed_adds (w := FileLineBuilder.fileLine) line_push_adds
    (ready_create o conf).lineWellFormed pairs
  rw [feedBytes_line] at h
  obtain ⟨cs', hs, hne, hflat⟩ := Writer.session_of_adds h
  obtain ⟨_, ⟨hb, hcalls⟩, _⟩ := onFile_fed o conf pairs
  refine ⟨cs', ?_, hne, hflat⟩
  rw [(onFile_unnamed o conf pairs).2.1, hb, hcalls]
  exact hs

theorem hands_data (o : Outcomes FileName) (conf : BuildConf) (pairs : List Pair) :
    Hands o .data (unnamed o conf pairs)
      (blocks (isAligned conf.fileWriteOptions) pairs) := by
  obtain ⟨cs, h⟩ := feed_adds (w := FileDataBuilder.fileData) data_push_adds
    (ready_create o conf).dataWellFormed pairs
  rw [feedBytes_data] at h
  obtain ⟨cs', hs, hne, hflat⟩ := Writer.session_of_adds h
  obtain ⟨_, _, ⟨hb, hcalls⟩, _⟩ := onFile_fed o conf pairs
  refine ⟨cs', ?_, hne, hflat⟩
  rw [(onFile_unnamed o conf pairs).2.2.1, hb, hcalls]
  exact hs

/-! ### The hash index and the metadata -/

theorem feed_hazhPush_none (pairs : List Pair) : feed hazhPush none pairs = (none, []) := by
  induction pairs with
  | nil => rfl
  | cons p pairs ih =>
    have hpush : hazhPush none p = (none, []) := rfl
    unfold feed
    rw [hpush]
    dsimp only
    rw [ih]
    rfl

theorem feed_hazhPush_some (b : HashIndexBuilder) (pairs : List Pair) :
    feed hazhPush (some b) pairs =
      (some (feed HashIndexBuilder.push b pairs).1, (feed HashIndexBuilder.push b pairs).2) := by
  induction pairs generalizing b with
  | nil => rfl
  | cons p pairs ih =>
    have hpush : hazhPush (some b) p = (some (b.push p).1, (b.push p).2) := rfl
    unfold feed
    rw [hpush]
    dsimp only
    rw [ih]

/-- The standard builder collects its cells without a call. -/
theorem feed_standard {b : HashIndexBuilder} (h : b.conf.impl = .standard) (pairs : List Pair) :
    (feed HashIndexBuilder.push b pairs).2 = [] ∧
      (feed HashIndexBuilder.push b pairs).1.conf = b.conf ∧
      (feed HashIndexBuilder.push b pairs).1.nodes =
        insertAll b.conf.nodesCount (recordsFrom b.conf.hash b.conf.w b.pos pairs) b.nodes := by
  induction pairs generalizing b with
  | nil => exact ⟨rfl, rfl, rfl⟩
  | cons p pairs ih =>
    have hpush : b.push p = ({ b with
        pos := (b.pos + 1) % 2 ^ b.conf.w,
        nodes := insertAll b.conf.nodesCount [b.record p] b.nodes }, []) := by
      unfold HashIndexBuilder.push
      rw [h]
    unfold feed
    rw [hpush]
    dsimp only
    obtain ⟨hcalls, hconf, hnodes⟩ := ih (b := { b with
        pos := (b.pos + 1) % 2 ^ b.conf.w,
        nodes := insertAll b.conf.nodesCount [b.record p] b.nodes }) h
    exact ⟨hcalls, hconf, hnodes⟩

/-- Without its file the multi-pass builder does nothing. -/
theorem feed_unmapped {b : HashIndexBuilder} {capacity : ℕ} {order : CellSort}
    (h : b.conf.impl = .multiPass capacity order) (hmap : b.mmap = false) (pairs : List Pair) :
    feed HashIndexBuilder.push b pairs = (b, []) := by
  induction pairs with
  | nil => rfl
  | cons p pairs ih =>
    have hpush : b.push p = (b, []) := by
      unfold HashIndexBuilder.push
      rw [h]
      dsimp only
      rw [if_pos hmap]
    unfold feed
    rw [hpush]
    dsimp only
    rw [ih]
    rfl

/-- With its file the multi-pass builder stores the cells of its passes. -/
theorem feed_mapped {b : HashIndexBuilder} {capacity : ℕ} {order : CellSort}
    (h : b.conf.impl = .multiPass capacity order) (hmap : b.mmap = true) (o : Outcomes FileName)
    (pairs : List Pair) :
    (∀ c ∈ (feed HashIndexBuilder.push b pairs).2 ++
        (feed HashIndexBuilder.push b pairs).1.destroy o, c.stores .hash) ∧
      lastStore (encodeNodes b.nodes) ((feed HashIndexBuilder.push b pairs).2 ++
          (feed HashIndexBuilder.push b pairs).1.destroy o) =
        encodeNodes (multiPassFeed order capacity b.conf.nodesCount b.vector b.nodes
          (recordsFrom b.conf.hash b.conf.w b.pos pairs)) := by
  have hone : ∀ data : Key, ∀ c ∈ [(.store .hash data : SysCall)], c.stores .hash :=
    fun data c hc => by
      rw [List.mem_singleton.mp hc]
      rfl
  induction pairs generalizing b with
  | nil =>
    unfold feed HashIndexBuilder.destroy
    rw [h]
    dsimp only
    rw [recordsFrom, multiPassFeed, List.nil_append]
    split
    · exact ⟨fun c hc => absurd hc List.not_mem_nil, rfl⟩
    · exact ⟨hone _, rfl⟩
  | cons p pairs ih =>
    rw [recordsFrom, multiPassFeed]
    by_cases hfull : (b.vector ++ [b.record p]).length = capacity
    · have hpush : b.push p = ({ b with
          pos := (b.pos + 1) % 2 ^ b.conf.w,
          nodes := flush order b.conf.nodesCount (b.vector ++ [b.record p]) b.nodes,
          vector := [] },
          [.store .hash (encodeNodes
            (flush order b.conf.nodesCount (b.vector ++ [b.record p]) b.nodes))]) := by
        unfold HashIndexBuilder.push
        rw [h]
        dsimp only
        rw [hmap, if_neg Bool.false_ne_true.symm, if_pos hfull]
      obtain ⟨hstores, hlast⟩ := ih (b := { b with
          pos := (b.pos + 1) % 2 ^ b.conf.w,
          nodes := flush order b.conf.nodesCount (b.vector ++ [b.record p]) b.nodes,
          vector := [] }) h hmap
      have hrec : (⟨(b.conf.hash p.key).val, b.pos⟩ : HashNode) = b.record p := rfl
      unfold feed
      rw [hpush, hrec, if_pos hfull]
      dsimp only
      rw [List.append_assoc, lastStore_append]
      exact ⟨fun c hc => (List.mem_append.mp hc).elim (hone _ c) (hstores c), hlast⟩
    · have hpush : b.push p = ({ b with
          pos := (b.pos + 1) % 2 ^ b.conf.w,
          vector := b.vector ++ [b.record p] }, []) := by
        unfold HashIndexBuilder.push
        rw [h]
        dsimp only
        rw [hmap, if_neg Bool.false_ne_true.symm, if_neg hfull]
      obtain ⟨hstores, hlast⟩ := ih (b := { b with
          pos := (b.pos + 1) % 2 ^ b.conf.w,
          vector := b.vector ++ [b.record p] }) h hmap
      have hrec : (⟨(b.conf.hash p.key).val, b.pos⟩ : HashNode) = b.record p := rfl
      unfold feed
      rw [hpush, hrec, if_neg hfull]
      exact ⟨hstores, hlast⟩

/-- A call on some file other than the final metadata. -/
def Unpublished (c : SysCall) : Prop :=
  ∃ f, f ≠ .metaFile ∧ c.names f = true ∧ c.renames = false

theorem Only.unpublished {f : FileName} {t : Calls} (h : Only f t) (hne : f ≠ .metaFile) :
    ∀ c ∈ t, Unpublished c :=
  fun c hc => ⟨f, hne, h c hc⟩

theorem pushBack_unpublished {b : FileBuilder} (h : Ready b) (p : Pair) :
    ∀ c ∈ (b.pushBack p).2, Unpublished c := by
  obtain ⟨ci, hi⟩ := indx_push_adds b.indx p h.indxWellFormed
  obtain ⟨cl, hl⟩ := line_push_adds b.line p h.lineWellFormed
  obtain ⟨cd, hd⟩ := data_push_adds b.data p h.dataWellFormed
  have oi : Only .indx (b.indx.push p).2 := h.indxFile ▸ Adds.only hi
  have ol : Only .line (b.line.push p).2 := h.lineFile ▸ Adds.only hl
  have od : Only .data (b.data.push p).2 := h.dataFile ▸ Adds.only hd
  intro c hc
  unfold FileBuilder.pushBack at hc
  simp only [List.mem_append] at hc
  rcases hc with ((hc | hc) | hc) | hc
  · exact oi.unpublished (by decide) c hc
  · exact ol.unpublished (by decide) c hc
  · exact od.unpublished (by decide) c hc
  · exact (only_hazhPush b.hazh p).unpublished (by decide) c hc

theorem feed_unpublished {b : FileBuilder} (h : Ready b) (pairs : List Pair) :
    ∀ c ∈ (feed FileBuilder.pushBack b pairs).2, Unpublished c := by
  induction pairs generalizing b with
  | nil => exact fun c hc => absurd hc List.not_mem_nil
  | cons p pairs ih =>
    intro c hc
    exact (List.mem_append.mp hc).elim (pushBack_unpublished h p c) (ih (h.pushBack b p) c)

/-- Up to the renaming nothing is published. -/
theorem unnamed_unpublished (o : Outcomes FileName) (conf : BuildConf) (pairs : List Pair) :
    ∀ c ∈ unnamed o conf pairs, Unpublished c := by
  have hready := ready_fed o conf pairs
  have dd : Only .data _ := hready.dataFile ▸ only_close (fed o conf pairs).1.data.fileData
  have dl : Only .line _ := hready.lineFile ▸ only_close (fed o conf pairs).1.line.fileLine
  have di : Only .indx _ := hready.indxFile ▸ only_close (fed o conf pairs).1.indx.fileIndx
  obtain ⟨cs, hm, _⟩ := meta_session o conf (fed o conf pairs).1.metadata
  intro c hc
  unfold unnamed at hc
  simp only [List.mem_append] at hc
  rcases hc with ((((((((hc | hc) | hc) | hc) | hc) | hc) | hc) | hc) | hc) | hc
  · exact (only_create .indx).unpublished (by decide) c hc
  · exact (only_create .line).unpublished (by decide) c hc
  · exact (only_create .data).unpublished (by decide) c hc
  · exact (only_hazhCreate o conf.hash).unpublished (by decide) c hc
  · exact feed_unpublished (ready_create o conf) pairs c hc
  · exact (only_hazhDestroy o _).unpublished (by decide) c hc
  · exact dd.unpublished (by decide) c hc
  · exact dl.unpublished (by decide) c hc
  · exact di.unpublished (by decide) c hc
  · rw [hm] at hc
    exact (only_session o .metaTemp cs).unpublished (by decide) c hc

theorem unnamed_not_renames (o : Outcomes FileName) (conf : BuildConf) (pairs : List Pair) :
    ∀ c ∈ unnamed o conf pairs, c.renames = false := fun c hc => by
  obtain ⟨_, _, _, hr⟩ := unnamed_unpublished o conf pairs c hc
  exact hr

theorem unnamed_metaFile (o : Outcomes FileName) (conf : BuildConf) (pairs : List Pair) :
    ∀ c ∈ unnamed o conf pairs, c.names .metaFile = false := fun c hc => by
  obtain ⟨f, hne, hn, hr⟩ := unnamed_unpublished o conf pairs c hc
  exact names_ne hn hr hne

theorem feed_metadata (b : FileBuilder) (pairs : List Pair) :
    (feed FileBuilder.pushBack b pairs).1.metadata =
      pairs.foldl FileMetaBuilder.push b.metadata := by
  induction pairs generalizing b with
  | nil => rfl
  | cons p pairs ih => exact ih (b.pushBack p).1

/-- Feeding does not touch the metadata. -/
theorem feed_metaTemp {b : FileBuilder} (h : Ready b) (pairs : List Pair) :
    onFile .metaTemp (feed FileBuilder.pushBack b pairs).2 = [] := by
  induction pairs generalizing b with
  | nil => rfl
  | cons p pairs ih =>
    unfold feed
    dsimp only
    rw [onFile_append, (onFile_pushBack b p h).2.2.2.2, ih (h.pushBack b p), List.append_nil]

theorem hands_meta (o : Outcomes FileName) (conf : BuildConf) (pairs : List Pair) :
    Hands o .metaTemp (unnamed o conf pairs)
      (encodeMeta (metaOptions conf.fileWriteOptions) conf.now.toNat (fileMeta pairs)) := by
  obtain ⟨cs, hs, hne, hflat⟩ := meta_session o conf (fed o conf pairs).1.metadata
  have hmeta : (fed o conf pairs).1.metadata =
      pairs.foldl FileMetaBuilder.push FileMetaBuilder.start := feed_metadata _ pairs
  have hready := ready_fed o conf pairs
  have dd : Only .data _ := hready.dataFile ▸ only_close (fed o conf pairs).1.data.fileData
  have dl : Only .line _ := hready.lineFile ▸ only_close (fed o conf pairs).1.line.fileLine
  have di : Only .indx _ := hready.indxFile ▸ only_close (fed o conf pairs).1.indx.fileIndx
  have hfed : onFile .metaTemp (fed o conf pairs).2 = [] :=
    feed_metaTemp (ready_create o conf) pairs
  refine ⟨cs, ?_, hne, fun ho => ?_⟩
  · unfold unnamed
    simp only [onFile_append]
    rw [(only_create .indx).onFile_ne (by decide), (only_create .line).onFile_ne (by decide),
      (only_create .data).onFile_ne (by decide), (only_hazhCreate o conf.hash).onFile_ne (by decide),
      hfed, (only_hazhDestroy o _).onFile_ne (by decide), dd.onFile_ne (by decide),
      dl.onFile_ne (by decide), di.onFile_ne (by decide), hs, (only_session o .metaTemp cs).onFile]
    rfl
  · rw [hflat ho, hmeta]
    rfl

/-- Without a hash index there is no hash file. -/
theorem files_hash_none (o : Outcomes FileName) {conf : BuildConf} (h : conf.hash = none)
    (pairs : List Pair) : (replay o (unnamed o conf pairs)).files .hash = none := by
  obtain ⟨_, _, _, hb, hcalls⟩ := onFile_fed o conf pairs
  have hfile := (onFile_unnamed o conf pairs).2.2.2
  have hmember : (FileBuilder.create o conf).1.hazh =
      (conf.hash.map (HashIndexBuilder.create o)).map Prod.fst := rfl
  have hagree := agree_onFile o (f := .hash) (unnamed_not_renames o conf pairs)
    (⟨rfl, rfl⟩ : Agree FileName.hash Disk.none Disk.none)
  rw [hb, hcalls, hmember, h, Option.map_none, Option.map_none, feed_hazhPush_none] at hfile
  rw [hfile] at hagree
  exact hagree.1

/-- The calls on the hash file are those of the hash builder. -/
theorem onFile_hash (o : Outcomes FileName) {conf : BuildConf} {hc : HashConf}
    (h : conf.hash = some hc) (pairs : List Pair) :
    onFile .hash (unnamed o conf pairs) = (HashIndexBuilder.create o hc).2 ++
      (feed HashIndexBuilder.push (HashIndexBuilder.create o hc).1 pairs).2 ++
      (feed HashIndexBuilder.push (HashIndexBuilder.create o hc).1 pairs).1.destroy o := by
  obtain ⟨_, _, _, hb, hcalls⟩ := onFile_fed o conf pairs
  have hmember : (FileBuilder.create o conf).1.hazh =
      (conf.hash.map (HashIndexBuilder.create o)).map Prod.fst := rfl
  rw [(onFile_unnamed o conf pairs).2.2.2, hb, hcalls, hmember, h, Option.map_some, Option.map_some,
    feed_hazhPush_some]
  rfl

/-- The standard builder writes the hash index in one session. -/
theorem hands_hash_standard (o : Outcomes FileName) {conf : BuildConf} {hc : HashConf}
    (h : conf.hash = some hc) (himpl : hc.impl = .standard) (pairs : List Pair) :
    Hands o .hash (unnamed o conf pairs) (encodeNodes (hashNodes hc pairs)) := by
  have hcreate : HashIndexBuilder.create o hc =
      (⟨hc, 0, emptyNodes hc.nodesCount, [], false⟩, []) := by
    unfold HashIndexBuilder.create
    rw [himpl]
  obtain ⟨hnone, hconf, hnodes⟩ :=
    feed_standard (b := ⟨hc, 0, emptyNodes hc.nodesCount, [], false⟩) himpl pairs
  obtain ⟨cs, hs, hne, hflat⟩ := standard_session o (hashNodes hc pairs) hc.buffer
  have hdestroy : (feed HashIndexBuilder.push
      ⟨hc, 0, emptyNodes hc.nodesCount, [], false⟩ pairs).1.destroy o = session o .hash cs := by
    unfold HashIndexBuilder.destroy
    rw [hconf, himpl, hnodes, ← hs]
    unfold hashNodes
    rw [himpl]
  refine ⟨cs, ?_, hne, hflat⟩
  rw [onFile_hash o h, hcreate, hnone, hdestroy]
  rfl

/-- The multi-pass builder fills its file through the mapping. -/
theorem files_hash_multiPass (o : Outcomes FileName) {conf : BuildConf} {hc : HashConf}
    (h : conf.hash = some hc) {capacity : ℕ} {order : CellSort}
    (himpl : hc.impl = .multiPass capacity order) (pairs : List Pair) :
    (replay o (unnamed o conf pairs)).files .hash =
      if o.opens .hash then some (encodeNodes (hashNodes hc pairs)) else none := by
  have hagree := agree_onFile o (f := .hash) (unnamed_not_renames o conf pairs)
    (⟨rfl, rfl⟩ : Agree FileName.hash Disk.none Disk.none)
  have hcreate : HashIndexBuilder.create o hc =
      (⟨hc, 0, emptyNodes hc.nodesCount, [], o.opens .hash⟩, .create .hash ::
        if o.opens .hash then
          [.store .hash (encodeNodes (emptyNodes hc.nodesCount)), .close .hash]
        else []) := by
    unfold HashIndexBuilder.create
    rw [himpl]
  have hfile := onFile_hash o h pairs
  rw [hcreate] at hfile
  rw [replay, hagree.1, hfile]
  by_cases ho : o.opens .hash = true
  · obtain ⟨hstores, hlast⟩ := feed_mapped
      (b := ⟨hc, 0, emptyNodes hc.nodesCount, [], o.opens .hash⟩) himpl ho o pairs
    have hfirst : ∀ c ∈ [(.store .hash (encodeNodes (emptyNodes hc.nodesCount)) : SysCall),
        .close .hash], c.stores .hash := by
      intro c hc
      rcases List.mem_cons.mp hc with rfl | hc
      · rfl
      · rw [List.mem_singleton.mp hc]
        rfl
    have hcons : ∀ t : Calls, runAll o Disk.none (.create .hash :: t) =
        runAll o ⟨Function.update (fun _ => none) .hash (some []), fun _ => 0⟩ t := fun t => by
      have hrun : Call.run o (Disk.none : Disk FileName Byte) (.create .hash) =
          ⟨Function.update (fun _ => none) .hash (some []), fun _ => 0⟩ := by
        unfold Call.run
        dsimp only
        rw [if_pos ho]
        rfl
      rw [← hrun]
      rfl
    dsimp only
    rw [if_pos ho, if_pos ho, List.append_assoc, List.cons_append, hcons,
      runAll_stores o (fun c hc => (List.mem_append.mp hc).elim (hfirst c) (hstores c))]
    dsimp only
    rw [Function.update_self, Option.map_some, lastStore_append]
    refine congrArg some (hlast.trans ?_)
    unfold hashNodes
    rw [himpl]
  · have hmap : o.opens .hash = false := Bool.eq_false_iff.mpr ho
    have hfed := feed_unmapped (b := ⟨hc, 0, emptyNodes hc.nodesCount, [], o.opens .hash⟩)
      himpl hmap pairs
    have hdestroy : (⟨hc, 0, emptyNodes hc.nodesCount, [], o.opens .hash⟩ :
        HashIndexBuilder).destroy o = [] := by
      unfold HashIndexBuilder.destroy
      rw [himpl]
      rfl
    dsimp only
    rw [if_neg ho, if_neg ho, hfed]
    dsimp only
    rw [hdestroy]
    unfold runAll
    rw [List.append_nil, List.append_nil, List.foldl_cons, List.foldl_nil]
    unfold Call.run
    dsimp only
    rw [if_neg ho]
    rfl

/-! ### What the calls leave -/

/-- The files that are opened for writing. -/
def created (conf : BuildConf) : List FileName :=
  [.metaTemp, .indx, .line, .data] ++ if conf.hash.isSome then [.hash] else []

/-- The content that a file gets, under the name it is opened with. -/
def content (conf : BuildConf) (pairs : List Pair) (f : FileName) : Option Key :=
  if f = .metaTemp then wanted conf pairs .metaFile else wanted conf pairs f

/-- Every file opens, and every write that is made when all files open is complete. -/
def AllComplete (o : Outcomes FileName) (conf : BuildConf) (pairs : List Pair) : Prop :=
  ∀ f ∈ created conf, o.opens f = true ∧
    ∀ i < writesOn f (unnamed Outcomes.perfect conf pairs), o.writes f i = .complete

theorem Hands.files_iff {o : Outcomes FileName} {conf : BuildConf} {pairs : List Pair}
    {f : FileName} {content : Key} (h : Hands o f (unnamed o conf pairs) content) :
    (replay o (unnamed o conf pairs)).files f = some content ↔
      o.opens f = true ∧ ∀ i < writesOn f (unnamed o conf pairs), o.writes f i = .complete := by
  obtain ⟨cs, hs, hne, hflat⟩ := h
  have ht := unnamed_not_renames o conf pairs
  by_cases ho : o.opens f = true
  · rw [← files_eq_iff o ht hs hne, hflat ho]
  · rw [files_of_session o ht hs, if_neg ho]
    exact iff_of_false (Option.some_ne_none _).symm fun hc => ho hc.1

/-- The multi-pass builder makes no write. -/
theorem writesOn_hash_multiPass (o : Outcomes FileName) {conf : BuildConf} {hc : HashConf}
    (h : conf.hash = some hc) {capacity : ℕ} {order : CellSort}
    (himpl : hc.impl = .multiPass capacity order) (pairs : List Pair) :
    writesOn .hash (unnamed o conf pairs) = 0 := by
  unfold writesOn
  rw [onFile_hash o h]
  unfold HashIndexBuilder.create
  rw [himpl]
  dsimp only
  rw [List.append_assoc, List.countP_append, Nat.add_eq_zero_iff]
  by_cases ho : o.opens .hash = true
  · obtain ⟨hstores, _⟩ := feed_mapped
      (b := ⟨hc, 0, emptyNodes hc.nodesCount, [], o.opens .hash⟩) himpl ho o pairs
    refine ⟨?_, List.countP_eq_zero.mpr fun c hc => ?_⟩
    · rw [if_pos ho]
      rfl
    · rw [not_isWrite_of_stores (hstores c hc)]
      exact Bool.false_ne_true
  · have hfed := feed_unmapped (b := ⟨hc, 0, emptyNodes hc.nodesCount, [], o.opens .hash⟩)
      himpl (Bool.eq_false_iff.mpr ho) pairs
    rw [hfed, if_neg ho]
    refine ⟨rfl, ?_⟩
    unfold HashIndexBuilder.destroy
    rw [himpl]
    rfl

/-- Each file has its content exactly if it opens and every write on it is complete. -/
theorem files_unnamed_iff (o : Outcomes FileName) (conf : BuildConf) (pairs : List Pair)
    {f : FileName} (hf : f ∈ created conf) :
    (replay o (unnamed o conf pairs)).files f = content conf pairs f ↔
      o.opens f = true ∧ ∀ i < writesOn f (unnamed o conf pairs), o.writes f i = .complete := by
  unfold created at hf
  rcases List.mem_append.mp hf with hf | hf
  · simp only [List.mem_cons, List.not_mem_nil, or_false] at hf
    rcases hf with rfl | rfl | rfl | rfl
    · exact (hands_meta o conf pairs).files_iff
    · exact (hands_indx o conf pairs).files_iff
    · exact (hands_line o conf pairs).files_iff
    · exact (hands_data o conf pairs).files_iff
  · cases hc : conf.hash with
    | none =>
      rw [hc] at hf
      exact absurd hf List.not_mem_nil
    | some hconf =>
      rw [hc] at hf
      obtain rfl := List.mem_singleton.mp hf
      have hcontent : content conf pairs .hash = some (encodeNodes (hashNodes hconf pairs)) := by
        unfold content wanted
        rw [hc]
        rfl
      rw [hcontent]
      cases himpl : hconf.impl with
      | standard => exact (hands_hash_standard o hc himpl pairs).files_iff
      | multiPass capacity order =>
        rw [files_hash_multiPass o hc himpl, writesOn_hash_multiPass o hc himpl]
        by_cases ho : o.opens .hash = true
        · rw [if_pos ho]
          exact iff_of_true rfl ⟨ho, fun i hi => absurd hi (Nat.not_lt_zero i)⟩
        · rw [if_neg ho]
          exact iff_of_false (Option.some_ne_none _).symm fun h => ho h.1

theorem create_congr {o o' : Outcomes FileName} {f : FileName} (h : o.opens f = o'.opens f)
    (buffer : Option ℕ) : Writer.create o f buffer = Writer.create o' f buffer := by
  unfold Writer.create
  rw [h]

theorem destroy_congr {o o' : Outcomes FileName} (h : o.opens .hash = o'.opens .hash)
    (b : HashIndexBuilder) : b.destroy o = b.destroy o' := by
  unfold HashIndexBuilder.destroy
  rw [create_congr h]

theorem hash_create_congr {o o' : Outcomes FileName} (h : o.opens .hash = o'.opens .hash)
    (hc : HashConf) : HashIndexBuilder.create o hc = HashIndexBuilder.create o' hc := by
  unfold HashIndexBuilder.create
  rw [h]

/-- The calls depend on the opening of the files only. -/
theorem unnamed_congr {o : Outcomes FileName} (o' : Outcomes FileName) {conf : BuildConf}
    (h : ∀ f ∈ created conf, o.opens f = o'.opens f) (pairs : List Pair) :
    unnamed o conf pairs = unnamed o' conf pairs := by
  have hm := h .metaTemp (List.mem_append_left _ (by decide))
  have hi := h .indx (List.mem_append_left _ (by decide))
  have hl := h .line (List.mem_append_left _ (by decide))
  have hd := h .data (List.mem_append_left _ (by decide))
  have hmeta : ∀ b, writeMetaTemp o conf b = writeMetaTemp o' conf b := fun b => by
    unfold writeMetaTemp
    rw [create_congr hm]
  have hhash : ∀ hc, conf.hash = some hc → o.opens .hash = o'.opens .hash := fun hc e =>
    h .hash (List.mem_append_right _ (by rw [e]; exact List.mem_singleton_self _))
  have hmap : conf.hash.map (HashIndexBuilder.create o) =
      conf.hash.map (HashIndexBuilder.create o') := by
    cases e : conf.hash with
    | none => rfl
    | some hc => rw [Option.map_some, Option.map_some, hash_create_congr (hhash hc e)]
  have hcreate : FileBuilder.create o conf = FileBuilder.create o' conf := by
    unfold FileBuilder.create
    rw [create_congr hi, create_congr hl, create_congr hd, hmap]
  have hfed : fed o conf pairs = fed o' conf pairs := by
    unfold fed
    rw [hcreate]
  have hdestroy : hazhDestroy o (fed o' conf pairs).1.hazh =
      hazhDestroy o' (fed o' conf pairs).1.hazh := by
    have hb := (onFile_fed o' conf pairs).2.2.2.1
    have hmember : (FileBuilder.create o' conf).1.hazh =
        (conf.hash.map (HashIndexBuilder.create o')).map Prod.fst := rfl
    rw [hb, hmember]
    cases e : conf.hash with
    | none =>
      rw [Option.map_none, Option.map_none, feed_hazhPush_none]
      rfl
    | some hc =>
      rw [Option.map_some, Option.map_some, feed_hazhPush_some]
      exact destroy_congr (hhash hc e) _
  unfold unnamed hazhCreate
  rw [hfed, hmap, hmeta, hdestroy]

/-- All files have their content before the renaming exactly if nothing fails. -/
theorem files_created_iff (o : Outcomes FileName) (conf : BuildConf) (pairs : List Pair) :
    (∀ f ∈ created conf, (replay o (unnamed o conf pairs)).files f = content conf pairs f) ↔
      AllComplete o conf pairs := by
  have hcongr : (∀ f ∈ created conf, o.opens f = true) →
      unnamed o conf pairs = unnamed Outcomes.perfect conf pairs := fun h =>
    unnamed_congr Outcomes.perfect (fun f hf => h f hf) pairs
  constructor
  · intro h
    have hiff := fun f hf => (files_unnamed_iff o conf pairs hf).mp (h f hf)
    have he := hcongr fun f hf => (hiff f hf).1
    intro f hf
    have hfile := hiff f hf
    rwa [he] at hfile
  · intro h f hf
    have he := hcongr fun f hf => (h f hf).1
    rw [files_unnamed_iff o conf pairs hf, he]
    exact h f hf

/-- The files of a flush hold what they have to exactly if nothing fails. -/
theorem files_build_iff (o : Outcomes FileName) (conf : BuildConf) (isOK : Pair → Bool)
    (tombstoneOptions : TombstoneOptions) (pairs : List Pair) :
    (∀ f, (replay o (build o conf isOK tombstoneOptions pairs)).files f =
        wanted conf (copy isOK tombstoneOptions pairs) f) ↔
      AllComplete o conf (copy isOK tombstoneOptions pairs) := by
  set kept := copy isOK tombstoneOptions pairs
  have hmetaFile : (replay o (unnamed o conf kept)).files .metaFile = none :=
    files_of_not_named o (unnamed_metaFile o conf kept)
  rw [build_eq, ← files_created_iff]
  constructor
  · intro h f hf
    have hcase : f = .metaTemp ∨ f ≠ .metaTemp ∧ f ≠ .metaFile := by
      unfold created at hf
      rcases List.mem_append.mp hf with hf | hf
      · revert hf
        cases f <;> decide
      · split at hf
        · rw [List.mem_singleton.mp hf]
          exact Or.inr ⟨by decide, by decide⟩
        · exact absurd hf List.not_mem_nil
    rcases hcase with rfl | ⟨htemp, hfile⟩
    · have hm := h .metaFile
      rw [replay_rename o hmetaFile, if_pos rfl] at hm
      exact hm
    · have hm := h f
      rw [replay_rename o hmetaFile, if_neg hfile, if_neg htemp] at hm
      unfold content
      rw [if_neg htemp]
      exact hm
  · intro h f
    rw [replay_rename o hmetaFile]
    by_cases hfile : f = .metaFile
    · rw [if_pos hfile, hfile]
      exact h .metaTemp (List.mem_append_left _ (by decide))
    · rw [if_neg hfile]
      by_cases htemp : f = .metaTemp
      · rw [if_pos htemp, htemp]
        rfl
      · have hc : content conf kept f = wanted conf kept f := if_neg htemp
        rw [if_neg htemp, ← hc]
        by_cases hf : f ∈ created conf
        · exact h f hf
        · have hhash : f = .hash ∧ conf.hash = none := by
            unfold created at hf
            rw [List.mem_append, not_or] at hf
            obtain ⟨hfour, hrest⟩ := hf
            have hf : f = .hash := by
              revert hfour hfile
              cases f <;> decide
            refine ⟨hf, ?_⟩
            cases e : conf.hash with
            | none => rfl
            | some hc =>
              rw [e, hf] at hrest
              exact absurd (List.mem_singleton_self _) hrest
          obtain ⟨rfl, hnone⟩ := hhash
          rw [files_hash_none o hnone]
          unfold content wanted
          rw [hnone]
          rfl

/-- When every call is complete, the final name of the metadata either does not exist
or every file holds all that its builder has to write; and in the end it exists. -/
theorem published_complete (conf : BuildConf) (isOK : Pair → Bool)
    (tombstoneOptions : TombstoneOptions) (pairs : List Pair) :
    (∀ n, (replay Outcomes.perfect
          ((build Outcomes.perfect conf isOK tombstoneOptions pairs).take n)).files .metaFile =
          none ∨
        ∀ f, (replay Outcomes.perfect
            ((build Outcomes.perfect conf isOK tombstoneOptions pairs).take n)).files f =
          wanted conf (copy isOK tombstoneOptions pairs) f) ∧
      ∀ f, (replay Outcomes.perfect
          (build Outcomes.perfect conf isOK tombstoneOptions pairs)).files f =
        wanted conf (copy isOK tombstoneOptions pairs) f := by
  have hend := (files_build_iff Outcomes.perfect conf isOK tombstoneOptions pairs).mpr
    fun f _ => ⟨rfl, fun _ _ => rfl⟩
  refine ⟨fun n => ?_, hend⟩
  by_cases hn : n ≤ (unnamed Outcomes.perfect conf (copy isOK tombstoneOptions pairs)).length
  · left
    rw [build_eq, List.take_append_of_le_length hn]
    exact files_of_not_named _ fun c hc =>
      unnamed_metaFile _ conf _ c (List.mem_of_mem_take hc)
  · right
    have hall : (build Outcomes.perfect conf isOK tombstoneOptions pairs).length ≤ n := by
      rw [build_eq, List.length_append, List.length_singleton]
      omega
    rw [List.take_of_length_le hall]
    exact hend

end HM4.TableBuilder
