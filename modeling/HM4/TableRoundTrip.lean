import HM4.TableFile

/-!
# Reading a table back

What the builder wrote is a row of blocks, one for each pair, and the offsets at
which they start. Reading by offset always finds the pairs. Reading forward finds
them as long as the reader steps over the same gaps as the builder left, which
matters for every pair but the last.
-/

namespace HM4.TableRoundTrip

open Bytes Pairs FileMeta FileWriter FileWriterFD TableFile

/-- Whether gaps follow the pairs. -/
def isAligned (options : WriteOptions) : Bool := options = .ALIGNED

/-- The octets from one pair to the next. -/
def stride (aligned : Bool) (p : Pair) : ℕ := alignedSize p.bytes aligned

/-- A pair with the gap that follows it. -/
def block (aligned : Bool) (p : Pair) : Key :=
  encodePair p ++ List.replicate (stride aligned p - p.bytes) 0

/-- The data file of some pairs. -/
def blocks (aligned : Bool) (pairs : List Pair) : Key := pairs.flatMap (block aligned)

/-- The index of some pairs, the first of which starts at an offset. -/
def offsets (aligned : Bool) : ℕ → List Pair → Key
  | _, [] => []
  | start, p :: pairs => storeBE 8 start ++ offsets aligned ((start + stride aligned p) % 2 ^ 64) pairs

theorem encodePair_length (p : Pair) : (encodePair p).length = p.bytes := by
  unfold encodePair Pair.bytes sizeofPair
  simp only [List.length_append, storeBE_length, List.length_singleton]
  omega

theorem bytes_lt (p : Pair) : p.bytes + 7 < 2 ^ 64 := by
  have hk : p.key.length ≤ 1023 := p.keyValid.2
  have hv : p.val.length ≤ 0xFFFFFFF := p.valValid
  unfold Pair.bytes sizeofPair
  omega

theorem bytes_le_stride (aligned : Bool) (p : Pair) : p.bytes ≤ stride aligned p :=
  le_alignedSize (bytes_lt p) aligned

theorem stride_false (p : Pair) : stride false p = p.bytes := rfl

theorem stride_true (p : Pair) : stride true p = (p.bytes + 7) / 8 * 8 :=
  alignCalc_ALIGN (bytes_lt p)

theorem block_length (aligned : Bool) (p : Pair) : (block aligned p).length = stride aligned p := by
  have hle := bytes_le_stride aligned p
  unfold block
  rw [List.length_append, List.length_replicate, encodePair_length]
  omega

theorem block_append (aligned : Bool) (p : Pair) (rest : Key) :
    block aligned p ++ rest =
      encodePair p ++ (List.replicate (stride aligned p - p.bytes) 0 ++ rest) :=
  List.append_assoc _ _ _

theorem blocks_cons (aligned : Bool) (p : Pair) (pairs : List Pair) :
    blocks aligned (p :: pairs) = block aligned p ++ blocks aligned pairs := rfl

/-! ## What the builder wrote -/

/-- Octets that are put one by one. -/
theorem foldl_put (data : Key) {w : FileWriterFD} (hw : w.WellFormed) :
    (data.foldl put w).content = w.content ++ data ∧ (data.foldl put w).WellFormed := by
  induction data generalizing w with
  | nil => exact ⟨(List.append_nil _).symm, hw⟩
  | cons c data ih =>
    obtain ⟨hc, hwf⟩ := write_spec hw [c]
    obtain ⟨hih, hfin⟩ := ih (w := w.put c) hwf
    rw [List.foldl_cons]
    refine ⟨?_, hfin⟩
    rw [hih, put, hc, List.append_assoc, List.singleton_append]

/-- One pair adds its block to the data file. -/
theorem fwrite_spec {w : FileWriterFD} (hw : w.WellFormed) (p : Pair) (options : WriteOptions) :
    (fwrite w p options).content = w.content ++ block (isAligned options) p ∧
      (fwrite w p options).WellFormed := by
  obtain ⟨hc, hwf⟩ := write_spec hw (encodePair p)
  unfold fwrite block
  cases options with
  | NONE =>
    have hz : stride (isAligned .NONE) p - p.bytes = 0 := Nat.sub_self _
    rw [if_neg (by decide), hz, List.replicate_zero, List.append_nil]
    exact ⟨hc, hwf⟩
  | ALIGNED =>
    obtain ⟨hput, hfin⟩ :=
      foldl_put (List.replicate (alignCalc p.bytes ALIGN - p.bytes) 0) hwf
    rw [if_pos rfl, fwriteGap]
    refine ⟨?_, hfin⟩
    rw [hput, hc, List.append_assoc]
    rfl

theorem foldl_data (pairs : List Pair) {b : FileDataBuilder} (hw : b.fileData.WellFormed) :
    (pairs.foldl FileDataBuilder.push b).fileData.content =
      b.fileData.content ++ blocks (isAligned b.fileWriteOptions) pairs := by
  induction pairs generalizing b with
  | nil => exact (List.append_nil _).symm
  | cons p pairs ih =>
    obtain ⟨hc, hwf⟩ := fwrite_spec hw p b.fileWriteOptions
    rw [List.foldl_cons, ih (b := b.push p) hwf, blocks_cons, ← List.append_assoc]
    exact congrArg (· ++ _) hc

theorem foldl_indx (pairs : List Pair) {b : FileIndxBuilder} (hw : b.fileIndx.WellFormed) :
    (pairs.foldl FileIndxBuilder.push b).fileIndx.content =
      b.fileIndx.content ++ offsets (isAligned b.fileWriteOptions) b.index pairs := by
  induction pairs generalizing b with
  | nil => exact (List.append_nil _).symm
  | cons p pairs ih =>
    obtain ⟨hc, hwf⟩ := write_spec hw (storeBE 8 b.index)
    have hindex : (b.push p).index =
        (b.index + stride (isAligned b.fileWriteOptions) p) % 2 ^ 64 := by
      unfold FileIndxBuilder.push
      cases b.fileWriteOptions <;> rfl
    have hopt : (b.push p).fileWriteOptions = b.fileWriteOptions := rfl
    rw [List.foldl_cons, ih (b := b.push p) hwf, offsets, ← List.append_assoc, hindex, hopt]
    exact congrArg (· ++ _) hc

/-- The data file is the row of blocks, whatever the buffers. -/
theorem data_build (conf : BuildConf) (options : WriteOptions) (pairs : List Pair) :
    (build conf options pairs).data = blocks (isAligned options) pairs := by
  have h := foldl_data pairs (b := ⟨FileWriterFD.create conf.dataBuffer, options⟩)
    (wellFormed_create _)
  exact (close_eq_content _).trans h

/-- The index file is the row of offsets. -/
theorem indx_build (conf : BuildConf) (options : WriteOptions) (pairs : List Pair) :
    (build conf options pairs).indx = offsets (isAligned options) 0 pairs := by
  have h := foldl_indx pairs (b := ⟨FileWriterFD.create conf.indxBuffer, options, 0⟩)
    (wellFormed_create _)
  exact (close_eq_content _).trans h

theorem offsets_length (aligned : Bool) (pairs : List Pair) (start : ℕ) :
    (offsets aligned start pairs).length = 8 * pairs.length := by
  induction pairs generalizing start with
  | nil => rfl
  | cons p pairs ih =>
    rw [offsets, List.length_append, ih, storeBE_length, List.length_cons]
    omega

theorem length_le_blocks (aligned : Bool) (pairs : List Pair) :
    8 * pairs.length ≤ (blocks aligned pairs).length := by
  induction pairs with
  | nil => exact Nat.zero_le _
  | cons p pairs ih =>
    have hs := bytes_le_stride aligned p
    have hp : sizeofPair ≤ p.bytes := by
      unfold Pair.bytes
      omega
    have hpos : 8 ≤ sizeofPair := by decide
    rw [blocks_cons, List.length_append, block_length, List.length_cons]
    omega

/-! ## Reading one pair -/

/-- A field in the middle of a string. -/
theorem take_drop_mid {s a b c : Key} {i n : ℕ} (h : s = a ++ (b ++ c)) (hi : a.length = i)
    (hn : b.length = n) : (s.drop i).take n = b := by
  rw [h, List.drop_left' hi, List.take_left' hn]

theorem and_of_le {n k : ℕ} (hk : n < 2 ^ k) : n &&& (2 ^ k - 1) = n := by
  rw [Nat.and_two_pow_sub_one_eq_mod, Nat.mod_eq_of_lt hk]

/-- The pair that starts behind some octets is read as it was written. -/
theorem read_encodePair {data pre post : Key} {p : Pair} {off : ℕ}
    (h : data = pre ++ (encodePair p ++ post)) (hoff : pre.length = off) :
    recordAt data off = Record.ofPair p ∧ bytesAt data off = p.bytes := by
  have hk : p.key.length ≤ 1023 := p.keyValid.2
  have hv : p.val.length ≤ 0xFFFFFFF := p.valValid
  have hcreated : (data.drop off).take 8 = storeBE 8 p.created := by
    refine take_drop_mid (a := pre) (c := (encodePair p).drop 8 ++ post) ?_ hoff (storeBE_length _ _)
    rw [h, encodePair]
    simp only [List.append_assoc, List.drop_left' (storeBE_length 8 p.created)]
  have hexpires : (data.drop (off + 8)).take 4 = storeBE 4 p.expires := by
    refine take_drop_mid (a := pre ++ storeBE 8 p.created)
      (c := storeBE 4 p.val.length ++ storeBE 2 p.key.length ++ p.key ++ [0] ++ p.val ++ [0] ++ post)
      ?_ ?_ (storeBE_length _ _)
    · rw [h, encodePair]
      simp only [List.append_assoc]
    · rw [List.length_append, storeBE_length, hoff]
  have hvallen : (data.drop (off + 12)).take 4 = storeBE 4 p.val.length := by
    refine take_drop_mid (a := pre ++ storeBE 8 p.created ++ storeBE 4 p.expires)
      (c := storeBE 2 p.key.length ++ p.key ++ [0] ++ p.val ++ [0] ++ post)
      ?_ ?_ (storeBE_length _ _)
    · rw [h, encodePair]
      simp only [List.append_assoc]
    · rw [List.length_append, List.length_append, storeBE_length, storeBE_length, hoff]
  have hkeylen : (data.drop (off + 16)).take 2 = storeBE 2 p.key.length := by
    refine take_drop_mid
      (a := pre ++ storeBE 8 p.created ++ storeBE 4 p.expires ++ storeBE 4 p.val.length)
      (c := p.key ++ [0] ++ p.val ++ [0] ++ post) ?_ ?_ (storeBE_length _ _)
    · rw [h, encodePair]
      simp only [List.append_assoc]
    · rw [List.length_append, List.length_append, List.length_append, storeBE_length,
        storeBE_length, storeBE_length, hoff]
  have hkl : keyLenAt data off = p.key.length := by
    rw [keyLenAt, hkeylen, loadBE_storeBE (by omega)]
    exact and_of_le (k := 10) (by omega)
  have hvl : valLenAt data off = p.val.length := by
    rw [valLenAt, hvallen, loadBE_storeBE (by omega)]
    exact and_of_le (k := 28) (by omega)
  have hkey : (data.drop (off + 18)).take p.key.length = p.key := by
    refine take_drop_mid
      (a := pre ++ storeBE 8 p.created ++ storeBE 4 p.expires ++ storeBE 4 p.val.length ++
        storeBE 2 p.key.length)
      (c := [0] ++ p.val ++ [0] ++ post) ?_ ?_ rfl
    · rw [h, encodePair]
      simp only [List.append_assoc]
    · simp only [List.length_append, storeBE_length, hoff]
  have hval : (data.drop (off + 18 + p.key.length + 1)).take p.val.length = p.val := by
    refine take_drop_mid
      (a := pre ++ storeBE 8 p.created ++ storeBE 4 p.expires ++ storeBE 4 p.val.length ++
        storeBE 2 p.key.length ++ p.key ++ [0])
      (c := [0] ++ post) ?_ ?_ rfl
    · rw [h, encodePair]
      simp only [List.append_assoc]
    · simp only [List.length_append, storeBE_length, hoff, List.length_singleton]
  constructor
  · have hc64 : p.created < 256 ^ 8 := p.created_lt
    have he32 : p.expires < 256 ^ 4 := p.expires_lt
    unfold recordAt Record.ofPair
    rw [hkl, hvl, hkey, hval, hexpires, hcreated, loadBE_storeBE hc64, loadBE_storeBE he32]
  · rw [bytesAt, hkl, hvl, Pair.bytes]

/-! ## Reading forward -/

/-- The reader meets the pairs if it steps from each but the last to the next, and
never short of the end of a block. -/
theorem walk_blocks {data pre : Key} {w r : Bool} {p : Pair} {pairs : List Pair} {off : ℕ}
    (h : data = pre ++ blocks w (p :: pairs)) (hoff : pre.length = off)
    (hle : ∀ q : Pair, stride w q ≤ stride r q)
    (heq : ∀ q ∈ (p :: pairs).dropLast, stride r q = stride w q) :
    walk data r off = (p :: pairs).map Record.ofPair := by
  induction pairs generalizing p pre off with
  | nil =>
    have hd : data = pre ++ (encodePair p ++ List.replicate (stride w p - p.bytes) 0) := by
      rw [h, blocks_cons]
      exact congrArg (pre ++ ·) (List.append_nil _)
    obtain ⟨hrec, hbytes⟩ := read_encodePair hd hoff
    have hlen : data.length = off + stride w p := by
      rw [h, List.length_append, blocks_cons, List.length_append, block_length, hoff]
      rfl
    have hnone : fdGetNext data off r = none := by
      cases hn : fdGetNext data off r with
      | none => rfl
      | some next =>
        obtain ⟨hnext, hfit⟩ := fdGetNext_eq_some.mp hn
        have hgt := (fdGetNext_gt hn).2
        have hpw := hle p
        rw [hbytes] at hnext
        change next = off + stride r p at hnext
        omega
    rw [walk, hrec]
    split
    · rfl
    · next next hsome =>
      rw [hnone] at hsome
      exact absurd hsome (Option.some_ne_none next).symm
  | cons q pairs ih =>
    have hd : data = pre ++ (encodePair p ++
        (List.replicate (stride w p - p.bytes) 0 ++ blocks w (q :: pairs))) := by
      rw [h, blocks_cons, block, List.append_assoc]
    obtain ⟨hrec, hbytes⟩ := read_encodePair hd hoff
    have hd' : data = (pre ++ block w p) ++ blocks w (q :: pairs) := by
      rw [h, blocks_cons, List.append_assoc]
    have hoff' : (pre ++ block w p).length = off + stride w p := by
      rw [List.length_append, block_length, hoff]
    have hstep : stride r p = stride w p :=
      heq p (by rw [List.dropLast_cons_of_ne_nil (List.cons_ne_nil q pairs)]
                exact List.mem_cons_self)
    have hdq : data = (pre ++ block w p) ++ (encodePair q ++
        (List.replicate (stride w q - q.bytes) 0 ++ blocks w pairs)) := by
      rw [hd', blocks_cons, block_append]
    obtain ⟨_, hbytesq⟩ := read_encodePair hdq hoff'
    have hnext : fdGetNext data off r = some (off + stride w p) := by
      refine fdGetNext_eq_some.mpr ⟨?_, ?_⟩
      · rw [hbytes, ← hstep]
        rfl
      · rw [hbytesq, hdq, List.length_append, hoff', List.length_append, encodePair_length]
        omega
    have hih := ih hd' hoff' fun q' hq' => heq q' (by
      rw [List.dropLast_cons_of_ne_nil (List.cons_ne_nil q pairs)]
      exact List.mem_cons_of_mem p hq')
    rw [walk, hrec, List.map_cons, ← hih]
    congr 1
    split
    · next hn =>
      rw [hnext] at hn
      exact absurd hn (Option.some_ne_none _)
    · next next hsome =>
      rw [hnext] at hsome
      rw [Option.some_inj.mp hsome]

/-- The octets from the start of the first pair to the end of the last, for a reader
that takes its own steps. -/
def reach (aligned : Bool) : Pair → List Pair → ℕ
  | p, [] => p.bytes
  | p, q :: pairs => stride aligned p + reach aligned q pairs

/-- A walk that meets the pairs stays within the data. -/
theorem reach_le_of_walk {data : Key} {r : Bool} {p : Pair} {pairs : List Pair} {off : ℕ}
    (hfit : off + bytesAt data off ≤ data.length)
    (h : walk data r off = (p :: pairs).map Record.ofPair) :
    off + reach r p pairs ≤ data.length := by
  rw [walk, List.map_cons] at h
  obtain ⟨hrec, htail⟩ := List.cons.inj h
  have hbytes : bytesAt data off = p.bytes := by
    have hkey : (recordAt data off).key.length = p.key.length := by rw [hrec]; rfl
    have hval : (recordAt data off).val.length = p.val.length := by rw [hrec]; rfl
    unfold recordAt at hkey hval
    unfold bytesAt sizeofPair at hfit ⊢
    dsimp only at hkey hval
    rw [List.length_take, List.length_drop] at hkey hval
    unfold Pair.bytes sizeofPair
    omega
  cases pairs with
  | nil =>
    rw [hbytes] at hfit
    exact hfit
  | cons q pairs =>
    split at htail
    · exact absurd htail.symm (List.cons_ne_nil _ _)
    · next next hnext =>
      obtain ⟨hoff, hfit'⟩ := fdGetNext_eq_some.mp hnext
      have hih := reach_le_of_walk hfit' htail
      rw [hoff, hbytes] at hih
      rw [reach]
      change off + stride r p + reach r q pairs ≤ data.length at hih
      omega

theorem blocks_false_length (p : Pair) (pairs : List Pair) :
    (blocks false (p :: pairs)).length = reach false p pairs := by
  induction pairs generalizing p with
  | nil =>
    rw [blocks_cons, List.length_append, block_length]
    rfl
  | cons q pairs ih => rw [blocks_cons, List.length_append, block_length, ih, reach]

theorem reach_false_le (p : Pair) (pairs : List Pair) : reach false p pairs ≤ reach true p pairs := by
  induction pairs generalizing p with
  | nil => exact le_rfl
  | cons q pairs ih =>
    have hp := bytes_le_stride true p
    have hq := ih q
    rw [reach, reach, stride_false]
    omega

/-- A reader that skips gaps keeps up with a table without gaps only if every pair but
the last fills its block. -/
theorem aligned_of_reach {p : Pair} {pairs : List Pair}
    (h : reach true p pairs ≤ reach false p pairs) :
    ∀ q ∈ (p :: pairs).dropLast, q.bytes % 8 = 0 := by
  induction pairs generalizing p with
  | nil => exact fun q hq => absurd hq List.not_mem_nil
  | cons q pairs ih =>
    have hp := bytes_le_stride true p
    have hq := reach_false_le q pairs
    rw [reach, reach, stride_false] at h
    rw [List.dropLast_cons_of_ne_nil (List.cons_ne_nil q pairs)]
    refine List.forall_mem_cons.mpr ⟨?_, ih (by omega)⟩
    rw [stride_true] at h hp
    omega

/-! ## Reading by offset -/

/-- The offset of a pair is the length of the blocks before it. -/
theorem offsets_at {w : Bool} {pre post : List Pair} {p : Pair} {start : ℕ}
    (hfit : start + (blocks w (pre ++ p :: post)).length < 2 ^ 64) :
    loadBE 8 (((offsets w start (pre ++ p :: post)).drop (8 * pre.length)).take 8) =
      start + (blocks w pre).length := by
  induction pre generalizing start with
  | nil =>
    have hs : start < 256 ^ 8 := (Nat.le_add_right _ _).trans_lt hfit
    rw [List.nil_append, offsets]
    change loadBE 8 ((storeBE 8 start ++ _).take 8) = _
    rw [List.take_left' (storeBE_length 8 start), loadBE_storeBE hs]
    rfl
  | cons q pre ih =>
    rw [List.cons_append, blocks_cons, List.length_append, block_length] at hfit
    have hmod : (start + stride w q) % 2 ^ 64 = start + stride w q :=
      Nat.mod_eq_of_lt (by omega)
    have hlen : 8 * (q :: pre).length = 8 + 8 * pre.length := by
      rw [List.length_cons]
      omega
    rw [List.cons_append, offsets, hmod, hlen, ← List.drop_drop,
      List.drop_left' (storeBE_length 8 start), ih (by omega), blocks_cons, List.length_append,
      block_length]
    omega

theorem safeAccessOffset_of_le {blob : Key} {off size : ℕ} (hs : 0 < size)
    (hlen : off + size ≤ blob.length) (hfit : blob.length < 2 ^ 64) :
    safeAccessOffset blob off size = some off := by
  unfold safeAccessOffset
  rw [Nat.mod_eq_of_lt (by omega), if_neg (by omega)]

theorem blocks_append (w : Bool) (pre post : List Pair) :
    blocks w (pre ++ post) = blocks w pre ++ blocks w post := List.flatMap_append

/-- `fdGetAt` finds the pair at an index. -/
theorem fdGetAt_blocks {w : Bool} {pre post : List Pair} {p : Pair}
    (hfit : (blocks w (pre ++ p :: post)).length < 2 ^ 64) :
    (fdGetAt (blocks w (pre ++ p :: post)) (offsets w 0 (pre ++ p :: post)) pre.length).map
      (recordAt (blocks w (pre ++ p :: post))) = some (Record.ofPair p) := by
  have hd : blocks w (pre ++ p :: post) = blocks w pre ++ (encodePair p ++
      (List.replicate (stride w p - p.bytes) 0 ++ blocks w post)) := by
    rw [blocks_append, blocks_cons, block_append]
  obtain ⟨hrec, hbytes⟩ := read_encodePair hd rfl
  have hlen : (blocks w pre).length + p.bytes ≤ (blocks w (pre ++ p :: post)).length := by
    rw [hd, List.length_append, List.length_append, encodePair_length]
    omega
  have hp : sizeofPair ≤ p.bytes := by
    unfold Pair.bytes
    omega
  have hpos : 0 < sizeofPair := by decide
  have hindx : 8 * (pre ++ p :: post).length ≤ (blocks w (pre ++ p :: post)).length :=
    length_le_blocks w _
  have hcons : 0 + 8 ≤ (offsets w 0 (pre ++ p :: post)).length := by
    rw [offsets_length, List.length_append, List.length_cons]
    omega
  have hoff : loadBE 8 (((offsets w 0 (pre ++ p :: post)).drop (8 * pre.length)).take 8) =
      0 + (blocks w pre).length := offsets_at (by omega)
  rw [Nat.zero_add] at hoff
  have hat : fdGetAt (blocks w (pre ++ p :: post)) (offsets w 0 (pre ++ p :: post)) pre.length =
      some (blocks w pre).length := by
    unfold fdGetAt
    rw [safeAccessOffset_of_le (by decide) hcons (by rw [offsets_length]; omega), Option.bind_some,
      hoff, safeAccessOffset_of_le hpos (by omega) hfit]
    refine fdSafeAccess_eq_some.mpr ⟨rfl, ?_⟩
    rw [hbytes]
    exact hlen
  rw [hat, Option.map_some, hrec]

/-! ## The metadata -/

theorem metaOptions_lt (options : WriteOptions) : metaOptions options < 256 ^ 2 := by
  cases options <;> decide

theorem metaOptions_sorted (options : WriteOptions) :
    decide (metaOptions options &&& OPTIONS_SORTED ≠ 0) = true := by
  cases options <;> decide

theorem metaOptions_aligned (options : WriteOptions) :
    decide (metaOptions options &&& OPTIONS_ALIGNED ≠ 0) = isAligned options := by
  cases options <;> decide

/-- The metadata is read as it was written. -/
theorem openMeta_encodeMeta {options now : ℕ} {blob : FileMetaBlob} (ho : options < 256 ^ 2)
    (hs : blob.size < 256 ^ 8) :
    openMeta (encodeMeta options now blob) = ⟨VERSION, options, blob.size⟩ := by
  have hlen : (encodeMeta options now blob).length = sizeofMeta := by
    unfold encodeMeta
    simp only [List.length_append, storeBE_length]
    rfl
  have hlogo : LOGO.length = 8 := rfl
  have htake : (encodeMeta options now blob).take sizeofMeta = encodeMeta options now blob :=
    List.take_of_length_le hlen.le
  have hversion : ((encodeMeta options now blob).drop 8).take 2 = storeBE 2 VERSION := by
    refine take_drop_mid (a := LOGO)
      (c := storeBE 2 options ++ storeBE 4 now ++ storeBE 8 blob.size ++
        storeBE 8 blob.tombstones ++ storeBE 8 blob.createdMin ++ storeBE 8 blob.createdMax)
      ?_ hlogo (storeBE_length _ _)
    unfold encodeMeta
    simp only [List.append_assoc]
  have hoptions : ((encodeMeta options now blob).drop 10).take 2 = storeBE 2 options := by
    refine take_drop_mid (a := LOGO ++ storeBE 2 VERSION)
      (c := storeBE 4 now ++ storeBE 8 blob.size ++
        storeBE 8 blob.tombstones ++ storeBE 8 blob.createdMin ++ storeBE 8 blob.createdMax)
      ?_ ?_ (storeBE_length _ _)
    · unfold encodeMeta
      simp only [List.append_assoc]
    · rw [List.length_append, storeBE_length, hlogo]
  have hsize : ((encodeMeta options now blob).drop 16).take 8 = storeBE 8 blob.size := by
    refine take_drop_mid (a := LOGO ++ storeBE 2 VERSION ++ storeBE 2 options ++ storeBE 4 now)
      (c := storeBE 8 blob.tombstones ++ storeBE 8 blob.createdMin ++ storeBE 8 blob.createdMax)
      ?_ ?_ (storeBE_length _ _)
    · unfold encodeMeta
      simp only [List.append_assoc]
    · simp only [List.length_append, storeBE_length, hlogo]
  have hseven : (encodeMeta options now blob).take 7 = LOGO.take 7 := by
    unfold encodeMeta
    simp only [List.append_assoc]
    exact List.take_append_of_le_length (by decide)
  have hv : VERSION < 256 ^ 2 := by decide
  unfold openMeta
  dsimp only
  rw [htake, hlen, if_neg (lt_irrefl _), if_neg (not_not_intro hseven), hversion,
    loadBE_storeBE hv, if_neg (not_not_intro rfl), hoptions, hsize, loadBE_storeBE ho,
    loadBE_storeBE hs]

/-- The metadata of a table with pairs passes the check and tells about the gaps. -/
theorem metadata_build (conf : BuildConf) (options : WriteOptions) {pairs : List Pair}
    (hne : pairs ≠ []) (hlen : pairs.length < 2 ^ 64) :
    ∃ m, openMeta (build conf options pairs).metaFile = m ∧ checkMetadata m = true ∧
      m.size = pairs.length ∧ m.aligned = isAligned options := by
  have hsize : (fileMeta pairs).size < 256 ^ 8 := by
    rw [fileMeta_size]
    exact hlen
  have hfile : (build conf options pairs).metaFile =
      encodeMeta (metaOptions options) conf.now.toNat (fileMeta pairs) := by
    exact (close_eq_content _).trans (write_spec (wellFormed_create none) _).1
  have hpos : pairs.length ≠ 0 := fun h => hne (List.length_eq_zero_iff.mp h)
  refine ⟨_, rfl, ?_⟩
  rw [hfile, openMeta_encodeMeta (metaOptions_lt options) hsize, fileMeta_size]
  refine ⟨?_, rfl, metaOptions_aligned options⟩
  unfold checkMetadata Meta.sorted
  dsimp only
  rw [decide_eq_true hpos, Bool.and_true, metaOptions_sorted options, Bool.and_true]
  exact decide_eq_true (by decide)

/-! ## Round trip -/

/-- The table opens and gives the pairs back: forward, and by index unless only
reading forward was asked for. -/
def RoundTrip (conf : BuildConf) (options : WriteOptions) (mode : OpenMode) (pairs : List Pair) :
    Prop :=
  ∃ list, openList DiskList.closed mode (build conf options pairs) = some list ∧
    list.iterate = pairs.map Record.ofPair ∧
    (mode ≠ .FORWARD → list.size = pairs.length ∧
      ∀ (index : ℕ) (h : index < pairs.length), list.at index = some (Record.ofPair pairs[index]))

/-- Iteration from the first pair. -/
theorem iterate_blocks {list : DiskList} {w : Bool} {p : Pair} {pairs : List Pair}
    (hdata : list.mData = blocks w (p :: pairs)) (hfit : list.mData.length < 2 ^ 64) :
    list.iterate = walk list.mData list.aligned 0 ∧
      0 + bytesAt list.mData 0 ≤ list.mData.length := by
  have hd : list.mData = [] ++ (encodePair p ++
      (List.replicate (stride w p - p.bytes) 0 ++ blocks w pairs)) := by
    rw [hdata, blocks_cons, block_append, List.nil_append]
  have hnil : ([] : Key).length = 0 := List.length_nil
  obtain ⟨_, hbytes⟩ := read_encodePair hd hnil
  have hlen : p.bytes ≤ list.mData.length := by
    rw [hd, List.nil_append, List.length_append, encodePair_length]
    omega
  have hp : sizeofPair ≤ p.bytes := by
    unfold Pair.bytes
    omega
  have hpos : 0 < sizeofPair := by decide
  have hfirst : fdGetFirst list.mData = some 0 := by
    unfold fdGetFirst
    rw [safeAccessOffset_of_le hpos (by omega) hfit]
    refine fdSafeAccess_eq_some.mpr ⟨rfl, ?_⟩
    rw [hbytes]
    omega
  refine ⟨?_, ?_⟩
  · unfold DiskList.iterate
    rw [hfirst]
  · rw [hbytes]
    omega

/-- Reading by offset gives every pair back. -/
theorem at_blocks {list : DiskList} {w : Bool} {pairs : List Pair}
    (hdata : list.mData = blocks w pairs) (hindx : list.mIndx = offsets w 0 pairs)
    (hfit : (blocks w pairs).length < 2 ^ 64) (index : ℕ) (h : index < pairs.length) :
    list.at index = some (Record.ofPair pairs[index]) := by
  have hsplit : pairs.take index ++ pairs[index] :: pairs.drop (index + 1) = pairs := by
    rw [List.getElem_cons_drop, List.take_append_drop]
  have hlen : (pairs.take index).length = index := by
    rw [List.length_take]
    omega
  have hfit' : (blocks w (pairs.take index ++ pairs[index] :: pairs.drop (index + 1))).length <
      2 ^ 64 := by
    rw [hsplit]
    exact hfit
  have hat := fdGetAt_blocks hfit'
  rw [hsplit, hlen] at hat
  rw [DiskList.at, hdata, hindx]
  exact hat

/-- The lists that the three modes open. -/
theorem openList_build (conf : BuildConf) (options : WriteOptions) (mode : OpenMode)
    {pairs : List Pair} (hne : pairs ≠ [])
    (hfit : (build conf options pairs).data.length < 2 ^ 64) :
    ∃ list, openList DiskList.closed mode (build conf options pairs) = some list ∧
      list.mData = blocks (isAligned options) pairs ∧ list.size = pairs.length ∧
      (mode = .FORWARD → list.aligned = true) ∧
      (mode ≠ .FORWARD → list.aligned = isAligned options ∧
        list.mIndx = offsets (isAligned options) 0 pairs) := by
  rw [data_build] at hfit
  have hcount := length_le_blocks (isAligned options) pairs
  obtain ⟨m, hm, hcheck, hsize, haligned⟩ := metadata_build conf options hne (by omega)
  have hindx := indx_build conf options pairs
  have hdata := data_build conf options pairs
  have hn : (build conf options pairs).indx.length / 8 = m.size := by
    rw [hindx, offsets_length, hsize]
    exact Nat.mul_div_cancel_left _ (by decide)
  have hminimal : openMinimal DiskList.closed (build conf options pairs) =
      some ⟨blocks (isAligned options) pairs, offsets (isAligned options) 0 pairs, m, m.aligned⟩ := by
    unfold openMinimal
    dsimp only
    rw [hm, if_neg (not_not_intro hcheck), if_neg (not_not_intro hn), hindx, hdata]
  have hforward : openForward DiskList.closed (build conf options pairs) =
      some ⟨blocks (isAligned options) pairs, [], m, true⟩ := by
    unfold openForward
    dsimp only
    rw [hm, if_neg (not_not_intro hcheck), hdata]
    rfl
  cases mode with
  | NORMAL => exact ⟨_, hminimal, rfl, hsize, (fun h => nomatch h), fun _ => ⟨haligned, rfl⟩⟩
  | MINIMAL => exact ⟨_, hminimal, rfl, hsize, (fun h => nomatch h), fun _ => ⟨haligned, rfl⟩⟩
  | FORWARD => exact ⟨_, hforward, rfl, hsize, fun _ => rfl, fun h => absurd rfl h⟩

/-- A list gives the pairs back in order exactly if it steps over the gaps that are
there. -/
theorem iterate_iff {list : DiskList} {w : Bool} {pairs : List Pair} (hne : pairs ≠ [])
    (hdata : list.mData = blocks w pairs) (hfit : list.mData.length < 2 ^ 64)
    (hr : w = true → list.aligned = true) :
    list.iterate = pairs.map Record.ofPair ↔
      (list.aligned = true → w = false → ∀ p ∈ pairs.dropLast, p.bytes % 8 = 0) := by
  obtain ⟨p, pairs, rfl⟩ := List.exists_cons_of_ne_nil hne
  obtain ⟨hwalk, hfirst⟩ := iterate_blocks hdata hfit
  rw [hwalk]
  constructor
  · intro h hal hw
    have hreach := reach_le_of_walk hfirst h
    rw [hal, hdata, hw, blocks_false_length, Nat.zero_add] at hreach
    exact aligned_of_reach hreach
  · intro h
    refine walk_blocks (hdata.trans (List.nil_append _).symm) List.length_nil ?_ ?_
    · intro q
      cases hw : w with
      | false => exact bytes_le_stride list.aligned q
      | true => rw [hr hw]
    · intro q hq
      cases hw : w with
      | true => rw [hr hw]
      | false =>
        cases hal : list.aligned with
        | false => rfl
        | true =>
          have hmod := h hal hw q hq
          rw [stride_true, stride_false]
          omega

/-- A table is read back in every mode, unless it was written without gaps and is
opened for reading forward only: then every pair but the last has to end where the
next one may start. -/
theorem roundTrip_iff (conf : BuildConf) (options : WriteOptions) (mode : OpenMode)
    (pairs : List Pair) (hne : pairs ≠ [])
    (hfit : (build conf options pairs).data.length < 2 ^ 64) :
    RoundTrip conf options mode pairs ↔
      (mode = .FORWARD → options = .NONE → ∀ p ∈ pairs.dropLast, p.bytes % 8 = 0) := by
  obtain ⟨list, hopen, hdata, hsize, hforward, hindexed⟩ := openList_build conf options mode hne hfit
  have hfit' : list.mData.length < 2 ^ 64 := by
    rw [hdata, ← data_build conf]
    exact hfit
  have hal : isAligned options = true → list.aligned = true := by
    intro hw
    by_cases hmode : mode = .FORWARD
    · exact hforward hmode
    · rw [(hindexed hmode).1, hw]
  have hiter := iterate_iff hne hdata hfit' hal
  constructor
  · rintro ⟨list', hopen', hit, _⟩ hmode hopt
    rw [hopen, Option.some_inj] at hopen'
    subst hopen'
    exact hiter.mp hit (hforward hmode) (by rw [hopt]; rfl)
  · intro h
    refine ⟨list, hopen, hiter.mpr ?_, ?_⟩
    · intro ha hw
      have hopt : options = .NONE := by
        cases options with
        | NONE => rfl
        | ALIGNED => exact absurd hw (by decide)
      refine h ?_ hopt
      by_contra hmode
      rw [(hindexed hmode).1, hw] at ha
      exact absurd ha (by decide)
    · intro hmode
      obtain ⟨_, hindx⟩ := hindexed hmode
      refine ⟨hsize, at_blocks hdata hindx ?_⟩
      rw [← hdata]
      exact hfit'

/-- Two pairs of 21 octets without a gap, read forward and by index. -/
theorem roundTrip_iff_two :
    [letter 97 1, letter 98 2] ≠ [] ∧
      (RoundTrip ⟨some 16, none, 7⟩ .NONE .NORMAL [letter 97 1, letter 98 2] ↔
        (OpenMode.NORMAL = .FORWARD → WriteOptions.NONE = .NONE →
          ∀ p ∈ [letter 97 1, letter 98 2].dropLast, p.bytes % 8 = 0)) :=
  ⟨List.cons_ne_nil _ _, roundTrip_iff ⟨some 16, none, 7⟩ .NONE .NORMAL [letter 97 1, letter 98 2]
    (List.cons_ne_nil _ _) (by decide +kernel)⟩

/-- The second pair of such a table is not found by reading forward. -/
theorem not_roundTrip_two :
    [letter 97 1, letter 98 2].Pairwise (fun p q => MyString.compare p.key q.key = .lt) ∧
      ¬RoundTrip ⟨some 16, none, 7⟩ .NONE .FORWARD [letter 97 1, letter 98 2] := by
  have hread : ((openList DiskList.closed .FORWARD
      (build ⟨some 16, none, 7⟩ .NONE [letter 97 1, letter 98 2])).map DiskList.iterate) ≠
      some ([letter 97 1, letter 98 2].map Record.ofPair) := by decide +kernel
  refine ⟨by decide +kernel, ?_⟩
  rintro ⟨list, hopen, hiter, _⟩
  rw [hopen, Option.map_some, hiter] at hread
  exact hread rfl

end HM4.TableRoundTrip
