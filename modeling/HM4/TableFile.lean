import HM4.FileMeta
import HM4.FileWriter
import HM4.DiskTable

/-!
# The files of a table

The builder writes each pair as it lies in memory, followed by a gap if the
table is aligned, and for each pair the offset at which it should be. The
metadata tells whether there are gaps. A table is read back from the offsets, or
forward from pair to pair by adding up sizes. Opening a table for reading forward
only leaves out one flag, and then the reader skips gaps that nobody wrote.
-/

namespace HM4.TableFile

open Bytes Pairs FileMeta FileWriter FileWriterFD

/-- `my_align::calc` on `size_t`. -/
def alignCalc (n align : ℕ) : ℕ := (n + align - 1) % 2 ^ 64 &&& (2 ^ 64 - 1 - (align - 1))

/-- `PairConf::ALIGN`, the size of a pointer. -/
def ALIGN : ℕ := 8

/-- Clearing the low three bits rounds down to a multiple of eight. -/
theorem and_not_seven {m : ℕ} (hm : m < 2 ^ 64) : m &&& (2 ^ 64 - 1 - 7) = m / 8 * 8 := by
  have hc : 2 ^ 64 - 1 - 7 = 2 ^ 64 - (7 + 1) := rfl
  have h8 : (8 : ℕ) = 2 ^ 3 := rfl
  have h7 : (7 : ℕ) = 2 ^ 3 - 1 := rfl
  apply Nat.eq_of_testBit_eq
  intro i
  rw [Nat.testBit_and, hc, Nat.testBit_two_pow_sub_succ (by decide), h8, Nat.testBit_mul_two_pow,
    Nat.testBit_div_two_pow, h7, Nat.testBit_two_pow_sub_one]
  by_cases hi : 3 ≤ i
  · have hi' : ¬i < 3 := Nat.not_lt.mpr hi
    have hsub : i - 3 + 3 = i := Nat.sub_add_cancel hi
    simp only [hi, hi', decide_true, decide_false, Bool.not_false, Bool.and_true, Bool.true_and,
      hsub]
    by_cases h64 : i < 64
    · simp only [h64, decide_true, Bool.and_true]
    · have hz : m.testBit i = false := Nat.testBit_lt_two_pow
        (hm.trans_le (Nat.pow_le_pow_right (by decide) (Nat.not_lt.mp h64)))
      rw [hz, Bool.false_and]
  · have hi' : i < 3 := Nat.not_le.mp hi
    simp only [hi, hi', decide_true, decide_false, Bool.not_true, Bool.and_false, Bool.false_and]

/-- Within its range `my_align::calc` rounds up. -/
theorem alignCalc_ALIGN {n : ℕ} (hn : n + 7 < 2 ^ 64) : alignCalc n ALIGN = (n + 7) / 8 * 8 := by
  have hs : n + ALIGN - 1 = n + 7 := rfl
  have hk : ALIGN - 1 = 7 := rfl
  rw [alignCalc, hs, hk, Nat.mod_eq_of_lt hn, and_not_seven hn]

/-- `Pair::WriteOptions`. -/
inductive WriteOptions where
  | NONE
  | ALIGNED
  deriving DecidableEq

/-- `alignedSize__`: a size with the gap that follows it. -/
def alignedSize (size : ℕ) (aligned : Bool) : ℕ := if ¬aligned then size else alignCalc size ALIGN

/-- The record in memory: fixed fields high octet first, then the key and the
value with a terminator each. -/
def encodePair (p : Pair) : Key :=
  storeBE 8 p.created ++ storeBE 4 p.expires ++ storeBE 4 p.val.length ++
    storeBE 2 p.key.length ++ p.key ++ [0] ++ p.val ++ [0]

/-- `my_align::fwriteGap`: zeros, one by one. -/
def fwriteGap (w : FileWriterFD) (bytes align : ℕ) : FileWriterFD :=
  (List.replicate (alignCalc bytes align - bytes) 0).foldl put w

/-- `Pair::fwrite`. -/
def fwrite (w : FileWriterFD) (p : Pair) (options : WriteOptions) : FileWriterFD :=
  if options = .ALIGNED then fwriteGap (w.write (encodePair p)) p.bytes ALIGN
  else w.write (encodePair p)

/-- `FileDataBuilder`. -/
structure FileDataBuilder where
  /-- The data file. -/
  fileData : FileWriterFD
  /-- Whether gaps are written. -/
  fileWriteOptions : WriteOptions

/-- `FileDataBuilder::operator()`. -/
def FileDataBuilder.push (b : FileDataBuilder) (p : Pair) : FileDataBuilder :=
  { b with fileData := fwrite b.fileData p b.fileWriteOptions }

/-- `FileIndxBuilder`. -/
structure FileIndxBuilder where
  /-- The index file. -/
  fileIndx : FileWriterFD
  /-- Whether gaps are counted. -/
  fileWriteOptions : WriteOptions
  /-- The offset of the next pair. -/
  index : ℕ

/-- `FileIndxBuilder::operator()`: the offset is stored, then moved. -/
def FileIndxBuilder.push (b : FileIndxBuilder) (p : Pair) : FileIndxBuilder where
  fileIndx := b.fileIndx.write (storeBE 8 b.index)
  fileWriteOptions := b.fileWriteOptions
  index :=
    if b.fileWriteOptions = .ALIGNED then (b.index + alignCalc p.bytes ALIGN) % 2 ^ 64
    else (b.index + p.bytes) % 2 ^ 64

/-- `FileMetaBlob::LOGO`, with its terminator. -/
def LOGO : Key := [90, 85, 83, 69, 48, 48, 53, 0]

/-- `FileMetaBlob::VERSION`. -/
def VERSION : ℕ := 6

/-- `FileMetaBlob::OPTIONS_SORTED`. -/
def OPTIONS_SORTED : ℕ := 1

/-- `FileMetaBlob::OPTIONS_ALIGNED`. -/
def OPTIONS_ALIGNED : ℕ := 2

/-- The options that `FileMetaBuilder` writes. -/
def metaOptions (options : WriteOptions) : ℕ :=
  OPTIONS_SORTED ||| (if options = .ALIGNED then OPTIONS_ALIGNED else 0)

/-- The file of `FileMetaBlob::create`, written at the second `now`. -/
def encodeMeta (options now : ℕ) (blob : FileMetaBlob) : Key :=
  LOGO ++ storeBE 2 VERSION ++ storeBE 2 options ++ storeBE 4 now ++ storeBE 8 blob.size ++
    storeBE 8 blob.tombstones ++ storeBE 8 blob.createdMin ++ storeBE 8 blob.createdMax

/-- The files that every mode of opening reads. -/
structure Files where
  /-- The metadata file. -/
  metaFile : Key
  /-- The index file. -/
  indx : Key
  /-- The data file. -/
  data : Key

/-- The write buffers of the builder and the time at which it ends. -/
structure BuildConf where
  /-- The buffer for the data file. -/
  dataBuffer : Option ℕ
  /-- The buffer for the index file. -/
  indxBuffer : Option ℕ
  /-- `mytime::now32`. -/
  now : UInt32

/-- `FileBuilder` with the pairs pushed one after another, and its files after it is gone. -/
def build (conf : BuildConf) (options : WriteOptions) (pairs : List Pair) : Files where
  metaFile := ((FileWriterFD.create none).write
    (encodeMeta (metaOptions options) conf.now.toNat (fileMeta pairs))).close
  indx := (pairs.foldl FileIndxBuilder.push
    ⟨FileWriterFD.create conf.indxBuffer, options, 0⟩).fileIndx.close
  data := (pairs.foldl FileDataBuilder.push
    ⟨FileWriterFD.create conf.dataBuffer, options⟩).fileData.close

/-- `FileMeta` after a file was opened. -/
structure Meta where
  /-- `version()`. -/
  version : ℕ
  /-- The option bits. -/
  options : ℕ
  /-- `size()`. -/
  size : ℕ

/-- `FileMeta::sorted`. -/
def Meta.sorted (m : Meta) : Bool := m.options &&& OPTIONS_SORTED ≠ 0

/-- `FileMeta::aligned`. -/
def Meta.aligned (m : Meta) : Bool := m.options &&& OPTIONS_ALIGNED ≠ 0

/-- The size of `FileMetaBlob`. -/
def sizeofMeta : ℕ := 48

/-- `FileMeta::open`: the version is zero after a failure. -/
def openMeta (file : Key) : Meta :=
  let blob := file.take sizeofMeta
  if blob.length < sizeofMeta then ⟨0, 0, 0⟩
  else if blob.take 7 ≠ LOGO.take 7 then ⟨0, 0, 0⟩
  else if loadBE 2 ((blob.drop 8).take 2) ≠ VERSION then ⟨0, 0, 0⟩
  else ⟨loadBE 2 ((blob.drop 8).take 2), loadBE 2 ((blob.drop 10).take 2),
    loadBE 8 ((blob.drop 16).take 8)⟩

/-- `checkMetadata`. -/
def checkMetadata (m : Meta) : Bool := m.version ≠ 0 && m.sorted && m.size ≠ 0

/-- `DiskList::OpenMode`. -/
inductive OpenMode where
  | NORMAL
  | MINIMAL
  | FORWARD
  deriving DecidableEq

/-- `DiskList` with the files that iteration and indexing use; a file that is not
mapped is empty. -/
structure DiskList where
  /-- `mData_`. -/
  mData : Key
  /-- `mIndx_`. -/
  mIndx : Key
  /-- `metadata_`. -/
  metadata : Meta
  /-- `aligned_`. -/
  aligned : Bool

/-- A list before it is opened. -/
def DiskList.closed : DiskList := ⟨[], [], ⟨0, 0, 0⟩, true⟩

/-- `DiskList::openForward_`. -/
def openForward (list : DiskList) (files : Files) : Option DiskList :=
  let metadata := openMeta files.metaFile
  if ¬checkMetadata metadata then none
  else some { list with mData := files.data, metadata := metadata }

/-- `DiskList::openMinimal_`, with its check of the index. -/
def openMinimal (list : DiskList) (files : Files) : Option DiskList :=
  let metadata := openMeta files.metaFile
  if ¬checkMetadata metadata then none
  else if files.indx.length / 8 ≠ metadata.size then none
  else some { list with
    mData := files.data, mIndx := files.indx, metadata := metadata, aligned := metadata.aligned }

/-- `DiskList::open_`. The files that only `openNormal_` opens serve searches, and it
goes on without them. -/
def openList (list : DiskList) (mode : OpenMode) (files : Files) : Option DiskList :=
  match mode with
  | .NORMAL => openMinimal list files
  | .MINIMAL => openMinimal list files
  | .FORWARD => openForward list files

/-- `BlobGuard::safeAccessMemory` at an offset, whose end is a `size_t`. -/
def safeAccessOffset (blob : Key) (offset size : ℕ) : Option ℕ :=
  if blob.length = 0 ∨ size = 0 ∨ blob.length < (offset + size) % 2 ^ 64 then none
  else some offset

/-- `BlobGuard::safeAccessMemory` at a pointer, given by its distance from the start. -/
def safeAccessPointer (blob : Key) (ptr size : ℕ) : Option ℕ :=
  if blob.length = 0 ∨ size = 0 ∨ blob.length < ptr + size then none else some ptr

/-- `Pair::getKeyLen_` of the pair at an offset. -/
def keyLenAt (data : Key) (off : ℕ) : ℕ := loadBE 2 ((data.drop (off + 16)).take 2) &&& maxKeySize

/-- `Pair::getValLen_` of the pair at an offset. -/
def valLenAt (data : Key) (off : ℕ) : ℕ := loadBE 4 ((data.drop (off + 12)).take 4) &&& maxValSize

/-- `Pair::bytes` of the pair at an offset. -/
def bytesAt (data : Key) (off : ℕ) : ℕ := sizeofPair + keyLenAt data off + valLenAt data off

/-- What a caller sees of a pair. -/
structure Record where
  /-- `getKey()`. -/
  key : Key
  /-- `getVal()`. -/
  val : Key
  /-- `getExpires()`. -/
  expires : ℕ
  /-- `getCreated()`. -/
  created : ℕ
  deriving DecidableEq

/-- The accessors of a pair that was written. -/
def Record.ofPair (p : Pair) : Record := ⟨p.key, p.val, p.expires, p.created⟩

/-- The accessors of the pair at an offset. -/
def recordAt (data : Key) (off : ℕ) : Record where
  key := (data.drop (off + 18)).take (keyLenAt data off)
  val := (data.drop (off + 18 + keyLenAt data off + 1)).take (valLenAt data off)
  expires := loadBE 4 ((data.drop (off + 8)).take 4)
  created := loadBE 8 ((data.drop off).take 8)

/-- `fdSafeAccess<false>`. -/
def fdSafeAccess (data : Key) (blob : Option ℕ) : Option ℕ :=
  blob.bind fun off => safeAccessPointer data off (bytesAt data off)

/-- `fdGetFirst`. -/
def fdGetFirst (data : Key) : Option ℕ :=
  fdSafeAccess data (safeAccessOffset data 0 sizeofPair)

/-- `fdGetNext`. -/
def fdGetNext (data : Key) (current : ℕ) (aligned : Bool) : Option ℕ :=
  fdSafeAccess data
    (safeAccessPointer data (current + alignedSize (bytesAt data current) aligned) sizeofPair)

/-- `fdGetAt`: nothing without an index. -/
def fdGetAt (data indx : Key) (index : ℕ) : Option ℕ :=
  (safeAccessOffset indx 0 8).bind fun _ =>
    fdSafeAccess data (safeAccessOffset data (loadBE 8 ((indx.drop (8 * index)).take 8)) sizeofPair)

theorem bytesAt_bounds (data : Key) (off : ℕ) :
    sizeofPair ≤ bytesAt data off ∧ bytesAt data off + 7 < 2 ^ 64 := by
  have hk : keyLenAt data off ≤ 1023 := Nat.and_le_right
  have hv : valLenAt data off ≤ 0xFFFFFFF := Nat.and_le_right
  unfold bytesAt sizeofPair
  omega

/-- A gap makes no record smaller. -/
theorem le_alignedSize {size : ℕ} (hs : size + 7 < 2 ^ 64) (aligned : Bool) :
    size ≤ alignedSize size aligned := by
  unfold alignedSize
  split
  · exact le_rfl
  · rw [alignCalc_ALIGN hs]
    omega

theorem safeAccessPointer_eq_some {blob : Key} {ptr size off : ℕ} :
    safeAccessPointer blob ptr size = some off ↔
      off = ptr ∧ 0 < size ∧ 0 < blob.length ∧ ptr + size ≤ blob.length := by
  unfold safeAccessPointer
  split
  · refine iff_of_false (Option.some_ne_none _).symm ?_
    omega
  · rw [Option.some_inj]
    omega

/-- A pair that is reached lies within the data with all its octets. -/
theorem fdSafeAccess_eq_some {data : Key} {blob : Option ℕ} {off : ℕ} :
    fdSafeAccess data blob = some off ↔ blob = some off ∧ off + bytesAt data off ≤ data.length := by
  unfold fdSafeAccess
  rw [Option.bind_eq_some_iff]
  constructor
  · rintro ⟨ptr, hblob, hsafe⟩
    obtain ⟨rfl, _, _, hle⟩ := safeAccessPointer_eq_some.mp hsafe
    exact ⟨hblob, hle⟩
  · rintro ⟨hblob, hle⟩
    have hpos : 0 < bytesAt data off := Nat.lt_of_lt_of_le (by decide) (bytesAt_bounds data off).1
    exact ⟨off, hblob, safeAccessPointer_eq_some.mpr ⟨rfl, hpos, by omega, hle⟩⟩

theorem fdGetNext_eq_some {data : Key} {current off : ℕ} {aligned : Bool} :
    fdGetNext data current aligned = some off ↔
      off = current + alignedSize (bytesAt data current) aligned ∧
        off + bytesAt data off ≤ data.length := by
  unfold fdGetNext
  rw [fdSafeAccess_eq_some, safeAccessPointer_eq_some]
  have hb := bytesAt_bounds data off
  constructor
  · rintro ⟨⟨hoff, _⟩, hle⟩
    exact ⟨hoff, hle⟩
  · rintro ⟨hoff, hle⟩
    have hlen : off + sizeofPair ≤ data.length := by omega
    have hs : 0 < sizeofPair := by decide
    exact ⟨⟨hoff, hs, by omega, hoff ▸ hlen⟩, hle⟩

/-- The next pair is further on, so walking comes to an end. -/
theorem fdGetNext_gt {data : Key} {current off : ℕ} {aligned : Bool}
    (h : fdGetNext data current aligned = some off) : current < off ∧ off < data.length := by
  obtain ⟨hoff, hle⟩ := fdGetNext_eq_some.mp h
  have hc := bytesAt_bounds data current
  have ho := bytesAt_bounds data off
  have hal := le_alignedSize hc.2 aligned
  have hs : 0 < sizeofPair := by decide
  omega

/-- `forward_iterator` from a pair to the end. -/
def walk (data : Key) (aligned : Bool) (current : ℕ) : List Record :=
  recordAt data current ::
    match h : fdGetNext data current aligned with
    | none => []
    | some next =>
      have : data.length - next < data.length - current := by
        have hgt := fdGetNext_gt h
        omega
      walk data aligned next
termination_by data.length - current

/-- The pairs from `begin()` to `end()`. -/
def DiskList.iterate (list : DiskList) : List Record :=
  match fdGetFirst list.mData with
  | none => []
  | some first => walk list.mData list.aligned first

/-- `DiskList::size`. -/
def DiskList.size (list : DiskList) : ℕ := list.metadata.size

/-- `DiskList::operator[]`; nothing stands for reading through a null pointer. -/
def DiskList.at (list : DiskList) (index : ℕ) : Option Record :=
  (fdGetAt list.mData list.mIndx index).map (recordAt list.mData)

end HM4.TableFile
