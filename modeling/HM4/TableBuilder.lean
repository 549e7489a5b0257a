import HM4.Compaction
import HM4.FileWriterCalls
import HM4.HashIndex
import HM4.HotLine
import HM4.TableRoundTrip

/-!
# Building the files of a table

The builder has a member for each file and closes nothing by hand. Its members are
made in their order, each pair is given to all of them, and they are destroyed in
the opposite order: the hash index, the data, the line and the index are written to
their end, and only then the metadata is written and gets its final name.
-/

namespace HM4.TableBuilder

open Bytes Pairs FileMeta FileCalls FileWriterCalls HashIndex Compaction
open TableFile (WriteOptions encodePair alignCalc ALIGN encodeMeta metaOptions)

/-- The system calls of a step. -/
abbrev Calls := List SysCall

/-- Pairs given to a builder one after another. -/
def feed {B : Type} (push : B → Pair → B × Calls) (b : B) : List Pair → B × Calls
  | [] => (b, [])
  | p :: rest =>
    let r := push b p
    let r' := feed push r.1 rest
    (r'.1, r.2 ++ r'.2)

/-! ### The data -/

/-- `my_align::fwriteGap`: zeros, one by one. -/
def fwriteGap (w : Writer) (bytes align : ℕ) : Writer × Calls :=
  w.writeAll ((List.replicate (alignCalc bytes align - bytes) 0).map fun c => [c])

/-- `Pair::fwrite`. -/
def fwrite (w : Writer) (p : Pair) (options : WriteOptions) : Writer × Calls :=
  let r := w.write (encodePair p)
  if options = .ALIGNED then
    let r' := fwriteGap r.1 p.bytes ALIGN
    (r'.1, r.2 ++ r'.2)
  else r

/-- `FileDataBuilder`. -/
structure FileDataBuilder where
  /-- The data file. -/
  fileData : Writer
  /-- Whether gaps are written. -/
  fileWriteOptions : WriteOptions

/-- `FileDataBuilder::operator()`. -/
def FileDataBuilder.push (b : FileDataBuilder) (p : Pair) : FileDataBuilder × Calls :=
  let r := fwrite b.fileData p b.fileWriteOptions
  ({ b with fileData := r.1 }, r.2)

/-! ### The index -/

/-- `writeU64`. -/
def writeU64 (w : Writer) (n : ℕ) : Writer × Calls := w.write (storeBE 8 n)

/-- `FileIndxBuilder`. -/
structure FileIndxBuilder where
  /-- The index file. -/
  fileIndx : Writer
  /-- Whether gaps are counted. -/
  fileWriteOptions : WriteOptions
  /-- The offset of the next pair. -/
  index : ℕ

/-- `FileIndxBuilder::operator()`. -/
def FileIndxBuilder.push (b : FileIndxBuilder) (p : Pair) : FileIndxBuilder × Calls :=
  let r := writeU64 b.fileIndx b.index
  (⟨r.1, b.fileWriteOptions,
    if b.fileWriteOptions = .ALIGNED then (b.index + alignCalc p.bytes ALIGN) % 2 ^ 64
    else (b.index + p.bytes) % 2 ^ 64⟩, r.2)

/-! ### The line -/

/-- `writeStr`: the octets of the prefix as they lie in memory. -/
def writeStr (w : Writer) (hkey : ℕ) : Writer × Calls := w.write (leBytes HPair.N hkey)

/-- `FileLineBuilder`. -/
structure FileLineBuilder where
  /-- The line file. -/
  fileLine : Writer
  /-- The position of the next pair. -/
  pos : ℕ
  /-- The prefix that was stored last. -/
  hkey_ : ℕ

/-- `FileLineBuilder::operator()`. -/
def FileLineBuilder.push (b : FileLineBuilder) (p : Pair) : FileLineBuilder × Calls :=
  let hkey := HotLine.createBigEndian p.key
  if b.hkey_ ≠ hkey then
    let r := writeStr b.fileLine hkey
    let r' := writeU64 r.1 b.pos
    (⟨r'.1, b.pos + 1, hkey⟩, r.2 ++ r'.2)
  else ({ b with pos := b.pos + 1 }, [])

/-! ### The hash index -/

/-- What the hash builder is made from. -/
structure HashConf where
  /-- The hash function. -/
  hash : HashFunction
  /-- The width of the position counter. -/
  w : ℕ
  /-- The cells of the index. -/
  nodesCount : ℕ
  /-- The builder that fits the memory it was given. -/
  impl : HashIndex.Builder
  /-- `bufferWrite`. -/
  buffer : Option ℕ

/-- A node as it lies in the file. -/
def encodeNode (node : HashNode) : Key := storeBE 8 node.hash ++ storeBE 8 node.pos

/-- Nodes as they lie in the file. -/
def encodeNodes (nodes : List HashNode) : Key := nodes.flatMap encodeNode

/-- `HashIndexBuilder` with its `HashIndexStandardBuilder` or
`HashIndexMultiPassBuilder`. -/
structure HashIndexBuilder where
  /-- What it was made from. -/
  conf : HashConf
  /-- The position of the next pair. -/
  pos : ℕ
  /-- The cells, in memory or mapped. -/
  nodes : List HashNode
  /-- The records that the multi-pass builder has collected. -/
  vector : List HashNode
  /-- The multi-pass builder has mapped its file. -/
  mmap : Bool

namespace HashIndexBuilder

/-- The constructor. The multi-pass builder makes its file, full of zeros, and maps it. -/
def create (o : Outcomes FileName) (conf : HashConf) : HashIndexBuilder × Calls :=
  let nodes := emptyNodes conf.nodesCount
  match conf.impl with
  | .standard => (⟨conf, 0, nodes, [], false⟩, [])
  | .multiPass _ _ =>
    (⟨conf, 0, nodes, [], o.opens .hash⟩,
      .create .hash ::
        if o.opens .hash then [.store .hash (encodeNodes nodes), .close .hash] else [])

/-- The record of a pair. -/
def record (b : HashIndexBuilder) (p : Pair) : HashNode := ⟨(b.conf.hash p.key).val, b.pos⟩

/-- `operator()`. -/
def push (b : HashIndexBuilder) (p : Pair) : HashIndexBuilder × Calls :=
  match b.conf.impl with
  | .standard =>
    ({ b with
      pos := (b.pos + 1) % 2 ^ b.conf.w,
      nodes := insertAll b.conf.nodesCount [b.record p] b.nodes }, [])
  | .multiPass capacity order =>
    if b.mmap = false then (b, [])
    else
      let vector := b.vector ++ [b.record p]
      if vector.length = capacity then
        let nodes := flush order b.conf.nodesCount vector b.nodes
        ({ b with pos := (b.pos + 1) % 2 ^ b.conf.w, nodes := nodes, vector := [] },
          [.store .hash (encodeNodes nodes)])
      else ({ b with pos := (b.pos + 1) % 2 ^ b.conf.w, vector := vector }, [])

/-- The destructor. The standard builder opens, writes and closes its file here. -/
def destroy (o : Outcomes FileName) (b : HashIndexBuilder) : Calls :=
  match b.conf.impl with
  | .standard =>
    let file := Writer.create o .hash b.conf.buffer
    let r := file.1.writeAll (b.nodes.map encodeNode)
    file.2 ++ r.2 ++ r.1.close
  | .multiPass _ order =>
    if b.vector = [] then []
    else [.store .hash (encodeNodes (flush order b.conf.nodesCount b.vector b.nodes))]

end HashIndexBuilder

/-- `operator()` of a hash builder that may be missing. -/
def hazhPush (b : Option HashIndexBuilder) (p : Pair) : Option HashIndexBuilder × Calls :=
  match b with
  | none => (none, [])
  | some b => (some (b.push p).1, (b.push p).2)

/-! ### The builder -/

/-- The write buffers, the options, the second at which the metadata is written, and the
hash index, if there is one. -/
structure BuildConf where
  /-- `buffersWrite.data`. -/
  dataBuffer : Option ℕ
  /-- `buffersWrite.indx`. -/
  indxBuffer : Option ℕ
  /-- `buffersWrite.line`. -/
  lineBuffer : Option ℕ
  /-- `fileWriteOptions`. -/
  fileWriteOptions : WriteOptions
  /-- `mytime::now32`. -/
  now : UInt32
  /-- The hash index. -/
  hash : Option HashConf

/-- `FileBuilder`, its members in their order. -/
structure FileBuilder where
  /-- `meta`, which counts. -/
  metadata : FileMetaBuilder
  /-- `indx`. -/
  indx : FileIndxBuilder
  /-- `line`. -/
  line : FileLineBuilder
  /-- `data`. -/
  data : FileDataBuilder
  /-- `hazh`. -/
  hazh : Option HashIndexBuilder

namespace FileBuilder

/-- The constructor: the members are made in their order. -/
def create (o : Outcomes FileName) (conf : BuildConf) : FileBuilder × Calls :=
  let indx := Writer.create o .indx conf.indxBuffer
  let line := Writer.create o .line conf.lineBuffer
  let data := Writer.create o .data conf.dataBuffer
  let hazh := conf.hash.map (HashIndexBuilder.create o)
  (⟨FileMetaBuilder.start, ⟨indx.1, conf.fileWriteOptions, 0⟩, ⟨line.1, 0, 0⟩,
      ⟨data.1, conf.fileWriteOptions⟩, hazh.map Prod.fst⟩,
    indx.2 ++ line.2 ++ data.2 ++ (hazh.map Prod.snd).getD [])

/-- `FileBuilder::push_back`. -/
def pushBack (b : FileBuilder) (p : Pair) : FileBuilder × Calls :=
  let indx := b.indx.push p
  let line := b.line.push p
  let data := b.data.push p
  let hazh := hazhPush b.hazh p
  (⟨b.metadata.push p, indx.1, line.1, data.1, hazh.1⟩, indx.2 ++ line.2 ++ data.2 ++ hazh.2)

end FileBuilder

/-- The writing of the blob under the temporary name in `~FileMetaBuilder`. -/
def writeMetaTemp (o : Outcomes FileName) (conf : BuildConf) (b : FileMetaBuilder) : Calls :=
  let blob : FileMetaBlob := ⟨b.count, b.tombstones, fixMin b.minCreated, fixMax b.maxCreated⟩
  let file := Writer.create o .metaTemp none
  let r := file.1.write (encodeMeta (metaOptions conf.fileWriteOptions) conf.now.toNat blob)
  file.2 ++ r.2 ++ r.1.close

/-- `FileMetaBuilder::~FileMetaBuilder`. -/
def destroyMeta (o : Outcomes FileName) (conf : BuildConf) (b : FileMetaBuilder) : Calls :=
  writeMetaTemp o conf b ++ [.rename .metaTemp .metaFile]

/-- The destructors of the members, in the opposite order. -/
def FileBuilder.destroy (o : Outcomes FileName) (conf : BuildConf) (b : FileBuilder) : Calls :=
  (b.hazh.map (HashIndexBuilder.destroy o)).getD [] ++ b.data.fileData.close ++
    b.line.fileLine.close ++ b.indx.fileIndx.close ++ destroyMeta o conf b.metadata

/-- `FileBuilder::build`: the builder is made, fed and destroyed. -/
def build (o : Outcomes FileName) (conf : BuildConf) (isOK : Pair → Bool)
    (tombstoneOptions : TombstoneOptions) (pairs : List Pair) : Calls :=
  let b := FileBuilder.create o conf
  let r := feed FileBuilder.pushBack b.1 (copy isOK tombstoneOptions pairs)
  b.2 ++ r.2 ++ r.1.destroy o conf

end HM4.TableBuilder
