import HM4.Autocomplete
import HM4.General.Smallest
import HM4.VectorIndex
import Mathlib.Data.Prod.Lex

/-!
# The search for the nearest vectors

`VSIMFLAT` goes over all vectors of a set, page by page. `VSIM` goes over the keys of the bands of
the query, whose texts are cut so that fewer bits are compared, and then over the vectors it found
in this way. Both keep the nearest vectors in a heap.
-/

namespace HM4.VectorSearch

open LexPrefix Bytes Pairs KeyedList Database IndexToken AccumulateResults VectorsStorage Vectors2
open VectorIndex
open Autocomplete (extractNth)
open RSet (makeKeyCtrl sortUnique)
open TopHeap (offer sortHeap lessThan)

/-! ## Distances -/

/-- `DType`. -/
inductive DType
  | EUCLIDEAN
  | MANHATTAN
  | COSINE
  | CANBERRA
  | BIT_HAMMING
  | BIT_COSINE
  | BIT_DOMINATE

/-- `translateDType`. -/
def translateDType (s : Key) : Option DType :=
  match s with
  | [c] =>
    if c = 108 ∨ c = 76 ∨ c = 101 ∨ c = 69 then some .EUCLIDEAN
    else if c = 109 ∨ c = 77 then some .MANHATTAN
    else if c = 99 ∨ c = 67 then some .COSINE
    else if c = 107 ∨ c = 75 then some .CANBERRA
    else if c = 104 ∨ c = 72 then some .BIT_HAMMING
    else if c = 98 ∨ c = 66 then some .BIT_COSINE
    else if c = 100 ∨ c = 68 then some .BIT_DOMINATE
    else none
  | _ => none

/-- `checkDType`. -/
def checkDType (dtype : DType) (T : Element) : Bool :=
  match dtype with
  | .EUCLIDEAN | .MANHATTAN | .COSINE | .CANBERRA => decide (T ≠ .bool)
  | .BIT_HAMMING | .BIT_COSINE | .BIT_DOMINATE => decide (T = .bool)

/-- The distances between stored vectors: what is compared, what is made of it for the answer, and
its text. The second keeps the order. -/
structure Metric (D : Type*) [LinearOrder D] where
  /-- `distancePrepared` and `distanceBit`. -/
  prepared : DType → Element → Key → Key → D
  /-- `distanceFix` and `distanceBitFix`. -/
  fix : DType → Key → D → D
  /-- `formatDouble`. -/
  format : D → Key
  fix_mono : ∀ dtype vectorA, Monotone (fix dtype vectorA)

/-! ## Parameters -/

/-- What both commands read of their parameters. -/
structure SimArgs where
  keyN : Key
  dim_ix : ℕ
  T : Element
  dtype : DType
  keySub : Key

/-- What both commands check first. -/
def readQuery (p : List Key) : Except ErrorMessage SimArgs :=
  let keyN := p.getD 1 []
  if keyN = [] then .error .EMPTY_KEY
  else
    let dim_ix := fromString 32 (p.getD 2 []) 0
    if dim_ix < 1 ∨ MaxDimensions < dim_ix then .error .INVALID_PARAMETERS
    else
      match translateQType (p.getD 3 []), translateDType (p.getD 4 []) with
      | some T, some dtype =>
        if ¬checkDType dtype T = true then .error .INVALID_PARAMETERS
        else .ok ⟨keyN, dim_ix, T, dtype, p.getD 5 []⟩
      | _, _ => .error .INVALID_PARAMETERS

/-- What `VSIMFLAT` reads, with its start key. -/
def readFlat (p : List Key) : Except ErrorMessage (SimArgs × Key) :=
  if p.length ≠ 7 then .error .NEED_EXACT_PARAMS_6
  else
    match readQuery p with
    | .error message => .error message
    | .ok a =>
      if ¬(valid a.keyN ∧ valid a.keySub) then .error .INVALID_KEY_SIZE
      else .ok (a, p.getD 6 [])

/-- What `VSIM` reads, with its numbers of bands and bits. -/
def readSim (p : List Key) : Except ErrorMessage (SimArgs × ℕ × ℕ) :=
  if p.length ≠ 8 then .error .NEED_EXACT_PARAMS_7
  else
    match readQuery p with
    | .error message => .error message
    | .ok a =>
      if a.keySub = [] then .error .EMPTY_KEY
      else if ¬(valid a.keyN ∧ valid a.keySub) then .error .INVALID_KEY_SIZE
      else .ok (a, fixBands (fromString 64 (p.getD 6 []) 0), fixBits (fromString 64 (p.getD 7 []) 0))

/-! ## Keys -/

/-- `makeKeyDataSearchFlat`. -/
def makeKeyDataSearchFlat (keyN : Key) : Key :=
  concatenateBuffer bufferKeySize [keyN, [separator], [separator]]

/-- `makeKeyDataSearchNS`. -/
def makeKeyDataSearchNS (keyN text : Key) : Key :=
  concatenateBuffer bufferKeySize [keyN, [separator], text]

/-- `getData`. -/
def getData (check : Key → UInt64) (keyN keySub : Key) (db : Db) : Key :=
  ((getPairPtr (check (makeKeyCtrl keyN keySub)) (makeKeyCtrl keyN keySub) db).map Pair.val).getD []

/-! ## The commands -/

/-- `results__`. -/
def results : ℕ := 32

/-- `count__`. -/
def count : ℕ := 1000

/-- `ITERATIONS_LOOPS_VSIM`. -/
def ITERATIONS_LOOPS_VSIM : ℕ := MAX_BANDS * count

section Commands

variable {D : Type*} [LinearOrder D]

/-- `VSIMHeapNode`, which is compared as a pair. -/
abbrev VSIMHeapNode (D : Type*) := D ×ₗ Key

section Scan

variable (check : Key → UInt64) (T : Element) (dim_ix : ℕ) (keySub : Key) (dist : Key → D)

/-- `process_range__`, from a number of iterations on. -/
def processRange (predicate : Key → Bool) (iterations : ℕ) :
    List Pair → Array (VSIMHeapNode D) → Key × Array (VSIMHeapNode D)
  | [], heap => ([], heap)
  | p :: it, heap =>
    if predicate p.key = true then ([], heap)
    else if ITERATIONS_LOOPS_VSIM < iterations + 1 then (p.key, heap)
    else if ¬isOK (check p.key) p = true then processRange predicate (iterations + 1) it heap
    else
      match toStoredVector T p.val dim_ix with
      | none => processRange predicate (iterations + 1) it heap
      | some vectorB =>
        let text := extractNth 2 separator p.key
        if text = keySub then processRange predicate (iterations + 1) it heap
        else
          processRange predicate (iterations + 1) it
            (offer lessThan results heap (toLex (dist vectorB, text)))

/-- The loop of `VSIM` over its candidates. -/
def processTexts (keyN : Key) (db : Db) :
    List Key → Array (VSIMHeapNode D) → Array (VSIMHeapNode D)
  | [], heap => heap
  | text :: texts, heap =>
    if text = keySub then processTexts keyN db texts heap
    else
      match toStoredVector T (getData check keyN text db) dim_ix with
      | none => processTexts keyN db texts heap
      | some vectorB =>
        processTexts keyN db texts (offer lessThan results heap (toLex (dist vectorB, text)))

end Scan

variable (M : Metric D)

/-- The answer, from the sorted heap. -/
def finish (dtype : DType) (vectorA : Key) (data : List (VSIMHeapNode D)) : List Key :=
  data.flatMap fun node =>
    [(ofLex node).2, M.format (M.fix dtype vectorA (ofLex node).1)]

/-- What `VSIMFLAT` finds for a stored vector, with the tail. -/
def flat (check : Key → UInt64) (a : SimArgs) (vectorA startKey : Key) (db : Db) :
    Key × List (VSIMHeapNode D) :=
  let pre := makeKeyDataSearchFlat a.keyN
  let startKey := if startKey = [] then pre else startKey
  let found := processRange check a.T a.dim_ix a.keySub (M.prepared a.dtype a.T vectorA)
    (StopPrefixPredicate pre) 0 (fromKey Pair.key startKey db) #[]
  (found.1, sortHeap lessThan found.2)

/-- `VSIMFLAT`. -/
def vsimflat (check : Key → UInt64) (p : List Key) (db : Db) : Reply :=
  match readFlat p with
  | .error message => .error message
  | .ok (a, startKey) =>
    match toStoredVector a.T (getData check a.keyN a.keySub db) a.dim_ix with
    | none => .container []
    | some vectorA =>
      let found := flat M check a vectorA startKey db
      .container (finish M a.dtype vectorA found.2 ++ [found.1])

/-- `scanIndex__`. -/
def scanIndex (check : Key → UInt64) (db : Db) (pre : Key) (container : List Key) : List Key :=
  (sharedAccumulatePairs (some count) (StopPrefixPredicate pre) (fun p => isOK (check p.key) p)
    (fun container p => (true, container ++ [extractNth 3 separator p.key])) 0 0
    (fromKey Pair.key pre db) container).2

/-- What `VSIM` finds for a stored vector with the texts of its bands. -/
def similar (check : Key → UInt64) (a : SimArgs) (vectorA : Key) (indexes : List Key) (db : Db) :
    List (VSIMHeapNode D) :=
  let keySubs := indexes.foldl
    (fun container index => scanIndex check db (makeKeyDataSearchNS a.keyN index) container) []
  sortHeap lessThan (processTexts check a.T a.dim_ix a.keySub (M.prepared a.dtype a.T vectorA)
    a.keyN db (sortUnique keySubs) #[])

/-- `VSIM`. -/
def vsim (simhash : Element → Key → ℕ → ℕ) (check : Key → UInt64) (p : List Key) (db : Db) :
    Reply :=
  match readSim p with
  | .error message => .error message
  | .ok (a, bands, bits) =>
    let vectorSV := getData check a.keyN a.keySub db
    match toStoredVector a.T vectorSV a.dim_ix, decoder simhash bands bits a.T a.dim_ix vectorSV with
    | some vectorA, some indexes =>
      .container (finish M a.dtype vectorA (similar M check a vectorA indexes db))
    | _, _ => .container []

end Commands

end HM4.VectorSearch
