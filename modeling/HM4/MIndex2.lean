import HM4.Autocomplete

/-!
# Searches for several tokens

`rangeM` goes over the keys of several tokens at once and finds the names that have all of them.
Each token has a cursor, which skips what is not alive and ends where the keys of its token end.
All cursors count their steps together, and stop when there are too many of them.
-/

namespace HM4.MIndex2

open LexPrefix Bytes Pairs KeyedList Database IndexToken AccumulateResults
open Autocomplete (extractNth)

/-! ## Cursors -/

/-- `StopIterationPredicate`. -/
structure StopIterationPredicate where
  maxIterations : ℕ
  iterations : ℕ

/-- `advance`. -/
def StopIterationPredicate.advance (cstop : StopIterationPredicate) (i : ℕ) :
    Bool × StopIterationPredicate :=
  let iterations := cstop.iterations + i
  (decide (cstop.maxIterations ≤ iterations), ⟨cstop.maxIterations, iterations⟩)

/-- `TombstoneIteratorPair`, with its `IteratorPair`: the prefix, the pairs from the iterator on,
and whether it was not invalidated. -/
structure TombstoneIteratorPair where
  pre : Key
  it : List Pair
  valid : Bool

/-- `FTSIntersector`. -/
structure FTSIntersector where
  container : List TombstoneIteratorPair
  active : Bool
  cstop : StopIterationPredicate

section Cursor

variable (check : Key → UInt64)

/-- `skipInvalidPairs_` of a cursor that is valid. -/
def skipInvalidPairs_ (pre : Key) :
    List Pair → StopIterationPredicate → TombstoneIteratorPair × StopIterationPredicate
  | [], cstop => (⟨pre, [], true⟩, cstop)
  | p :: it, cstop =>
    if StopPrefixPredicate pre p.key = true then (⟨pre, p :: it, false⟩, cstop)
    else
      match cstop.advance 1 with
      | (true, cstop) => (⟨pre, p :: it, false⟩, cstop)
      | (false, cstop) =>
        if isOK (check p.key) p = true then (⟨pre, p :: it, true⟩, cstop)
        else skipInvalidPairs_ pre it cstop

namespace TombstoneIteratorPair

/-- `operator bool`. -/
def ok (ip : TombstoneIteratorPair) : Bool := !ip.it.isEmpty && ip.valid

/-- `operator *`, the key without the set and the token. -/
def key (ip : TombstoneIteratorPair) : Key :=
  (ip.it.head?.map fun p => extractNth (3 - 1) separator p.key).getD []

/-- `operator ++`. -/
def next (ip : TombstoneIteratorPair) (cstop : StopIterationPredicate) :
    TombstoneIteratorPair × StopIterationPredicate :=
  if ip.valid = true then skipInvalidPairs_ check ip.pre ip.it.tail cstop
  else (⟨ip.pre, ip.it.tail, false⟩, cstop)

/-- The loop of `seek`. -/
def seekLoop (target : Key) :
    (fuel : ℕ) → TombstoneIteratorPair → StopIterationPredicate →
      TombstoneIteratorPair × StopIterationPredicate
  | 0, ip, cstop => (ip, cstop)
  | fuel + 1, ip, cstop =>
    if (ip.ok && decide (ip.key < target)) = true then
      let (ip, cstop) := ip.next check cstop
      seekLoop target fuel ip cstop
    else (ip, cstop)

/-- `seek`, whose loop takes a pair in each step. -/
def seek (target : Key) (ip : TombstoneIteratorPair) (cstop : StopIterationPredicate) :
    TombstoneIteratorPair × StopIterationPredicate :=
  seekLoop check target ip.it.length ip cstop

end TombstoneIteratorPair

/-! ## The intersection -/

/-- What a round over all cursors ends with. -/
inductive Round
  | exhausted
  | beyond (max : Key)
  | all

/-- The `for` loop behind `start`. -/
def round (max : Key) :
    List TombstoneIteratorPair → StopIterationPredicate →
      Round × List TombstoneIteratorPair × StopIterationPredicate
  | [], cstop => (.all, [], cstop)
  | ip :: container, cstop =>
    let (ip, cstop) := ip.seek check max cstop
    if ¬ip.ok = true then (.exhausted, ip :: container, cstop)
    else if ip.key ≠ max then (.beyond ip.key, ip :: container, cstop)
    else
      let (r, container, cstop) := round max container cstop
      (r, ip :: container, cstop)

/-- The rounds from `start` on, up to a key that all cursors have. -/
def rounds :
    (fuel : ℕ) → (max : Key) → List TombstoneIteratorPair → StopIterationPredicate →
      Option Key × List TombstoneIteratorPair × StopIterationPredicate
  | 0, _, container, cstop => (none, container, cstop)
  | fuel + 1, max, container, cstop =>
    match round check max container cstop with
    | (.exhausted, container, cstop) => (none, container, cstop)
    | (.beyond max, container, cstop) => rounds fuel max container cstop
    | (.all, container, cstop) => (some max, container, cstop)

/-- Each cursor goes on by one. -/
def nextAll :
    List TombstoneIteratorPair → StopIterationPredicate →
      List TombstoneIteratorPair × StopIterationPredicate
  | [], cstop => ([], cstop)
  | ip :: container, cstop =>
    let (ip, cstop) := ip.next check cstop
    let (container, cstop) := nextAll container cstop
    (ip :: container, cstop)

namespace FTSIntersector

/-- `operator bool`. -/
def ok (fts : FTSIntersector) : Bool := fts.active && !fts.container.isEmpty

/-- `push`. -/
def push (fts : FTSIntersector) (pre : Key) (it : List Pair) : Bool × FTSIntersector :=
  if ¬fts.active = true then (false, fts)
  else
    let (ip, cstop) := skipInvalidPairs_ check pre it fts.cstop
    if ¬ip.ok = true then (false, ⟨fts.container, false, cstop⟩)
    else (true, ⟨fts.container ++ [ip], true, cstop⟩)

/-- `operator()`. Each round but the last passes a pair that is behind its `max`. -/
def call (fts : FTSIntersector) : Key × FTSIntersector :=
  match fts.container with
  | [] => ([], fts)
  | front :: others =>
    if ¬fts.active = true then ([], fts)
    else if ¬front.ok = true then ([], { fts with active := false })
    else
      let fuel := ((front :: others).map fun ip => ip.it.length).sum + 1
      match rounds check fuel front.key (front :: others) fts.cstop with
      | (none, container, cstop) => ([], ⟨container, false, cstop⟩)
      | (some max, container, cstop) =>
        let (container, cstop) := nextAll check container cstop
        (max, ⟨container, true, (cstop.advance container.length).2⟩)

/-- `fixItem`. -/
def fixItem (s : Key) : Key := extractNth 1 separator s

end FTSIntersector

end Cursor

/-! ## The commands -/

/-- `makeKeyDataSearch`. -/
def makeKeyDataSearch (keyN text : Key) : Key :=
  concatenateBuffer bufferKeySize [keyN, [separator], text, [separator]]

/-- `makeKeyDataStart`. -/
def makeKeyDataStart (keyN text keyStart : Key) : Key :=
  concatenateBuffer bufferKeySize [keyN, [separator], text, [separator], keyStart]

/-- What the search for a token starts with. -/
def startOf (keyN index keyStart : Key) : Key :=
  if keyStart = [] then makeKeyDataSearch keyN index else makeKeyDataStart keyN index keyStart

section Commands

variable (check : Key → UInt64)

/-- `range1`. -/
def range1 (keyN index : Key) (count : ℕ) (keyStart : Key) (db : Db) : Reply :=
  let found := sharedAccumulatePairs (some count)
    (StopPrefixPredicate (makeKeyDataSearch keyN index)) (fun p => isOK (check p.key) p)
    (fun container p => (true, container ++ [extractNth 3 separator p.key, [49]])) 0 0
    (fromKey Pair.key (startOf keyN index keyStart) db) []
  let next := if found.1 = [] then [] else extractNth 2 separator found.1
  .container (found.2 ++ [next])

/-- The cursors of all tokens, if each of them has a pair. -/
def pushAll (keyN keyStart : Key) (db : Db) :
    List Key → FTSIntersector → Option FTSIntersector
  | [], fts => some fts
  | index :: tokens, fts =>
    match fts.push check (makeKeyDataSearch keyN index)
        (fromKey Pair.key (startOf keyN index keyStart) db) with
    | (false, _) => none
    | (true, fts) => pushAll keyN keyStart db tokens fts

/-- The `while` loop of `rangeM`, with so many results to go. -/
def collect : (left : ℕ) → FTSIntersector → List Key
  | left, fts =>
    if ¬fts.ok = true then []
    else
      let (sv, fts) := fts.call check
      if sv = [] then [[]]
      else
        match left with
        | 0 => [sv]
        | left + 1 => FTSIntersector.fixItem sv :: [49] :: collect left fts

/-- `rangeM` with some maximum of iterations. -/
def rangeM (maxIterations : ℕ) (keyN : Key) (tokens : List Key) (count : ℕ) (keyStart : Key)
    (db : Db) : Reply :=
  match tokens with
  | [index] => range1 check keyN index count keyStart db
  | tokens =>
    match pushAll check keyN keyStart db tokens ⟨[], true, ⟨maxIterations, 0⟩⟩ with
    | none => .container [[]]
    | some fts => .container (collect check count fts)

end Commands

end HM4.MIndex2
