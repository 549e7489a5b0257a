import HM4.AccumulateResults
import HM4.IndexKeys
import HM4.General.TopHeap

/-!
# Autocomplete

The number of additions of a text is kept under one key for each of its prefixes that a tokenizer
tells, and under one key with no prefix. A search walks over the keys of one prefix and keeps the
texts with the largest numbers in a heap.
-/

namespace HM4.Autocomplete

open LexPrefix Bytes Pairs PairFactory MemList KeyedList RedisProtocol Database IndexToken
open AccumulateResults
open IndexKeys (toKey)

/-! ## Tokenizers -/

/-- What `to` gives in the loop over a tokenizer; nothing if the loop does not end. -/
abbrev Tokenizer := Key → Option (List Key)

/-- `ASCIITokenizer`. -/
def aSCIITokenizer : Tokenizer := fun s => some ((List.range s.length).map fun i => s.take (i + 1))

/-- `UTF8Tokenizer::Iterator::getCharLen__`. -/
def getCharLen (c : Byte) : ℕ :=
  if c.val < 0x80 then 1
  else if c.val >>> 5 = 0x06 then 2
  else if c.val >>> 4 = 0x0E then 3
  else if c.val >>> 3 = 0x1E then 4
  else 1

/-- The loop of `UTF8Tokenizer` from a position on, which never ends behind the end of the string.
Each step moves on, so that the length of the string bounds the steps. -/
def utf8Loop (s : Key) : (fuel : ℕ) → (pos : ℕ) → Option (List Key)
  | 0, _ => none
  | fuel + 1, pos =>
    if pos = s.length then some []
    else
      s[pos]?.bind fun c =>
        let len := if s.length < pos + getCharLen c then 1 else getCharLen c
        (utf8Loop s fuel (pos + getCharLen c)).map (s.take (pos + len) :: ·)

/-- `UTF8Tokenizer`. -/
def uTF8Tokenizer : Tokenizer := fun s => utf8Loop s (s.length + 1) 0

/-! ## Keys -/

/-- `valid`. -/
def valid (keyN keySub : Key) : Prop :=
  keyN ≠ [] ∧ keySub ≠ [] ∧ 2 + (keyN.length + keySub.length + keySub.length) ≤ maxKeySize

instance (keyN keySub : Key) : Decidable (valid keyN keySub) :=
  inferInstanceAs (Decidable (_ ∧ _ ∧ _))

/-- `makeKeyData`. -/
def makeKeyData (keyN keySub ix0 : Key) : Key :=
  concatenateBuffer bufferKeySize [keyN, [separator], ix0, [separator], keySub]

/-- `makeKeyDataSearch`. -/
def makeKeyDataSearch (keyN txt : Key) : Key :=
  concatenateBuffer bufferKeySize [keyN, [separator], txt, [separator]]

/-- The loop of `extractNth` behind some separators. -/
def extractLoop (nth : ℕ) (sep : Byte) : (count : ℕ) → Key → Key
  | _, [] => toKey "INVALID_DATA"
  | count, c :: s =>
    if c = sep then if count + 1 = nth then s else extractLoop nth sep (count + 1) s
    else extractLoop nth sep count s

/-- `extractNth`. -/
def extractNth (nth : ℕ) (sep : Byte) (s : Key) : Key := extractLoop nth sep 0 s

/-! ## The commands -/

/-- `getValueN` of 64 bits, which does not grow beyond its largest value. -/
def getValueN (check : UInt64) (key : Key) (db : Db) : ℕ :=
  let s := ((getPairPtr check key db).map Pair.val).getD []
  min (fromString 64 s 0 + 1) (2 ^ 64 - 1)

/-- A value is inserted under some keys, with the seconds after which it expires. -/
def insertAll (write : Key → Write) (keys : List Key) (val : Key) (expire : ℕ) (db : Db) : Db :=
  keys.foldl
    (fun db key =>
      insertF (write key).owned (normal key val (UInt32.ofNat expire) 0) (write key).now db)
    db

/-- `do_processACADD`; nothing if the tokenizer does not end. -/
def do_processACADD (tokenizer : Tokenizer) (check : UInt64) (write : Key → Write) (p : List Key)
    (db : Db) : Option (Reply × Db) :=
  if p.length ≠ 3 ∧ p.length ≠ 4 then some (.error .NEED_EXACT_PARAMS_23, db)
  else
    let keyN := p.getD 1 []
    let text := p.getD 2 []
    let expire := if 3 < p.length then fromString 32 (p.getD 3 []) 0 else 0
    if ¬valid keyN text then some (.error .INVALID_PARAMETERS, db)
    else
      let valueN := getValueN check (makeKeyData keyN text []) db
      (tokenizer text).map fun tokens =>
        (.number valueN,
          insertAll write (([] :: tokens).map (makeKeyData keyN text)) (numeral valueN) expire db)

/-- `do_processACREM`. -/
def do_processACREM (tokenizer : Tokenizer) (write : Key → Write) (p : List Key) (db : Db) :
    Option (Reply × Db) :=
  if p.length ≠ 3 then some (.error .NEED_EXACT_PARAMS_23, db)
  else
    let keyN := p.getD 1 []
    let text := p.getD 2 []
    if ¬valid keyN text then some (.error .INVALID_PARAMETERS, db)
    else
      (tokenizer text).map fun tokens =>
        (.bool true, eraseKeys write (([] :: tokens).map (makeKeyData keyN text)) db)

/-- `AC::Result`. -/
structure Result where
  key : Key
  val : Key
  num : ℕ
  deriving DecidableEq

/-- `Result::comp`. -/
def Result.comp (a b : Result) : Bool := decide (b.num < a.num)

/-- The projection of a pair. -/
def projPair (pair : Pair) : Result where
  key := extractNth 2 separator pair.key
  val := pair.val
  num := fromString 32 pair.val 0

/-- What is done with each pair. -/
def pPair (resultCount : ℕ) (heap : Array Result) (pair : Pair) : Bool × Array Result :=
  (true, TopHeap.offer Result.comp resultCount heap (projPair pair))

/-- `populateHeap_`. -/
def populateHeap (check : Key → UInt64) (keyN text : Key) (resultCount : ℕ) (keyStart : Key)
    (db : Db) : Key × Array Result :=
  let pre := makeKeyDataSearch keyN text
  let key := if keyStart = [] then pre else keyStart
  sharedAccumulatePairs none (StopPrefixPredicate pre) (fun p => isOK (check p.key) p)
    (pPair resultCount) 0 0 (fromKey Pair.key key db) #[]

/-- `AC::operator()`. -/
def ac (check : Key → UInt64) (keyN text : Key) (resultCount : ℕ) (keyStart : Key) (db : Db) :
    List Key :=
  let (tail, heap) := populateHeap check keyN text resultCount keyStart db
  ((TopHeap.sortHeap Result.comp heap).flatMap fun r => [r.key, r.val]) ++ [tail]

/-- `ACRANGE`. -/
def acrange (check : Key → UInt64) (p : List Key) (db : Db) : Reply :=
  if p.length ≠ 5 then .error .NEED_EXACT_PARAMS_23
  else
    let keyN := p.getD 1 []
    if keyN = [] then .error .EMPTY_KEY
    else
      let resultCount := myClamp (p.getD 3 []) ITERATIONS_RESULTS_MIN ITERATIONS_RESULTS_MAX
      .container (ac check keyN (p.getD 2 []) resultCount (p.getD 4 []) db)

/-! ## Runs -/

/-- The kind of a tokenizer. -/
inductive Kind
  | utf8
  | bin
  deriving DecidableEq

/-- The tokenizer of a kind. -/
def Kind.tokenizer : Kind → Tokenizer
  | utf8 => uTF8Tokenizer
  | bin => aSCIITokenizer

/-- A call; its first parameter is the name of the command. -/
inductive Call
  | add (check : UInt64) (write : Key → Write) (cmd keyN text : Key) (exp : Option Key)
  | rem (write : Key → Write) (cmd keyN text : Key)

namespace Call

/-- The set of a call. -/
def keyN : Call → Key
  | add _ _ _ keyN _ _ => keyN
  | rem _ _ keyN _ => keyN

/-- The text of a call. -/
def text : Call → Key
  | add _ _ _ _ text _ => text
  | rem _ _ _ text => text

/-- What a call does. -/
def process (kind : Kind) : Call → Db → Option (Reply × Db)
  | add check write cmd keyN text exp =>
    do_processACADD kind.tokenizer check write (cmd :: keyN :: text :: exp.toList)
  | rem write cmd keyN text => do_processACREM kind.tokenizer write [cmd, keyN, text]

/-- The seconds after which what a call adds expires, if not zero. -/
def expire : Call → ℕ
  | add _ _ _ _ _ exp => exp.elim 0 fun s => fromString 32 s 0
  | rem _ _ _ _ => 0

/-- How the numbers of additions to a set change with a call. -/
def tally (set : Key) (n : Key → ℕ) (c : Call) : Key → ℕ :=
  if c.keyN = set ∧ valid c.keyN c.text then
    match c with
    | add _ _ _ _ text _ => Function.update n text (n text + 1)
    | rem _ _ _ text => Function.update n text 0
  else n

/-- A call adds a text to a set. -/
def Adds (set t : Key) : Call → Prop
  | add _ _ _ keyN text _ => keyN = set ∧ text = t
  | rem _ _ _ _ => False

instance (set t : Key) : DecidablePred (Adds set t) := fun c => by
  cases c
  · exact inferInstanceAs (Decidable (_ ∧ _))
  · exact inferInstanceAs (Decidable False)

end Call

/-- A run of calls; nothing if one of them does not end. -/
def run (kind : Kind) : List Call → Db → Option Db
  | [], db => some db
  | c :: calls, db => (c.process kind db).bind fun r => run kind calls r.2

/-- How often each text was added to a set since it was last removed. -/
def additions (set : Key) (calls : List Call) : Key → ℕ := calls.foldl (Call.tally set) fun _ => 0

/-! ## What the kinds stand for -/

/-- The octets of some letters. -/
def encode (letters : List Char) : Key :=
  letters.flatMap fun c => (String.utf8EncodeChar c).map fun b => Fin.ofNat 256 b.toNat

/-- Which texts a kind is for. -/
def Kind.Text : Kind → Key → Prop
  | utf8, t => ∃ letters, t = encode letters
  | bin, _ => True

/-- A text of a kind starts with a prefix at the boundary of a token. -/
def Kind.StartsWith : Kind → Key → Key → Prop
  | utf8, t, pre => ∃ first rest, pre = encode first ∧ t = encode (first ++ rest)
  | bin, t, pre => pre <+: t

/-- What is known of a call: its names have no separator, its text is one of the kind and does
not expire. -/
structure Call.Sound (kind : Kind) (c : Call) : Prop where
  keyN : separator ∉ c.keyN
  text : separator ∉ c.text
  kind : kind.Text c.text
  forever : c.expire = 0

open Classical in
/-- The texts of a set that are present and start with a prefix. -/
noncomputable def present (kind : Kind) (set pre : Key) (calls : List Call) : List Key :=
  (calls.map Call.text).dedup.filter fun t => 0 < additions set calls t ∧ kind.StartsWith t pre

/-- So many of some texts with the largest numbers, the largest number first. -/
structure Top (k : ℕ) (n : Key → ℕ) (texts answer : List Key) : Prop where
  length : answer.length = min k texts.length
  subperm : answer.Subperm texts
  sorted : answer.Pairwise fun a b => n b ≤ n a
  largest : ∀ t ∈ texts, t ∉ answer → ∀ a ∈ answer, n t ≤ n a

end HM4.Autocomplete
