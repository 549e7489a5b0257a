import HM4.IndexToken
import Mathlib.Data.List.Perm.Subperm

/-!
# Keys for every selection of index fields

A record with some index values is kept under one key for each ordered selection of its index
fields: the key has the letters of the selection, the values in its order, and ends in the sort
key and the key of the record. A query for a selection reads all keys with one prefix. The table
of all selections is written out for one to five fields.
-/

namespace HM4.IndexKeys

open LexPrefix Bytes Pairs Separated IndexToken

/-! ## The tables -/

/-- The first index field. -/
abbrev A : ℕ := 0

/-- The second index field. -/
abbrev B : ℕ := 1

/-- The third index field. -/
abbrev C : ℕ := 2

/-- The fourth index field. -/
abbrev D : ℕ := 3

/-- The fifth index field. -/
abbrev E : ℕ := 4

/-- The octets of a text. -/
def toKey (s : String) : Key := s.toList.map fun c => Fin.ofNat 256 c.toNat

/-- A permutation: the number of index fields, and its rows, each with a text and the index
fields behind it. -/
structure Permutation where
  /-- The number of index fields, without the sort key. -/
  n : ℕ
  /-- The calls that `for_each` makes. -/
  rows : List (String × List ℕ)

/-- The rows of `Permutation<1>::for_each`. -/
def rows1 : List (String × List ℕ) :=
  [("_", []), ("A", [A])]

/-- The rows of `Permutation<2>::for_each`. -/
def rows2 : List (String × List ℕ) :=
  [("_", []), ("A", [A]), ("B", [B]), ("AB", [A, B]), ("BA", [B, A])]

/-- The rows of `Permutation<3>::for_each`. -/
def rows3 : List (String × List ℕ) :=
  [("_", []), ("A", [A]), ("B", [B]), ("C", [C]), ("AB", [A, B]), ("BA", [B, A]), ("AC", [A, C]),
   ("CA", [C, A]), ("BC", [B, C]), ("CB", [C, B]), ("ABC", [A, B, C]), ("ACB", [A, C, B]),
   ("BAC", [B, A, C]), ("BCA", [B, C, A]), ("CAB", [C, A, B]), ("CBA", [C, B, A])]

/-- The rows of `Permutation<4>::for_each`. -/
def rows4 : List (String × List ℕ) :=
  [("_", []), ("A", [A]), ("B", [B]), ("C", [C]), ("D", [D]), ("AB", [A, B]), ("BA", [B, A]),
   ("AC", [A, C]), ("CA", [C, A]), ("AD", [A, D]), ("DA", [D, A]), ("BC", [B, C]),
   ("CB", [C, B]), ("BD", [B, D]), ("DB", [D, B]), ("CD", [C, D]), ("DC", [D, C]),
   ("ABC", [A, B, C]), ("ACB", [A, C, B]), ("BAC", [B, A, C]), ("BCA", [B, C, A]),
   ("CAB", [C, A, B]), ("CBA", [C, B, A]), ("ABD", [A, B, D]), ("ADB", [A, D, B]),
   ("BAD", [B, A, D]), ("BDA", [B, D, A]), ("DAB", [D, A, B]), ("DBA", [D, B, A]),
   ("ACD", [A, C, D]), ("ADC", [A, D, C]), ("CAD", [C, A, D]), ("CDA", [C, D, A]),
   ("DAC", [D, A, C]), ("DCA", [D, C, A]), ("BCD", [B, C, D]), ("BDC", [B, D, C]),
   ("CBD", [C, B, D]), ("CDB", [C, D, B]), ("DBC", [D, B, C]), ("DCB", [D, C, B]),
   ("ABCD", [A, B, C, D]), ("ABDC", [A, B, D, C]), ("ACBD", [A, C, B, D]),
   ("ACDB", [A, C, D, B]), ("ADBC", [A, D, B, C]), ("ADCB", [A, D, C, B]),
   ("BACD", [B, A, C, D]), ("BADC", [B, A, D, C]), ("BCAD", [B, C, A, D]),
   ("BCDA", [B, C, D, A]), ("BDAC", [B, D, A, C]), ("BDCA", [B, D, C, A]),
   ("CABD", [C, A, B, D]), ("CADB", [C, A, D, B]), ("CBAD", [C, B, A, D]),
   ("CBDA", [C, B, D, A]), ("CDAB", [C, D, A, B]), ("CDBA", [C, D, B, A]),
   ("DABC", [D, A, B, C]), ("DACB", [D, A, C, B]), ("DBAC", [D, B, A, C]),
   ("DBCA", [D, B, C, A]), ("DCAB", [D, C, A, B]), ("DCBA", [D, C, B, A])]

/-- The rows of `Permutation<5>::for_each`. -/
def rows5 : List (String × List ℕ) :=
  [("_", []), ("A", [A]), ("B", [B]), ("C", [C]), ("D", [D]), ("E", [E]), ("AB", [A, B]),
   ("BA", [B, A]), ("AC", [A, C]), ("CA", [C, A]), ("AD", [A, D]), ("DA", [D, A]),
   ("AE", [A, E]), ("EA", [E, A]), ("BC", [B, C]), ("CB", [C, B]), ("BD", [B, D]),
   ("DB", [D, B]), ("BE", [B, E]), ("EB", [E, B]), ("CD", [C, D]), ("DC", [D, C]),
   ("CE", [C, E]), ("EC", [E, C]), ("DE", [D, E]), ("ED", [E, D]), ("ABC", [A, B, C]),
   ("ACB", [A, C, B]), ("BAC", [B, A, C]), ("BCA", [B, C, A]), ("CAB", [C, A, B]),
   ("CBA", [C, B, A]), ("ABD", [A, B, D]), ("ADB", [A, D, B]), ("BAD", [B, A, D]),
   ("BDA", [B, D, A]), ("DAB", [D, A, B]), ("DBA", [D, B, A]), ("ABE", [A, B, E]),
   ("AEB", [A, E, B]), ("BAE", [B, A, E]), ("BEA", [B, E, A]), ("EAB", [E, A, B]),
   ("EBA", [E, B, A]), ("ACD", [A, C, D]), ("ADC", [A, D, C]), ("CAD", [C, A, D]),
   ("CDA", [C, D, A]), ("DAC", [D, A, C]), ("DCA", [D, C, A]), ("ACE", [A, C, E]),
   ("AEC", [A, E, C]), ("CAE", [C, A, E]), ("CEA", [C, E, A]), ("EAC", [E, A, C]),
   ("ECA", [E, C, A]), ("ADE", [A, D, E]), ("AED", [A, E, D]), ("DAE", [D, A, E]),
   ("DEA", [D, E, A]), ("EAD", [E, A, D]), ("EDA", [E, D, A]), ("BCD", [B, C, D]),
   ("BDC", [B, D, C]), ("CBD", [C, B, D]), ("CDB", [C, D, B]), ("DBC", [D, B, C]),
   ("DCB", [D, C, B]), ("BCE", [B, C, E]), ("BEC", [B, E, C]), ("CBE", [C, B, E]),
   ("CEB", [C, E, B]), ("EBC", [E, B, C]), ("ECB", [E, C, B]), ("BDE", [B, D, E]),
   ("BED", [B, E, D]), ("DBE", [D, B, E]), ("DEB", [D, E, B]), ("EBD", [E, B, D]),
   ("EDB", [E, D, B]), ("CDE", [C, D, E]), ("CED", [C, E, D]), ("DCE", [D, C, E]),
   ("DEC", [D, E, C]), ("ECD", [E, C, D]), ("EDC", [E, D, C]), ("ABCD", [A, B, C, D]),
   ("ABDC", [A, B, D, C]), ("ACBD", [A, C, B, D]), ("ACDB", [A, C, D, B]),
   ("ADBC", [A, D, B, C]), ("ADCB", [A, D, C, B]), ("BACD", [B, A, C, D]),
   ("BADC", [B, A, D, C]), ("BCAD", [B, C, A, D]), ("BCDA", [B, C, D, A]),
   ("BDAC", [B, D, A, C]), ("BDCA", [B, D, C, A]), ("CABD", [C, A, B, D]),
   ("CADB", [C, A, D, B]), ("CBAD", [C, B, A, D]), ("CBDA", [C, B, D, A]),
   ("CDAB", [C, D, A, B]), ("CDBA", [C, D, B, A]), ("DABC", [D, A, B, C]),
   ("DACB", [D, A, C, B]), ("DBAC", [D, B, A, C]), ("DBCA", [D, B, C, A]),
   ("DCAB", [D, C, A, B]), ("DCBA", [D, C, B, A]), ("ABCE", [A, B, C, E]),
   ("ABEC", [A, B, E, C]), ("ACBE", [A, C, B, E]), ("ACEB", [A, C, E, B]),
   ("AEBC", [A, E, B, C]), ("AECB", [A, E, C, B]), ("BACE", [B, A, C, E]),
   ("BAEC", [B, A, E, C]), ("BCAE", [B, C, A, E]), ("BCEA", [B, C, E, A]),
   ("BEAC", [B, E, A, C]), ("BECA", [B, E, C, A]), ("CABE", [C, A, B, E]),
   ("CAEB", [C, A, E, B]), ("CBAE", [C, B, A, E]), ("CBEA", [C, B, E, A]),
   ("CEAB", [C, E, A, B]), ("CEBA", [C, E, B, A]), ("EABC", [E, A, B, C]),
   ("EACB", [E, A, C, B]), ("EBAC", [E, B, A, C]), ("EBCA", [E, B, C, A]),
   ("ECAB", [E, C, A, B]), ("ECBA", [E, C, B, A]), ("ABDE", [A, B, D, E]),
   ("ABED", [A, B, E, D]), ("ADBE", [A, D, B, E]), ("ADEB", [A, D, E, B]),
   ("AEBD", [A, E, B, D]), ("AEDB", [A, E, D, B]), ("BADE", [B, A, D, E]),
   ("BAED", [B, A, E, D]), ("BDAE", [B, D, A, E]), ("BDEA", [B, D, E, A]),
   ("BEAD", [B, E, A, D]), ("BEDA", [B, E, D, A]), ("DABE", [D, A, B, E]),
   ("DAEB", [D, A, E, B]), ("DBAE", [D, B, A, E]), ("DBEA", [D, B, E, A]),
   ("DEAB", [D, E, A, B]), ("DEBA", [D, E, B, A]), ("EABD", [E, A, B, D]),
   ("EADB", [E, A, D, B]), ("EBAD", [E, B, A, D]), ("EBDA", [E, B, D, A]),
   ("EDAB", [E, D, A, B]), ("EDBA", [E, D, B, A]), ("ACDE", [A, C, D, E]),
   ("ACED", [A, C, E, D]), ("ADCE", [A, D, C, E]), ("ADEC", [A, D, E, C]),
   ("AECD", [A, E, C, D]), ("AEDC", [A, E, D, C]), ("CADE", [C, A, D, E]),
   ("CAED", [C, A, E, D]), ("CDAE", [C, D, A, E]), ("CDEA", [C, D, E, A]),
   ("CEAD", [C, E, A, D]), ("CEDA", [C, E, D, A]), ("DACE", [D, A, C, E]),
   ("DAEC", [D, A, E, C]), ("DCAE", [D, C, A, E]), ("DCEA", [D, C, E, A]),
   ("DEAC", [D, E, A, C]), ("DECA", [D, E, C, A]), ("EACD", [E, A, C, D]),
   ("EADC", [E, A, D, C]), ("ECAD", [E, C, A, D]), ("ECDA", [E, C, D, A]),
   ("EDAC", [E, D, A, C]), ("EDCA", [E, D, C, A]), ("BCDE", [B, C, D, E]),
   ("BCED", [B, C, E, D]), ("BDCE", [B, D, C, E]), ("BDEC", [B, D, E, C]),
   ("BECD", [B, E, C, D]), ("BEDC", [B, E, D, C]), ("CBDE", [C, B, D, E]),
   ("CBED", [C, B, E, D]), ("CDBE", [C, D, B, E]), ("CDEB", [C, D, E, B]),
   ("CEBD", [C, E, B, D]), ("CEDB", [C, E, D, B]), ("DBCE", [D, B, C, E]),
   ("DBEC", [D, B, E, C]), ("DCBE", [D, C, B, E]), ("DCEB", [D, C, E, B]),
   ("DEBC", [D, E, B, C]), ("DECB", [D, E, C, B]), ("EBCD", [E, B, C, D]),
   ("EBDC", [E, B, D, C]), ("ECBD", [E, C, B, D]), ("ECDB", [E, C, D, B]),
   ("EDBC", [E, D, B, C]), ("EDCB", [E, D, C, B]), ("ABCDE", [A, B, C, D, E]),
   ("ABCED", [A, B, C, E, D]), ("ABDCE", [A, B, D, C, E]), ("ABDEC", [A, B, D, E, C]),
   ("ABECD", [A, B, E, C, D]), ("ABEDC", [A, B, E, D, C]), ("ACBDE", [A, C, B, D, E]),
   ("ACBED", [A, C, B, E, D]), ("ACDBE", [A, C, D, B, E]), ("ACDEB", [A, C, D, E, B]),
   ("ACEBD", [A, C, E, B, D]), ("ACEDC", [A, C, E, D, C]), ("ADBCE", [A, D, B, C, E]),
   ("ADBEC", [A, D, B, E, C]), ("ADCBE", [A, D, C, B, E]), ("ADCEB", [A, D, C, E, B]),
   ("ADEBC", [A, D, E, B, C]), ("ADECB", [A, D, E, C, B]), ("AEBCD", [A, E, B, C, D]),
   ("AEBDC", [A, E, B, D, C]), ("AECBD", [A, E, C, B, D]), ("AECDB", [A, E, C, D, B]),
   ("AEDBC", [A, E, D, B, C]), ("AEDCB", [A, E, D, C, B]), ("BACDE", [B, A, C, D, E]),
   ("BACED", [B, A, C, E, D]), ("BADCE", [B, A, D, C, E]), ("BADEC", [B, A, D, E, C]),
   ("BAECD", [B, A, E, C, D]), ("BAEDC", [B, A, E, D, C]), ("BCADE", [B, C, A, D, E]),
   ("BCAED", [B, C, A, E, D]), ("BCDAE", [B, C, D, A, E]), ("BCDEA", [B, C, D, E, A]),
   ("BCEAD", [B, C, E, A, D]), ("BCEDA", [B, C, E, D, A]), ("BDACE", [B, D, A, C, E]),
   ("BDAEC", [B, D, A, E, C]), ("BDCAE", [B, D, C, A, E]), ("BDCEA", [B, D, C, E, A]),
   ("BDEAC", [B, D, E, A, C]), ("BDECA", [B, D, E, C, A]), ("BEACD", [B, E, A, C, D]),
   ("BEADC", [B, E, A, D, C]), ("BECAD", [B, E, C, A, D]), ("BECDA", [B, E, C, D, A]),
   ("BEDAC", [B, E, D, A, C]), ("BEDCA", [B, E, D, C, A]), ("CABDE", [C, A, B, D, E]),
   ("CABED", [C, A, B, E, D]), ("CADBE", [C, A, D, B, E]), ("CADEB", [C, A, D, E, B]),
   ("CAEBD", [C, A, E, B, D]), ("CAEDB", [C, A, E, D, B]), ("CBADE", [C, B, A, D, E]),
   ("CBAED", [C, B, A, E, D]), ("CBDAE", [C, B, D, A, E]), ("CBDEA", [C, B, D, E, A]),
   ("CBEAD", [C, B, E, A, D]), ("CBEDA", [C, B, E, D, A]), ("CDABE", [C, D, A, B, E]),
   ("CDAEB", [C, D, A, E, B]), ("CDBAE", [C, D, B, A, E]), ("CDBEA", [C, D, B, E, A]),
   ("CDEAB", [C, D, E, A, B]), ("CDEBA", [C, D, E, B, A]), ("CEABD", [C, E, A, B, D]),
   ("CEADB", [C, E, A, D, B]), ("CEBAD", [C, E, B, A, D]), ("CEBDA", [C, E, B, D, A]),
   ("CEDAB", [C, E, D, A, B]), ("CEDBA", [C, E, D, B, A]), ("DABCE", [D, A, B, C, E]),
   ("DABEC", [D, A, B, E, C]), ("DACBE", [D, A, C, B, E]), ("DACEB", [D, A, C, E, B]),
   ("DAEBC", [D, A, E, B, C]), ("DAECB", [D, A, E, C, B]), ("DBACE", [D, B, A, C, E]),
   ("DBAEC", [D, B, A, E, C]), ("DBCAE", [D, B, C, A, E]), ("DBCEA", [D, B, C, E, A]),
   ("DBEAC", [D, B, E, A, C]), ("DBECA", [D, B, E, C, A]), ("DCABE", [D, C, A, B, E]),
   ("DCAEB", [D, C, A, E, B]), ("DCBAE", [D, C, B, A, E]), ("DCBEA", [D, C, B, E, A]),
   ("DCEAB", [D, C, E, A, B]), ("DCEBA", [D, C, E, B, A]), ("DEABC", [D, E, A, B, C]),
   ("DEACB", [D, E, A, C, B]), ("DEBAC", [D, E, B, A, C]), ("DEBCA", [D, E, B, C, A]),
   ("DECAB", [D, E, C, A, B]), ("DECBA", [D, E, C, B, A]), ("EABCD", [E, A, B, C, D]),
   ("EABDC", [E, A, B, D, C]), ("EACBD", [E, A, C, B, D]), ("EACDB", [E, A, C, D, B]),
   ("EADBC", [E, A, D, B, C]), ("EADCB", [E, A, D, C, B]), ("EBACD", [E, B, A, C, D]),
   ("EBADC", [E, B, A, D, C]), ("EBCAD", [E, B, C, A, D]), ("EBCDA", [E, B, C, D, A]),
   ("EBDAC", [E, B, D, A, C]), ("EBDCA", [E, B, D, C, A]), ("ECABD", [E, C, A, B, D]),
   ("ECADB", [E, C, A, D, B]), ("ECBAD", [E, C, B, A, D]), ("ECBDA", [E, C, B, D, A]),
   ("ECDAB", [E, C, D, A, B]), ("ECDBA", [E, C, D, B, A]), ("EDABC", [E, D, A, B, C]),
   ("EDACB", [E, D, A, C, B]), ("EDBAC", [E, D, B, A, C]), ("EDBCA", [E, D, B, C, A]),
   ("EDCAB", [E, D, C, A, B]), ("EDCBA", [E, D, C, B, A])]

/-- `Permutation<1>`. -/
def permutation1 : Permutation := ⟨1, rows1⟩

/-- `Permutation<2>`. -/
def permutation2 : Permutation := ⟨2, rows2⟩

/-- `Permutation<3>`. -/
def permutation3 : Permutation := ⟨3, rows3⟩

/-- `Permutation<4>`. -/
def permutation4 : Permutation := ⟨4, rows4⟩

/-- `Permutation<5>`. -/
def permutation5 : Permutation := ⟨5, rows5⟩

/-- All instances. -/
def permutations : List Permutation :=
  [permutation1, permutation2, permutation3, permutation4, permutation5]

/-! ## Keys -/

/-- The value of an index field; the sort key stands behind the last one. -/
def indexValue (indexes : List Key) (i : ℕ) : Key := indexes.getD i []

/-- The arguments of a row, with empty ones for the rest. -/
def slots (n : ℕ) (args : List ℕ) (indexes : List Key) : List Key :=
  args.map (indexValue indexes) ++ List.replicate (n - args.length) []

/-- The key that `for_each` makes in one row. -/
def makeKey (P : Permutation) (keyN keySub : Key) (indexes : List Key) (row : String × List ℕ) :
    Key :=
  concatenateBuffer bufferKeySize
    ([keyN, [separator], toKey row.1, [separator]] ++
      ((slots P.n row.2 indexes).flatMap fun a => [a, [separator]]) ++
      [indexValue indexes P.n, [separator], keySub])

/-- `for_each`: the keys for which it calls the function. -/
def forEach (P : Permutation) (keyN keySub : Key) (indexes : List Key) : List Key :=
  P.rows.map (makeKey P keyN keySub indexes)

/-- The underscore. -/
def underscore : Byte := 95

/-- The values that `makeKeyRange` uses: it stops at an empty one, or where the text is too
short. -/
def rangeValues (txt : Key) : ℕ → List Key → List Key
  | _, [] => []
  | 0, a :: args =>
    if a = [] ∨ txt.head? = some underscore then [] else a :: rangeValues txt 1 args
  | k + 1, a :: args =>
    if a = [] ∨ txt.length < k + 2 then [] else a :: rangeValues txt (k + 2) args

/-- `makeKeyRange`. -/
def makeKeyRange (key txt : Key) (args : List Key) : Key :=
  concatenateBuffer bufferKeySize
    ([key, [separator], txt, [separator]] ++
      ((rangeValues txt 0 args).flatMap fun a => [a, [separator]]))

/-- The text of an ordered selection of index fields. -/
def text (selection : List ℕ) : Key :=
  if selection = [] then [underscore] else selection.map fun i => Fin.ofNat 256 (65 + i)

/-! ## What holds of the tables -/

/-- What every row of a table has. -/
theorem rows_spec : ∀ P ∈ permutations, P.n ≤ 5 ∧ ∀ row ∈ P.rows,
    row.2.length ≤ P.n ∧ (∀ i ∈ row.2, i < 5) ∧ toKey row.1 = text row.2 := by
  decide +kernel

/-- A number for some arguments. -/
def code : List ℕ → ℕ
  | [] => 0
  | i :: l => code l * 6 + (i + 1)

theorem code_inj {l l' : List ℕ} (h : ∀ i ∈ l, i < 5) (h' : ∀ i ∈ l', i < 5)
    (hc : code l = code l') : l = l' := by
  induction l generalizing l' with
  | nil =>
    cases l' with
    | nil => rfl
    | cons i l' =>
      rw [code, code] at hc
      omega
  | cons i l ih =>
    have hi := h i List.mem_cons_self
    cases l' with
    | nil =>
      rw [code, code] at hc
      omega
    | cons j l' =>
      have hj := h' j List.mem_cons_self
      rw [code, code] at hc
      obtain rfl : i = j := by omega
      have hrest : code l = code l' := by omega
      rw [ih (fun k hk => h k (List.mem_cons_of_mem i hk))
        (fun k hk => h' k (List.mem_cons_of_mem i hk)) hrest]

/-- Some numbers as the bits of one number, if none stands twice or is there already. -/
def collect : List ℕ → ℕ → Option ℕ
  | [], m => some m
  | x :: l, m => bif m.testBit x then none else collect l (m ||| 1 <<< x)

theorem collect_spec {l : List ℕ} {m m' : ℕ} (h : collect l m = some m') :
    l.Nodup ∧ (∀ x ∈ l, m.testBit x = false) ∧
      ∀ i, m'.testBit i = true ↔ m.testBit i = true ∨ i ∈ l := by
  induction l generalizing m with
  | nil =>
    obtain rfl : m = m' := Option.some.inj h
    simp
  | cons x l ih =>
    rw [collect] at h
    cases hx : m.testBit x with
    | true =>
      rw [hx] at h
      exact absurd h.symm (Option.some_ne_none m')
    | false =>
      rw [hx] at h
      obtain ⟨hnodup, hnew, hbits⟩ := ih h
      have hbit : ∀ i, (m ||| 1 <<< x).testBit i = true ↔ m.testBit i = true ∨ i = x := fun i => by
        rw [Nat.testBit_or, Nat.one_shiftLeft, Nat.testBit_two_pow, Bool.or_eq_true,
          decide_eq_true_iff, eq_comm (a := x)]
      have hnotMem : x ∉ l := fun hmem => by
        have hset := (hbit x).mpr (.inr rfl)
        rw [hnew x hmem] at hset
        exact Bool.false_ne_true hset
      refine ⟨List.nodup_cons.mpr ⟨hnotMem, hnodup⟩, fun y hy => ?_, fun i => ?_⟩
      · rcases List.mem_cons.mp hy with rfl | hy
        · exact hx
        · have hy' := hnew y hy
          rw [Nat.testBit_or, Bool.or_eq_false_iff] at hy'
          exact hy'.1
      · rw [hbits, hbit, List.mem_cons, or_assoc]

/-- The codes of all rows. -/
def collected (P : Permutation) : Option ℕ := collect (P.rows.map fun row => code row.2) 0

/-- All lists of so many numbers below a bound. -/
def words (n : ℕ) : ℕ → List (List ℕ)
  | 0 => [[]]
  | k + 1 => (List.range n).flatMap fun i => (words n k).map (i :: ·)

theorem mem_words {n : ℕ} (l : List ℕ) (h : ∀ i ∈ l, i < n) : l ∈ words n l.length := by
  induction l with
  | nil => exact List.mem_singleton_self []
  | cons i l ih =>
    rw [List.length_cons, words, List.mem_flatMap]
    refine ⟨i, List.mem_range.mpr (h i List.mem_cons_self), List.mem_map.mpr ⟨l, ?_, rfl⟩⟩
    exact ih fun j hj => h j (List.mem_cons_of_mem i hj)

/-- No arguments stand in two rows, and every selection of some length has a row, but for one of
the five fields. -/
theorem collected_spec : ∀ P ∈ permutations, ∃ m ∈ collected P, ∀ k ∈ List.range (P.n + 1),
    ∀ l ∈ words P.n k, l.Nodup → (m.testBit (code l) = true ↔ ¬(P.n = 5 ∧ l = [A, C, E, D, B])) := by
  decide +kernel

/-- The text of a selection is no other selection's. -/
theorem text_inj {l l' : List ℕ} (h : ∀ i ∈ l, i < 5) (h' : ∀ i ∈ l', i < 5)
    (ht : text l = text l') : l = l' := by
  have hletter : ∀ i < 5, (Fin.ofNat 256 (65 + i)).val - 65 = i := by decide
  have hback : ∀ l : List ℕ, (∀ i ∈ l, i < 5) →
      (l.map fun i => Fin.ofNat 256 (65 + i)).map (fun b => b.val - 65) = l := fun l hl => by
    rw [List.map_map]
    exact (List.map_congr_left fun i hi => hletter i (hl i hi)).trans (List.map_id l)
  have hunderscore : ∀ i < 5, Fin.ofNat 256 (65 + i) ≠ underscore := by decide
  unfold text at ht
  by_cases hl : l = [] <;> by_cases hl' : l' = []
  · rw [hl, hl']
  · rw [if_pos hl, if_neg hl'] at ht
    obtain ⟨i, rest, rfl⟩ := List.exists_cons_of_ne_nil hl'
    exact absurd (List.cons.inj ht).1.symm (hunderscore i (h' i List.mem_cons_self))
  · rw [if_neg hl, if_pos hl'] at ht
    obtain ⟨i, rest, rfl⟩ := List.exists_cons_of_ne_nil hl
    exact absurd (List.cons.inj ht).1 (hunderscore i (h i List.mem_cons_self))
  · rw [if_neg hl, if_neg hl'] at ht
    rw [← hback l h, ht, hback l' h']

theorem text_ne_nil (l : List ℕ) : text l ≠ [] := by
  unfold text
  split
  · exact List.cons_ne_nil _ _
  · rwa [ne_eq, List.map_eq_nil_iff]

theorem separator_notMem_text {l : List ℕ} (h : ∀ i ∈ l, i < 5) : separator ∉ text l := by
  have hletter : ∀ i < 5, Fin.ofNat 256 (65 + i) ≠ separator := by decide
  unfold text
  split
  · decide
  · intro hmem
    obtain ⟨i, hi, heq⟩ := List.mem_map.mp hmem
    exact hletter i (h i hi) heq

section Rows

variable {P : Permutation} (hP : P ∈ permutations)

include hP

/-- Which selections have a row. -/
theorem exists_row_iff {selection : List ℕ} (hnodup : selection.Nodup)
    (hlt : ∀ i ∈ selection, i < P.n) :
    (∃ row ∈ P.rows, row.2 = selection) ↔ ¬(P.n = 5 ∧ selection = [A, C, E, D, B]) := by
  obtain ⟨m, hm, hrows⟩ := collected_spec P hP
  obtain ⟨hn, hspec⟩ := rows_spec P hP
  have hlen : selection.length ≤ P.n := by
    have hsub := (hnodup.subperm fun i hi => List.mem_range.mpr (hlt i hi)).length_le
    rw [List.length_range] at hsub
    exact hsub
  have hbits := (collect_spec hm).2.2 (code selection)
  rw [← hrows selection.length (List.mem_range.mpr (Nat.lt_succ_of_le hlen)) selection
    (mem_words selection hlt) hnodup, hbits, Nat.zero_testBit]
  constructor
  · rintro ⟨row, hrow, rfl⟩
    exact .inr (List.mem_map.mpr ⟨row, hrow, rfl⟩)
  · rintro (hzero | hmem)
    · exact absurd hzero Bool.false_ne_true
    · obtain ⟨row, hrow, hcode⟩ := List.mem_map.mp hmem
      exact ⟨row, hrow, code_inj (hspec row hrow).2.1 (fun i hi => (hlt i hi).trans_le hn) hcode⟩

/-- No two rows have the same arguments. -/
theorem rows_pairwise : P.rows.Pairwise fun row row' => row.2 ≠ row'.2 := by
  obtain ⟨m, hm, _⟩ := collected_spec P hP
  have hnodup := List.pairwise_map.mp (collect_spec hm).1
  exact hnodup.imp fun hne heq => hne (congrArg code heq)

end Rows

/-! ## Records -/

/-- What a record is made of: tokens, and one more than there are index fields for the sort
key. -/
structure Accepted (P : Permutation) (keyN keySub : Key) (indexes : List Key) : Prop where
  keyN : valid keyN
  keySub : valid keySub
  length_eq : indexes.length = P.n + 1
  indexes : ∀ x ∈ indexes, valid x

section Record

variable {P : Permutation} {keyN keySub : Key} {indexes : List Key}

theorem indexValue_length_le (h : ∀ x ∈ indexes, valid x) (i : ℕ) :
    (indexValue indexes i).length ≤ INDEX_TOKEN_SIZE := by
  unfold indexValue
  by_cases hi : i < indexes.length
  · rw [List.getD_eq_getElem _ _ hi]
    exact (h _ (List.getElem_mem hi)).2
  · rw [List.getD_eq_default _ _ (Nat.not_lt.mp hi)]
    exact Nat.zero_le _

theorem slots_length {n : ℕ} {args : List ℕ} (h : args.length ≤ n) :
    (slots n args indexes).length = n := by
  rw [slots, List.length_append, List.length_map, List.length_replicate]
  omega

theorem slots_length_le (h : ∀ x ∈ indexes, valid x) (n : ℕ) (args : List ℕ) :
    ∀ s ∈ slots n args indexes, s.length ≤ INDEX_TOKEN_SIZE := by
  intro s hs
  rcases List.mem_append.mp hs with hs | hs
  · obtain ⟨i, _, rfl⟩ := List.mem_map.mp hs
    exact indexValue_length_le h i
  · rw [List.eq_of_mem_replicate hs]
    exact Nat.zero_le _

/-- The octets of some tokens, each with a separator behind it. -/
theorem sum_length_flatMap_le {l : List Key} {b : ℕ} (h : ∀ s ∈ l, s.length ≤ b) :
    (((l.flatMap fun a => [a, [separator]]).map List.length).sum) ≤ l.length * (b + 1) := by
  induction l with
  | nil => exact Nat.zero_le _
  | cons s l ih =>
    have hs := h s List.mem_cons_self
    have hl := ih fun t ht => h t (List.mem_cons_of_mem s ht)
    rw [List.flatMap_cons, List.map_append, List.sum_append, List.length_cons, Nat.succ_mul]
    simp only [List.map_cons, List.map_nil, List.sum_cons, List.sum_nil, List.length_singleton]
    omega

theorem flatten_flatMap (l : List Key) :
    (l.flatMap fun a => [a, [separator]]).flatten = terminated separator l := by
  induction l with
  | nil => rfl
  | cons s l ih =>
    rw [List.flatMap_cons, List.flatten_append, ih]
    simp only [terminated, List.flatMap_cons, List.flatten_cons, List.flatten_nil, List.append_nil,
      List.append_assoc]

/-- The parts of a key are bounded. -/
theorem makeKey_sum_le (hP : P ∈ permutations) (h : Accepted P keyN keySub indexes)
    {row : String × List ℕ} (hrow : row ∈ P.rows) :
    (([keyN, [separator], toKey row.1, [separator]] ++
      ((slots P.n row.2 indexes).flatMap fun a => [a, [separator]]) ++
      [indexValue indexes P.n, [separator], keySub]).map List.length).sum ≤ maxKeySize := by
  obtain ⟨hn, hspec⟩ := rows_spec P hP
  obtain ⟨hlen, _, htext⟩ := hspec row hrow
  have hkeyN := h.keyN.2
  have hkeySub := h.keySub.2
  have hsort := indexValue_length_le h.indexes P.n
  have hslots := sum_length_flatMap_le (slots_length_le h.indexes P.n row.2)
  rw [slots_length hlen] at hslots
  have htextlen : (text row.2).length ≤ 5 := by
    unfold text
    split
    · decide
    · rw [List.length_map]
      exact hlen.trans hn
  simp only [List.map_append, List.sum_append, List.map_cons, List.map_nil, List.sum_cons,
    List.sum_nil, List.length_singleton, htext]
  have hmul := Nat.mul_le_mul_right (INDEX_TOKEN_SIZE + 1) hn
  unfold INDEX_TOKEN_SIZE at *
  unfold maxKeySize
  omega

/-- A key is made of the tokens in its order. -/
theorem makeKey_eq (hP : P ∈ permutations) (h : Accepted P keyN keySub indexes)
    {row : String × List ℕ} (hrow : row ∈ P.rows) :
    makeKey P keyN keySub indexes row = terminated separator
      (keyN :: text row.2 :: (slots P.n row.2 indexes ++ [indexValue indexes P.n])) ++ keySub := by
  obtain ⟨_, _, htext⟩ := (rows_spec P hP).2 row hrow
  rw [makeKey, concatenateBuffer_key (makeKey_sum_le hP h hrow), List.flatten_append, List.flatten_append,
    flatten_flatMap, htext]
  simp only [terminated, List.flatMap_cons, List.flatMap_append, List.flatten_cons,
    List.flatten_nil, List.flatMap_nil, List.append_nil, List.append_assoc]

/-- All keys of a record are valid. -/
theorem isKeyValid_makeKey (hP : P ∈ permutations) (h : Accepted P keyN keySub indexes)
    {row : String × List ℕ} (hrow : row ∈ P.rows) :
    isKeyValid (makeKey P keyN keySub indexes row) := by
  have hsum := makeKey_sum_le hP h hrow
  constructor
  · rw [makeKey_eq hP h hrow, List.length_append]
    have hpos := List.length_pos_of_ne_nil h.keySub.1
    omega
  · rw [makeKey, concatenateBuffer_key hsum, List.length_flatten]
    exact hsum

/-- Rows with different arguments make different keys. -/
theorem makeKey_inj (hP : P ∈ permutations) (h : Accepted P keyN keySub indexes)
    {row row' : String × List ℕ} (hrow : row ∈ P.rows) (hrow' : row' ∈ P.rows)
    (heq : makeKey P keyN keySub indexes row = makeKey P keyN keySub indexes row') :
    row.2 = row'.2 := by
  obtain ⟨_, hlt, _⟩ := (rows_spec P hP).2 row hrow
  obtain ⟨_, hlt', _⟩ := (rows_spec P hP).2 row' hrow'
  rw [makeKey_eq hP h hrow, makeKey_eq hP h hrow'] at heq
  rw [terminated_cons_append, terminated_cons_append, terminated_cons_append,
    terminated_cons_append] at heq
  have hcut := List.cons.inj (List.append_cancel_left heq)
  exact text_inj hlt hlt' (cut_unique (separator_notMem_text hlt) (separator_notMem_text hlt')
    hcut.2).1

/-- `for_each` makes no key twice. -/
theorem forEach_nodup (hP : P ∈ permutations) (h : Accepted P keyN keySub indexes) :
    (forEach P keyN keySub indexes).Nodup := by
  refine List.pairwise_map.mpr ((rows_pairwise hP).imp_of_mem fun hrow hrow' hne heq => ?_)
  exact hne (makeKey_inj hP h hrow hrow' heq)

/-- The values of a query are the first ones of a selection. -/
theorem rangeValues_prefix (txt : Key) (k : ℕ) (args : List Key) :
    rangeValues txt k args <+: args := by
  induction args generalizing k with
  | nil =>
    rw [rangeValues]
  | cons a args ih =>
    cases k with
    | zero =>
      rw [rangeValues]
      split
      · exact List.nil_prefix
      · exact (List.prefix_cons_inj a).mpr (ih 1)
    | succ k =>
      rw [rangeValues]
      split
      · exact List.nil_prefix
      · exact (List.prefix_cons_inj a).mpr (ih (k + 2))

theorem terminated_prefix {ps qs : List Key} (h : ps <+: qs) (s : Key) :
    terminated separator ps <+: terminated separator qs ++ s := by
  obtain ⟨rs, rfl⟩ := h
  rw [terminated_append, List.append_assoc]
  exact List.prefix_append _ _

/-- The prefix of a query for some selection. -/
theorem makeKeyRange_eq (h : Accepted P keyN keySub indexes) {selection : List ℕ}
    (hlen : selection.length ≤ 5) :
    makeKeyRange keyN (text selection) (selection.map (indexValue indexes)) =
      terminated separator (keyN :: text selection ::
        rangeValues (text selection) 0 (selection.map (indexValue indexes))) := by
  have hpre := rangeValues_prefix (text selection) 0 (selection.map (indexValue indexes))
  have hrange := hpre.length_le
  rw [List.length_map] at hrange
  have hkeyN := h.keyN.2
  have hvalues := sum_length_flatMap_le (b := INDEX_TOKEN_SIZE)
    (l := rangeValues (text selection) 0 (selection.map (indexValue indexes))) fun s hs => by
      obtain ⟨i, _, rfl⟩ := List.mem_map.mp (hpre.subset hs)
      exact indexValue_length_le h.indexes i
  have htextlen : (text selection).length ≤ 5 := by
    unfold text
    split
    · decide
    · rw [List.length_map]
      exact hlen
  have hfit : (([keyN, [separator], text selection, [separator]] ++
      ((rangeValues (text selection) 0 (selection.map (indexValue indexes))).flatMap
        fun a => [a, [separator]])).map List.length).sum ≤ bufferKeySize := by
    simp only [List.map_append, List.sum_append, List.map_cons, List.map_nil, List.sum_cons,
      List.sum_nil, List.length_singleton]
    have hmul := Nat.mul_le_mul_right (INDEX_TOKEN_SIZE + 1) (hrange.trans hlen)
    unfold INDEX_TOKEN_SIZE at *
    unfold bufferKeySize maxKeySize
    omega
  rw [makeKeyRange, concatenateBuffer_eq hfit, List.flatten_append, flatten_flatMap]
  simp only [terminated, List.flatMap_cons, List.flatten_cons, List.flatten_nil, List.append_nil,
    List.append_assoc]

/-- A key starts with the prefix of a query only in the row of the query's selection. -/
theorem makeKeyRange_prefix_iff (hP : P ∈ permutations) (h : Accepted P keyN keySub indexes)
    {row : String × List ℕ} (hrow : row ∈ P.rows) {selection : List ℕ}
    (hlt : ∀ i ∈ selection, i < P.n) (hlen : selection.length ≤ P.n) :
    makeKeyRange keyN (text selection) (selection.map (indexValue indexes)) <+:
      makeKey P keyN keySub indexes row ↔ row.2 = selection := by
  obtain ⟨hn, hspec⟩ := rows_spec P hP
  obtain ⟨_, hrowlt, _⟩ := hspec row hrow
  have hlt5 : ∀ i ∈ selection, i < 5 := fun i hi => (hlt i hi).trans_le hn
  rw [makeKey_eq hP h hrow, makeKeyRange_eq h (hlen.trans hn)]
  constructor
  · intro hpre
    rw [terminated_cons, terminated_cons, terminated_cons_append, terminated_cons_append,
      List.prefix_append_right_inj, List.prefix_cons_inj] at hpre
    -- the text and its separator come first
    have hfirst := (List.prefix_append (text selection ++ [separator]) _).trans
      ((List.append_cons (text selection) separator _).symm ▸ hpre)
    exact text_inj hrowlt hlt5
      (cut_initial (separator_notMem_text hlt5) (separator_notMem_text hrowlt) hfirst).symm
  · rintro rfl
    refine terminated_prefix ?_ keySub
    rw [List.prefix_cons_inj, List.prefix_cons_inj]
    have hpre := rangeValues_prefix (text row.2) 0 (row.2.map (indexValue indexes))
    refine hpre.trans ?_
    rw [slots, List.append_assoc]
    exact List.prefix_append _ _

end Record

/-- One of the keys of a record starts with the prefix of a query for an ordered selection of its
values, and no key is made twice, if and only if the selection is not the one that is missing
among those of five fields. -/
theorem forEach_complete_iff {P : Permutation} (hP : P ∈ permutations) {keyN keySub : Key}
    {indexes : List Key} (h : Accepted P keyN keySub indexes) {selection : List ℕ}
    (hnodup : selection.Nodup) (hlt : ∀ i ∈ selection, i < P.n) :
    ((∃ key ∈ forEach P keyN keySub indexes,
      makeKeyRange keyN (text selection) (selection.map (indexValue indexes)) <+: key) ∧
        (forEach P keyN keySub indexes).Nodup) ↔ ¬(P.n = 5 ∧ selection = [A, C, E, D, B]) := by
  have hlen : selection.length ≤ P.n := by
    have hsub := (hnodup.subperm fun i hi => List.mem_range.mpr (hlt i hi)).length_le
    rw [List.length_range] at hsub
    exact hsub
  rw [← exists_row_iff hP hnodup hlt, and_iff_left (forEach_nodup hP h)]
  constructor
  · rintro ⟨key, hkey, hpre⟩
    obtain ⟨row, hrow, rfl⟩ := List.mem_map.mp hkey
    exact ⟨row, hrow, (makeKeyRange_prefix_iff hP h hrow hlt hlen).mp hpre⟩
  · rintro ⟨row, hrow, hsel⟩
    exact ⟨_, List.mem_map.mpr ⟨row, hrow, rfl⟩,
      (makeKeyRange_prefix_iff hP h hrow hlt hlen).mpr hsel⟩

/-- A record with two index fields and a query for the second and the first. -/
theorem forEach_complete_pair :
    (∃ key ∈ forEach permutation2 [110] [115] [[97], [98], [48]],
      makeKeyRange [110] (text [B, A]) ([B, A].map (indexValue [[97], [98], [48]])) <+: key) ∧
        (forEach permutation2 [110] [115] [[97], [98], [48]]).Nodup :=
  (forEach_complete_iff (List.mem_of_getElem? (i := 1) rfl) ⟨by decide, by decide, rfl, by decide⟩ (by decide)
    (by decide)).mpr (by decide)

/-- A query for the fields in the order A, C, E, D, B finds no key. -/
theorem forEach_not_complete : ¬∀ P ∈ permutations, ∀ (keyN keySub : Key) (indexes : List Key),
    Accepted P keyN keySub indexes → ∀ selection : List ℕ, selection.Nodup →
    (∀ i ∈ selection, i < P.n) → (∃ key ∈ forEach P keyN keySub indexes,
      makeKeyRange keyN (text selection) (selection.map (indexValue indexes)) <+: key) ∧
        (forEach P keyN keySub indexes).Nodup := by
  intro hall
  obtain ⟨hfound, _⟩ := hall permutation5 (List.mem_of_getElem? (i := 4) rfl) [110] [115]
    [[97], [98], [99], [100], [101], [48]] ⟨by decide, by decide, rfl, by decide⟩
    [A, C, E, D, B] (by decide) (by decide)
  exact absurd hfound (by decide +kernel)

end HM4.IndexKeys
