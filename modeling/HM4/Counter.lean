import HM4.Database
import HM4.RedisResponse
import HM4.General.BoundedInt

/-!
# Counters

`INCR` and `DECR` read the value of a key as a number, add to it or subtract from it, and write
the numeral of the result. The number stops at the ends of its type.
-/

namespace HM4.Counter

open Bytes Pairs PairFactory Database RedisProtocol RedisResponse BoundedInt

/-! ## The code -/

/-- `safe_overflow::incr`. -/
def incr (T : Range) (a x : ℤ) : Option ℤ :=
  if 0 < x then
    (T.checked (T.hi - x)).bind fun m => if m < a then some T.hi else T.checked (a + x)
  else if x < 0 then
    (T.checked (T.lo - x)).bind fun m => if a < m then some T.lo else T.checked (a + x)
  else T.checked (a + x)

/-- `safe_overflow::decr`. -/
def decr (T : Range) (a x : ℤ) : Option ℤ :=
  if x < 0 then
    (T.checked (T.hi + x)).bind fun m => if m < a then some T.hi else T.checked (a - x)
  else if 0 < x then
    (T.checked (T.lo + x)).bind fun m => if a < m then some T.lo else T.checked (a - x)
  else T.checked (a - x)

theorem int64_lo_nonpos : (-9223372036854775808 : ℤ) ≤ 0 := by decide

theorem int64_hi_nonneg : (0 : ℤ) ≤ 9223372036854775807 := by decide

/-- `int64_t`. -/
def int64 : Range :=
  ⟨-9223372036854775808, 9223372036854775807, int64_lo_nonpos, int64_hi_nonneg⟩

/-- `from_string` of a signed type: a sign and the digits behind it, or the default value if there
are no digits or too many. -/
def fromStringSigned (T : Range) (s : Key) (default : ℤ) : ℤ :=
  let negative := s.head? = some minus
  let ds := (if negative then s.tail else s).takeWhile isDigit
  let n : ℤ := if negative then -(numberOf ds : ℤ) else numberOf ds
  if ds = [] then default else if T.Mem n then n else default

/-- What the commands answer. -/
inductive Answer
  | error (message : ErrorMessage)
  | numberSV (n : Key)
  deriving DecidableEq

/-- `do_incr_decr`, as far as no signed operation overflows. -/
def doIncrDecr (sign : ℤ) (now : UInt64) (w : Write) (p : List Key) (db : Db) :
    Option (Answer × Db) :=
  if p.length ≠ 2 ∧ p.length ≠ 3 then some (.error .NEED_EXACT_PARAMS_12, db)
  else
    let key := p.getD 1 []
    if ¬isKeyValid key then some (.error .EMPTY_KEY, db)
    else
      let nx := if p.length = 3 then fromStringSigned int64 (p.getD 2 []) 0 else 1
      (int64.checked (sign * nx)).bind fun n =>
        match getPairPtr now key db with
        | some it =>
          let n1 := n
          let n2 := fromStringSigned int64 it.val 0
          (incr int64 n1 n2).map fun nResult =>
            let val := RedisResponse.toString (intNumeral nResult)
            (.numberSV val, insertHint w.owned it (normal key val 0 0) w.now db)
        | none =>
          let val := RedisResponse.toString (intNumeral n)
          some (.numberSV val, Database.insert w key val db)

/-- The commands: `INCR` and `INCRBY` are one, and `DECR` and `DECRBY`. -/
inductive Command
  | INCR
  | DECR
  deriving DecidableEq

/-- The template parameter `Sign`. -/
def Command.sign : Command → ℤ
  | INCR => 1
  | DECR => -1

/-- `process` of a command. -/
def Command.process (cmd : Command) : UInt64 → Write → List Key → Db → Option (Answer × Db) :=
  doIncrDecr cmd.sign

/-! ## Saturating operations -/

variable {T : Range} {a x : ℤ}

/-- An addition stops at the ends of the type, and no operation on the way overflows. -/
theorem incr_eq (ha : T.Mem a) (hx : T.Mem x) : incr T a x = some (T.clamp (a + x)) := by
  have hlo := T.lo_nonpos
  have hhi := T.hi_nonneg
  obtain ⟨ha₁, ha₂⟩ := ha
  obtain ⟨hx₁, hx₂⟩ := hx
  unfold incr
  by_cases hpos : 0 < x
  · rw [if_pos hpos, Range.checked_of_mem (by constructor <;> omega), Option.bind_some]
    by_cases hover : T.hi - x < a
    · rw [if_pos hover, Range.clamp_of_gt (by omega)]
    · have hmem : T.Mem (a + x) := by constructor <;> omega
      rw [if_neg hover, Range.checked_of_mem hmem, Range.clamp_of_mem hmem]
  · rw [if_neg hpos]
    by_cases hneg : x < 0
    · rw [if_pos hneg, Range.checked_of_mem (by constructor <;> omega), Option.bind_some]
      by_cases hunder : a < T.lo - x
      · rw [if_pos hunder, Range.clamp_of_lt (by omega)]
      · have hmem : T.Mem (a + x) := by constructor <;> omega
        rw [if_neg hunder, Range.checked_of_mem hmem, Range.clamp_of_mem hmem]
    · have hmem : T.Mem (a + x) := by constructor <;> omega
      rw [if_neg hneg, Range.checked_of_mem hmem, Range.clamp_of_mem hmem]

/-- So does a subtraction, also of the least number, which has no opposite in its type. -/
theorem decr_eq (ha : T.Mem a) (hx : T.Mem x) : decr T a x = some (T.clamp (a - x)) := by
  have hlo := T.lo_nonpos
  have hhi := T.hi_nonneg
  obtain ⟨ha₁, ha₂⟩ := ha
  obtain ⟨hx₁, hx₂⟩ := hx
  unfold decr
  by_cases hneg : x < 0
  · rw [if_pos hneg, Range.checked_of_mem (by constructor <;> omega), Option.bind_some]
    by_cases hover : T.hi + x < a
    · rw [if_pos hover, Range.clamp_of_gt (by omega)]
    · have hmem : T.Mem (a - x) := by constructor <;> omega
      rw [if_neg hover, Range.checked_of_mem hmem, Range.clamp_of_mem hmem]
  · rw [if_neg hneg]
    by_cases hpos : 0 < x
    · rw [if_pos hpos, Range.checked_of_mem (by constructor <;> omega), Option.bind_some]
      by_cases hunder : a < T.lo + x
      · rw [if_pos hunder, Range.clamp_of_lt (by omega)]
      · have hmem : T.Mem (a - x) := by constructor <;> omega
        rw [if_neg hunder, Range.checked_of_mem hmem, Range.clamp_of_mem hmem]
    · have hmem : T.Mem (a - x) := by constructor <;> omega
      rw [if_neg hpos, Range.checked_of_mem hmem, Range.clamp_of_mem hmem]

/-! ## Numerals -/

/-- What is read is a number of the type. -/
theorem fromStringSigned_mem (s : Key) {default : ℤ} (h : T.Mem default) :
    T.Mem (fromStringSigned T s default) := by
  unfold fromStringSigned
  dsimp only
  split_ifs
  all_goals assumption

theorem takeWhile_numeral (n : ℕ) : (numeral n).takeWhile isDigit = numeral n :=
  List.takeWhile_eq_self_iff.mpr (isDigit_numeral n)

theorem head?_numeral_ne (n : ℕ) : (numeral n).head? ≠ some minus := by
  intro h
  have hdigit := isDigit_numeral n minus (List.mem_of_mem_head? h)
  exact absurd hdigit (by decide)

/-- A number is read back from its numeral. -/
theorem fromStringSigned_intNumeral {n : ℤ} (h : T.Mem n) (default : ℤ) :
    fromStringSigned T (intNumeral n) default = n := by
  unfold fromStringSigned intNumeral
  dsimp only
  by_cases hneg : n < 0
  · have hn : -(n.natAbs : ℤ) = n := by omega
    rw [if_pos hneg, List.head?_cons, if_pos rfl, if_pos rfl, List.tail_cons, takeWhile_numeral,
      numberOf_numeral, if_neg (numeral_ne_nil _), hn, if_pos h]
  · have hn : (n.natAbs : ℤ) = n := by omega
    rw [if_neg hneg, if_neg (head?_numeral_ne _), if_neg (head?_numeral_ne _), takeWhile_numeral,
      numberOf_numeral, if_neg (numeral_ne_nil _), hn, if_pos h]

/-- The buffer has room for the numerals of the type. -/
theorem toString_of_mem {n : ℤ} (h : int64.Mem n) :
    RedisResponse.toString (intNumeral n) = intNumeral n := by
  obtain ⟨hlow, hhigh⟩ := h
  change -9223372036854775808 ≤ n at hlow
  change n ≤ 9223372036854775807 at hhigh
  have hlen : (numeral n.natAbs).length ≤ 20 := numeral_length_le (by omega)
  refine if_pos (le_trans ?_ (by decide : 21 ≤ toStringBufferSize))
  unfold intNumeral
  split
  · exact Nat.succ_le_succ hlen
  · exact Nat.le_succ_of_le hlen

theorem intNumeral_ne_nil (n : ℤ) : intNumeral n ≠ [] := by
  unfold intNumeral
  split
  · exact List.cons_ne_nil _ _
  · exact numeral_ne_nil _

/-! ## The commands -/

/-- The number that a key holds; a key without a value counts as zero. -/
def stored (now : UInt64) (db : Db) (key : Key) : ℤ :=
  match holds now db key with
  | none => 0
  | some val => fromStringSigned int64 val 0

/-- The number that is added or subtracted. -/
def argument (arg : Option Key) : ℤ :=
  match arg with
  | none => 1
  | some text => fromStringSigned int64 text 0

theorem stored_mem (now : UInt64) (db : Db) (key : Key) : int64.Mem (stored now db key) := by
  unfold stored
  split
  · exact int64.zero_mem
  · exact fromStringSigned_mem _ int64.zero_mem

theorem argument_mem (arg : Option Key) : int64.Mem (argument arg) := by
  unfold argument
  split
  · decide
  · exact fromStringSigned_mem _ int64.zero_mem

/-- The result of a command without bounds on the numbers. -/
def ideal (cmd : Command) (now : UInt64) (db : Db) (key : Key) (arg : Option Key) : ℤ :=
  match cmd with
  | .INCR => stored now db key + argument arg
  | .DECR => stored now db key - argument arg

/-- A command answers with the number that is next to the ideal result in its type, and the text
that it stores reads as that number; nothing else changes. -/
def Saturates (cmd : Command) (now : UInt64) (w : Write) (c key : Key) (arg : Option Key)
    (db : Db) : Prop :=
  ∃ (val : Key) (db' : Db), cmd.process now w (c :: key :: arg.toList) db =
      some (.numberSV val, db') ∧
    fromStringSigned int64 val 0 = int64.clamp (ideal cmd now db key arg) ∧
    ∀ t, holds t db' = Function.update (holds t db) key (some val)

section Process

variable {cmd : Command} {now : UInt64} {w : Write} {c key : Key} {arg : Option Key} {db : Db}

/-- The sign and the argument are multiplied; then the key is looked up. -/
theorem process_eq (hk : isKeyValid key) (cmd : Command) (now : UInt64) (w : Write) (c : Key)
    (arg : Option Key) (db : Db) :
    cmd.process now w (c :: key :: arg.toList) db =
      (int64.checked (cmd.sign * argument arg)).bind fun n =>
        match getPairPtr now key db with
        | some it =>
          (incr int64 n (fromStringSigned int64 it.val 0)).map fun nResult =>
            (.numberSV (RedisResponse.toString (intNumeral nResult)),
              insertHint w.owned it
                (normal key (RedisResponse.toString (intNumeral nResult)) 0 0) w.now db)
        | none => some (.numberSV (RedisResponse.toString (intNumeral n)),
            Database.insert w key (RedisResponse.toString (intNumeral n)) db) := by
  have hsize : ¬((c :: key :: arg.toList).length ≠ 2 ∧ (c :: key :: arg.toList).length ≠ 3) := by
    cases arg <;> simp
  unfold Command.process doIncrDecr
  rw [if_neg hsize]
  dsimp only
  rw [if_neg (not_not.mpr (show isKeyValid ((c :: key :: arg.toList).getD 1 []) from hk))]
  cases arg with
  | none => rfl
  | some text => rfl

/-- Only the least number has no opposite in its type. -/
theorem checked_sign_mul {n : ℤ} (hn : int64.Mem n) :
    int64.checked (cmd.sign * n) =
      if cmd = .DECR ∧ n = int64.lo then none else some (cmd.sign * n) := by
  have hlo : int64.lo = -9223372036854775808 := rfl
  have hhi : int64.hi = 9223372036854775807 := rfl
  obtain ⟨hn₁, hn₂⟩ := hn
  rw [hlo] at hn₁
  rw [hhi] at hn₂
  cases cmd with
  | INCR =>
    have hmem : int64.Mem (Command.INCR.sign * n) := by
      rw [Range.Mem, hlo, hhi, Command.sign]
      omega
    rw [Range.checked_of_mem hmem, if_neg fun h => nomatch h.1]
  | DECR =>
    by_cases hmin : n = int64.lo
    · have hmem : ¬int64.Mem (Command.DECR.sign * n) := by
        rw [Range.Mem, hlo, hhi, Command.sign, hmin, hlo]
        omega
      rw [Range.checked_eq_none hmem, if_pos ⟨rfl, hmin⟩]
    · have hmem : int64.Mem (Command.DECR.sign * n) := by
        rw [hlo] at hmin
        rw [Range.Mem, hlo, hhi, Command.sign]
        omega
      rw [Range.checked_of_mem hmem, if_neg fun h => hmin h.2]

theorem ideal_eq (cmd : Command) (now : UInt64) (db : Db) (key : Key) (arg : Option Key) :
    ideal cmd now db key arg = cmd.sign * argument arg + stored now db key := by
  cases cmd with
  | INCR => rw [ideal, Command.sign]; omega
  | DECR => rw [ideal, Command.sign]; omega

/-- The numeral of a number of the type is a value for the pair. -/
theorem isValValid_intNumeral {n : ℤ} (h : int64.Mem n) : isValValid (intNumeral n) := by
  have hlen : (intNumeral n).length ≤ toStringBufferSize := by
    have heq := toString_of_mem h
    unfold RedisResponse.toString at heq
    by_contra hlong
    rw [if_neg hlong] at heq
    rw [← heq] at hlong
    exact hlong (by decide)
  exact hlen.trans (by decide)

/-- A value that is written in place of a pair of the key is held as one that is inserted. -/
theorem holds_insertHint (hk : isKeyValid key) {val : Key} (hv : isValValid val) (hne : val ≠ [])
    {it : Pair} (hit : it.key = key) (w : Write) (t : UInt64) (db : Db) :
    holds t (insertHint w.owned it (normal key val 0 0) w.now db) =
      Function.update (holds t db) key (some val) := by
  have hvalid : (normal key val 0 0).valid = true := decide_eq_true ⟨hk, hv⟩
  have hhint := fun (old : Pair) (hold : old.key = key) => normal_createHint w.now hvalid hold
  rw [insertHint_eq w.now w.owned hvalid rfl hhint hit,
    ← insertF_eq w.owned hvalid rfl hhint]
  exact holds_insert hk hv hne w t db

end Process

/-- `INCR` and `DECR` saturate, for all values and arguments, exactly unless the least number is to
be subtracted: its sign is changed before the subtraction, and that overflows. -/
theorem saturates_iff (cmd : Command) (now : UInt64) (w : Write) (c : Key) {key : Key}
    (hk : isKeyValid key) (arg : Option Key) (db : Db) :
    Saturates cmd now w c key arg db ↔ ¬(cmd = .DECR ∧ argument arg = int64.lo) := by
  have hprocess := process_eq hk cmd now w c arg db
  have harg := argument_mem arg
  rw [checked_sign_mul harg] at hprocess
  constructor
  · rintro ⟨val, db', hrun, -⟩ hmin
    rw [hprocess, if_pos hmin] at hrun
    exact nomatch hrun
  · intro hmin
    rw [if_neg hmin, Option.bind_some] at hprocess
    have hmem : int64.Mem (cmd.sign * argument arg) := by
      by_contra hnot
      have hchecked : int64.checked (cmd.sign * argument arg) = _ := checked_sign_mul harg
      rw [Range.checked_eq_none hnot, if_neg hmin] at hchecked
      exact nomatch hchecked
    have hclamp := int64.clamp_mem (ideal cmd now db key arg)
    refine ⟨intNumeral (int64.clamp (ideal cmd now db key arg)), ?_⟩
    cases hget : getPairPtr now key db with
    | some it =>
      have hstored : stored now db key = fromStringSigned int64 it.val 0 := by
        rw [stored, holds, hget, Option.map_some]
      have hincr := incr_eq hmem (stored_mem now db key)
      rw [← ideal_eq, hstored] at hincr
      rw [hget] at hprocess
      dsimp only at hprocess
      rw [hincr, Option.map_some, toString_of_mem hclamp] at hprocess
      exact ⟨_, hprocess, fromStringSigned_intNumeral hclamp 0, fun t => holds_insertHint hk
        (isValValid_intNumeral hclamp) (intNumeral_ne_nil _) (getPairPtr_key hget) w t db⟩
    | none =>
      have hstored : stored now db key = 0 := by
        rw [stored, holds, hget, Option.map_none]
      have hideal : int64.clamp (ideal cmd now db key arg) = cmd.sign * argument arg := by
        rw [ideal_eq, hstored, add_zero, Range.clamp_of_mem hmem]
      rw [hget] at hprocess
      dsimp only at hprocess
      rw [← hideal, toString_of_mem hclamp] at hprocess
      exact ⟨_, hprocess, fromStringSigned_intNumeral hclamp 0, fun t => holds_insert hk
        (isValValid_intNumeral hclamp) (intNumeral_ne_nil _) w t db⟩

/-- `INCR k` of an empty list. -/
theorem saturates_incr :
    Saturates .INCR 0 ⟨true, true, 0⟩ [105] [107] none [] ↔
      ¬(Command.INCR = .DECR ∧ argument none = int64.lo) :=
  saturates_iff .INCR 0 ⟨true, true, 0⟩ [105] (by decide) none []

/-- `DECRBY k -9223372036854775808` of a key that holds zero: the result would be the largest
number. -/
theorem least_not_subtracted :
    ideal .DECR 0 (Database.insert ⟨true, true, 0⟩ [107] [48] []) [107]
        (some (intNumeral int64.lo)) = int64.hi + 1 ∧
      ¬Saturates .DECR 0 ⟨true, true, 0⟩ [100] [107] (some (intNumeral int64.lo))
        (Database.insert ⟨true, true, 0⟩ [107] [48] []) := by
  have harg : argument (some (intNumeral int64.lo)) = int64.lo :=
    fromStringSigned_intNumeral ⟨le_rfl, by decide⟩ 0
  have hstored : stored 0 (Database.insert ⟨true, true, 0⟩ [107] [48] []) [107] = 0 := by
    have hholds : holds 0 (Database.insert ⟨true, true, 0⟩ [107] [48] []) = _ :=
      holds_insert (by decide) (by decide) (by decide) ⟨true, true, 0⟩ 0 []
    rw [stored, hholds, Function.update_self]
    decide
  refine ⟨?_, fun ⟨val, db', hrun, _⟩ => ?_⟩
  · rw [ideal, hstored, harg]
    decide
  · rw [process_eq (by decide), checked_sign_mul (argument_mem _), if_pos ⟨rfl, harg⟩] at hrun
    exact nomatch hrun

end HM4.Counter
