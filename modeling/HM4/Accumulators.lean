import HM4.Counter
import HM4.PointPages
import Mathlib.Data.List.Fold

/-!
# Accumulators over ranges

Some commands count the pairs of a range, or tell the sum, the least, the greatest or the average
of their numbers. They walk over the range in pages: an answer holds the result of one page, and
the key from which the next page goes on, or an empty one.
-/

namespace HM4.Accumulators

open LexPrefix Bytes Pairs KeyedList Database RedisProtocol AccumulateResults ScanTails PointPages
open BoundedInt Counter
open RedisResponse (intNumeral)
open Queue (ITERATIONS_LOOPS_MAX)

/-! ## The code -/

/-- `StopRangePredicate`. -/
def StopRangePredicate (last key : Key) : Bool := last < key

/-- `ITERATIONS_LOOPS_MIN`. -/
def ITERATIONS_LOOPS_MIN : ℕ := ITERATIONS_RESULTS_MIN

/-- What the values of a range are gathered in. There is no result where a signed operation
overflows, or divides by zero. -/
structure Accumulator (τ : Type) where
  ONCE : Bool
  State : Type
  data : State
  /-- `operator()`. -/
  operator : State → Key → Option State
  result : State → Option τ

/-- `from_string` of `int64_t`. -/
def number (val : Key) : ℤ := fromStringSigned int64 val 0

/-- `COUNTPredicate`. -/
def COUNTPredicate : Accumulator ℤ where
  ONCE := false
  State := ℤ
  data := 0
  operator data _ := int64.checked (data + 1)
  result := some

/-- `SUMPredicate`. -/
def SUMPredicate : Accumulator ℤ where
  ONCE := false
  State := ℤ
  data := 0
  operator data val := int64.checked (data + number val)
  result := some

/-- `MINPredicate`. -/
def MINPredicate : Accumulator ℤ where
  ONCE := false
  State := ℤ
  data := int64.hi
  operator data val := some (if number val < data then number val else data)
  result := some

/-- `MAXPredicate`. -/
def MAXPredicate : Accumulator ℤ where
  ONCE := false
  State := ℤ
  data := int64.lo
  operator data val := some (if data < number val then number val else data)
  result := some

/-- `FirstLastPredicate_`. -/
def FirstLastPredicate (B : Bool) : Accumulator Key where
  ONCE := B
  State := Key
  data := []
  operator _ val := some val
  result := some

/-- `AVGPredicate`, with its sum and its count. -/
def AVGPredicate : Accumulator ℤ where
  ONCE := false
  State := ℤ × ℤ
  data := (0, 0)
  operator data val := (int64.checked (data.1 + number val)).bind fun sum =>
    (int64.checked (data.2 + 1)).map fun count => (sum, count)
  result data := if data.2 = 0 then none else int64.checked (data.1.tdiv data.2)

section Walk

variable {τ : Type} (acc : Accumulator τ) (maxResults : ℕ) (stop : Key → Bool)
  (alive : Pair → Bool)

/-- `accumulateResults` from a state of its counters on. -/
def accumulateResults (iterations results : ℕ) : List Pair → acc.State → Option (τ × Key)
  | [], s => (acc.result s).map (·, [])
  | p :: it, s =>
    if ITERATIONS_LOOPS_MAX < iterations + 1 then (acc.result s).map (·, p.key)
    else if stop p.key = true then (acc.result s).map (·, [])
    else if ¬alive p = true then accumulateResults (iterations + 1) results it s
    else if maxResults < results + 1 then (acc.result s).map (·, p.key)
    else (acc.operator s p.val).bind fun s' =>
      if acc.ONCE = true then (acc.result s').map (·, [])
      else accumulateResults (iterations + 1) (results + 1) it s'

end Walk

/-- `execCommandSet_` of a number. -/
def execCommandSet (data : ℤ) : Key := RedisResponse.toString (intNumeral data)

section Commands

variable {τ : Type} (acc : Accumulator τ) (set : τ → Key) (stop : Key → Key → Bool) (now : UInt64)
  (db : Db)

/-- `execCommand_`, if all operations are defined. -/
def execCommand_ (key : Key) (count : ℕ) (pre : Key) : Option Reply :=
  (accumulateResults acc count (stop pre) (isOK now) 0 0 (fromKey Pair.key key db) acc.data).map
    fun result => .container [set result.1, result.2]

/-- `execCommandLimit`. -/
def execCommandLimit (p : List Key) : Option Reply :=
  if p.length ≠ 4 then some (.error .NEED_EXACT_PARAMS_3)
  else if p.getD 3 [] = [] then some (.error .EMPTY_PREFIX)
  else execCommand_ acc set stop now db (p.getD 1 [])
    (myClamp (p.getD 2 []) ITERATIONS_LOOPS_MIN ITERATIONS_LOOPS_MAX) (p.getD 3 [])

/-- `execCommand`. -/
def execCommand (p : List Key) : Option Reply :=
  if p.length ≠ 3 then some (.error .NEED_EXACT_PARAMS_2)
  else if p.getD 2 [] = [] then some (.error .EMPTY_PREFIX)
  else execCommand_ acc set stop now db (p.getD 1 []) ITERATIONS_LOOPS_MAX (p.getD 2 [])

end Commands

/-- The commands that answer with a number. -/
inductive Command
  | COUNT
  | SUM
  | XNCOUNT
  | XRCOUNT
  | XNSUM
  | XRSUM
  | XNMIN
  | XRMIN
  | XNMAX
  | XRMAX
  | XNAVG
  | XRAVG
  deriving DecidableEq

/-- `process` of a command. -/
def Command.process (now : UInt64) (p : List Key) (db : Db) : Command → Option Reply
  | COUNT => execCommandLimit COUNTPredicate execCommandSet StopPrefixPredicate now db p
  | SUM => execCommandLimit SUMPredicate execCommandSet StopPrefixPredicate now db p
  | XNCOUNT => execCommand COUNTPredicate execCommandSet StopPrefixPredicate now db p
  | XRCOUNT => execCommand COUNTPredicate execCommandSet StopRangePredicate now db p
  | XNSUM => execCommand SUMPredicate execCommandSet StopPrefixPredicate now db p
  | XRSUM => execCommand SUMPredicate execCommandSet StopRangePredicate now db p
  | XNMIN => execCommand MINPredicate execCommandSet StopPrefixPredicate now db p
  | XRMIN => execCommand MINPredicate execCommandSet StopRangePredicate now db p
  | XNMAX => execCommand MAXPredicate execCommandSet StopPrefixPredicate now db p
  | XRMAX => execCommand MAXPredicate execCommandSet StopRangePredicate now db p
  | XNAVG => execCommand AVGPredicate execCommandSet StopPrefixPredicate now db p
  | XRAVG => execCommand AVGPredicate execCommandSet StopRangePredicate now db p

/-- The commands that answer with a value. -/
inductive ValueCommand
  | XNFIRST
  | XRFIRST
  | XNLAST
  | XRLAST
  deriving DecidableEq

/-- `process` of a command that answers with a value. -/
def ValueCommand.process (now : UInt64) (p : List Key) (db : Db) : ValueCommand → Option Reply
  | XNFIRST => execCommand (FirstLastPredicate true) id StopPrefixPredicate now db p
  | XRFIRST => execCommand (FirstLastPredicate true) id StopRangePredicate now db p
  | XNLAST => execCommand (FirstLastPredicate false) id StopPrefixPredicate now db p
  | XRLAST => execCommand (FirstLastPredicate false) id StopRangePredicate now db p

/-! ## A page -/

section Value

variable {τ : Type} {acc : Accumulator τ}

/-- The result of some values. -/
def Accumulator.over (acc : Accumulator τ) (s : acc.State) (vals : List Key) : Option τ :=
  (vals.foldlM acc.operator s).bind acc.result

/-- A page has the result of its live pairs, and its key is the first one behind the cut. -/
theorem accumulateResults_page {maxResults : ℕ} {stop : Key → Bool} {alive : Pair → Bool}
    {iterations results : ℕ} (honce : acc.ONCE = false)
    (hiterations : iterations ≤ ITERATIONS_LOOPS_MAX) (hresults : results ≤ maxResults)
    (it : List Pair) (s : acc.State) :
    accumulateResults acc maxResults stop alive iterations results it s =
      (acc.over s (((page stop alive (ITERATIONS_LOOPS_MAX - iterations)
        (maxResults - results) it).1.filter alive).map Pair.val)).map
          (·, tailOf (page stop alive (ITERATIONS_LOOPS_MAX - iterations)
            (maxResults - results) it).2) := by
  induction it generalizing iterations results s with
  | nil =>
    rw [accumulateResults, page]
    rfl
  | cons p it ih =>
    rw [accumulateResults]
    by_cases hspent : ITERATIONS_LOOPS_MAX < iterations + 1
    · have hzero : ITERATIONS_LOOPS_MAX - iterations = 0 := by omega
      rw [if_pos hspent, hzero, page]
      rfl
    have hsucc : ITERATIONS_LOOPS_MAX - iterations =
        ITERATIONS_LOOPS_MAX - (iterations + 1) + 1 := by omega
    rw [if_neg hspent, hsucc]
    by_cases hstop : stop p.key = true
    · rw [if_pos hstop, page_of_stop _ _ it hstop]
      rfl
    have hgo := Bool.eq_false_iff.mpr hstop
    rw [if_neg hstop]
    by_cases halive : alive p = true
    · rw [if_neg (not_not.mpr halive)]
      by_cases hfull : maxResults < results + 1
      · have hzero : maxResults - results = 0 := by omega
        rw [if_pos hfull, hzero, page_of_full _ it hgo halive]
        rfl
      · have hmore : maxResults - results = maxResults - (results + 1) + 1 := by omega
        have hnext (s' : acc.State) := @ih (iterations + 1) (results + 1) (by omega)
          (by omega) s'
        rw [if_neg hfull, hmore, page_of_live _ _ it hgo halive]
        dsimp only [ahead]
        rw [List.filter_cons_of_pos halive, List.map_cons, Accumulator.over, List.foldlM_cons]
        simp only [honce, hnext, Bool.false_eq_true, if_false]
        cases acc.operator s p.val <;> rfl
    · have hdead := Bool.eq_false_iff.mpr halive
      rw [if_pos halive, ih (by omega) hresults, page_of_dead _ _ it hgo hdead]
      dsimp only [ahead]
      rw [List.filter_cons_of_neg halive]

end Value

/-! ## The results of numbers -/

/-- What the commands tell of numbers. -/
inductive Kind
  | COUNT
  | SUM
  | MIN
  | MAX
  | AVG
  deriving DecidableEq

namespace Kind

/-- The predicate of a kind. -/
def predicate : Kind → Accumulator ℤ
  | COUNT => COUNTPredicate
  | SUM => SUMPredicate
  | MIN => MINPredicate
  | MAX => MAXPredicate
  | AVG => AVGPredicate

/-- The result of all numbers of a range; the ends of the type for the least and the greatest of
none. -/
def total (l : List ℤ) : Kind → ℤ
  | COUNT => l.length
  | SUM => l.sum
  | MIN => l.foldr min int64.hi
  | MAX => l.foldr max int64.lo
  | AVG => l.sum.tdiv l.length

/-- No sum of the first numbers of a page overflows, and there are numbers to be averaged. -/
def Fits (l : List ℤ) : Kind → Prop
  | COUNT => True
  | SUM => ∀ k, int64.Mem (l.take k).sum
  | MIN => True
  | MAX => True
  | AVG => (∀ k, int64.Mem (l.take k).sum) ∧ l ≠ []

end Kind

/-- The sum of some values. -/
theorem foldlM_sum (s : ℤ) (vals : List Key) :
    vals.foldlM (fun data val => int64.checked (data + number val)) s =
      (vals.map number).foldlM (fun s n => int64.checked (s + n)) s := by
  rw [List.foldlM_map]

/-- The number of some values, as long as a page. -/
theorem foldlM_count {vals : List Key} (hlen : vals.length ≤ ITERATIONS_LOOPS_MAX) :
    vals.foldlM (fun data (_ : Key) => int64.checked (data + 1)) 0 = some (vals.length : ℤ) := by
  have hmap : vals.foldlM (fun data (_ : Key) => int64.checked (data + 1)) 0 =
      (vals.map fun _ => (1 : ℤ)).foldlM (fun s n => int64.checked (s + n)) 0 := by
    rw [List.foldlM_map]
  rw [hmap, List.map_const', Range.foldlM_add_of_mem]
  · simp
  · intro k
    have hloops : ITERATIONS_LOOPS_MAX = 100000 := rfl
    simp only [List.take_replicate, List.sum_replicate, zero_add, nsmul_eq_mul, mul_one]
    constructor
    · change -9223372036854775808 ≤ _
      omega
    · change _ ≤ 9223372036854775807
      omega

/-- Two results that are gathered side by side. -/
theorem foldlM_pair {α β γ : Type} (f : α → γ → Option α) (g : β → γ → Option β) (a : α) (b : β)
    (l : List γ) :
    l.foldlM (fun data x => (f data.1 x).bind fun a => (g data.2 x).map fun b => (a, b)) (a, b) =
      (l.foldlM f a).bind fun a => (l.foldlM g b).map fun b => (a, b) := by
  induction l generalizing a b with
  | nil => rfl
  | cons x l ih =>
    simp only [List.foldlM_cons]
    cases hf : f a x with
    | none => rfl
    | some a' =>
      cases hg : g b x with
      | none => simp
      | some b' => exact ih a' b'

/-- A least or greatest number is gathered from the first number on. -/
theorem foldlM_some_foldr (op : ℤ → ℤ → ℤ) [Std.Commutative op] [Std.Associative op] (s : ℤ)
    (vals : List Key) :
    vals.foldlM (fun data val => some (op (number val) data)) s =
      some ((vals.map number).foldr op s) := by
  have hfold : vals.foldlM (fun data val => some (op (number val) data)) s =
      some (vals.foldl (fun data val => op (number val) data) s) := List.foldlM_pure
  have hcomm : (fun data val => op (number val) data) = fun data val => op data (number val) :=
    funext₂ fun _ _ => Std.Commutative.comm _ _
  rw [hfold, hcomm, ← List.foldl_eq_foldr, List.foldl_map]

theorem min_eq (data n : ℤ) : (if n < data then n else data) = min n data := by
  split <;> omega

theorem max_eq (data n : ℤ) : (if data < n then n else data) = max n data := by
  split <;> omega

/-- The result of values whose numbers fit. -/
theorem Kind.over_of_fits {kind : Kind} {vals : List Key}
    (hlen : vals.length ≤ ITERATIONS_LOOPS_MAX) (h : kind.Fits (vals.map number)) :
    kind.predicate.over kind.predicate.data vals = some (kind.total (vals.map number)) := by
  cases kind with
  | COUNT =>
    change (vals.foldlM (fun data (_ : Key) => int64.checked (data + 1)) (0 : ℤ)).bind some = _
    rw [foldlM_count hlen]
    simp [total]
  | SUM =>
    change (vals.foldlM (fun data val => int64.checked (data + number val)) (0 : ℤ)).bind some = _
    rw [foldlM_sum, Range.foldlM_add_of_mem (by simpa [Fits] using h)]
    simp [total]
  | MIN =>
    change (vals.foldlM (fun data val => some (if number val < data then number val else data))
      int64.hi).bind some = _
    simp only [min_eq]
    rw [foldlM_some_foldr min]
    rfl
  | MAX =>
    change (vals.foldlM (fun data val => some (if data < number val then number val else data))
      int64.lo).bind some = _
    simp only [max_eq]
    rw [foldlM_some_foldr max]
    rfl
  | AVG =>
    obtain ⟨hsums, hne⟩ := h
    have hnone : ((vals.map number).length : ℤ) ≠ 0 := by
      simpa using hne
    have hsum : int64.Mem (vals.map number).sum := by
      have hall := hsums (vals.map number).length
      rwa [List.take_length] at hall
    change (vals.foldlM (fun data val => (int64.checked (data.1 + number val)).bind fun sum =>
      (int64.checked (data.2 + 1)).map fun count => (sum, count)) ((0 : ℤ), (0 : ℤ))).bind
        AVGPredicate.result = _
    rw [foldlM_pair (fun sum val => int64.checked (sum + number val))
      (fun count _ => int64.checked (count + 1)), foldlM_sum, foldlM_count hlen,
      Range.foldlM_add_of_mem (by simpa using hsums), zero_add]
    have hlength : (vals.length : ℤ) = (vals.map number).length := by simp
    rw [hlength]
    change (if ((vals.map number).length : ℤ) = 0 then none
      else int64.checked ((vals.map number).sum.tdiv (vals.map number).length)) = _
    rw [if_neg hnone, Range.checked_of_mem (Range.mem_tdiv hsum _)]
    rfl

/-- There is no result of values whose numbers do not fit. -/
theorem Kind.fits_of_over {kind : Kind} {vals : List Key} {n : ℤ}
    (hlen : vals.length ≤ ITERATIONS_LOOPS_MAX)
    (h : kind.predicate.over kind.predicate.data vals = some n) :
    kind.Fits (vals.map number) := by
  cases kind with
  | COUNT => trivial
  | SUM =>
    change (vals.foldlM (fun data val => int64.checked (data + number val)) (0 : ℤ)).bind some = _
      at h
    rw [Option.bind_fun_some, foldlM_sum] at h
    intro k
    simpa using Range.mem_of_foldlM_add (Range.zero_mem _) h k
  | MIN => trivial
  | MAX => trivial
  | AVG =>
    change (vals.foldlM (fun data val => (int64.checked (data.1 + number val)).bind fun sum =>
      (int64.checked (data.2 + 1)).map fun count => (sum, count)) ((0 : ℤ), (0 : ℤ))).bind
        AVGPredicate.result = _ at h
    rw [foldlM_pair (fun sum val => int64.checked (sum + number val))
      (fun count _ => int64.checked (count + 1)), foldlM_sum, foldlM_count hlen] at h
    obtain ⟨data, hdata, hresult⟩ := Option.bind_eq_some_iff.mp h
    obtain ⟨sum, hsum, hmap⟩ := Option.bind_eq_some_iff.mp hdata
    rw [Option.map_some, Option.some_inj] at hmap
    subst hmap
    constructor
    · intro k
      simpa using Range.mem_of_foldlM_add (Range.zero_mem _) hsum k
    · rintro hnil
      have hzero : (vals.length : ℤ) = 0 := by
        rw [List.map_eq_nil_iff.mp hnil]
        rfl
      change (if (vals.length : ℤ) = 0 then none else _) = some n at hresult
      rw [if_pos hzero] at hresult
      exact nomatch hresult

/-! ## All pages -/

section Pages

variable (stop : Key → Bool) (alive : Pair → Bool) (count : ℕ)

/-- The live pairs of each page, where the next page begins at the cut. -/
inductive Cut : List Pair → List (List Pair) → Prop
  | last {l} (h : (page stop alive ITERATIONS_LOOPS_MAX count l).2 = []) :
      Cut l [(page stop alive ITERATIONS_LOOPS_MAX count l).1.filter alive]
  | next {l p r pages} (h : (page stop alive ITERATIONS_LOOPS_MAX count l).2 = p :: r)
      (hrest : Cut (p :: r) pages) :
      Cut l ((page stop alive ITERATIONS_LOOPS_MAX count l).1.filter alive :: pages)

variable {stop alive count}

/-- The pages come to an end. -/
theorem exists_cut (hcount : 0 < count) (l : List Pair) :
    ∃ pages, Cut stop alive count l pages := by
  obtain ⟨shown, hshows⟩ := @exists_shows (fun _ => stop) alive count hcount [] l
  generalize ([] : Key) = start at hshows
  induction hshows with
  | last h => exact ⟨_, .last h⟩
  | next h _ ih =>
    obtain ⟨pages, hpages⟩ := ih
    exact ⟨_, .next h hpages⟩

/-- Each live pair of the range is in one page. -/
theorem Cut.flatten {l : List Pair} {pages : List (List Pair)} (h : Cut stop alive count l pages) :
    pages.flatten = (front stop l).filter alive := by
  have hshows (start : Key) : Shows (fun _ => stop) alive count start l pages.flatten := by
    induction h generalizing start with
    | last h =>
      rw [List.flatten_singleton]
      exact .last h
    | next h _ ih => exact .next h (ih _)
  exact (hshows []).eq_front

end Pages

/-- The results of a command that is asked again with each key that it answers. -/
inductive Run (query : Key → Option Reply) : Key → List ℤ → Prop
  | last {start n} (h : query start = some (.container [execCommandSet n, []])) :
      Run query start [n]
  | next {start n tail ns} (h : query start = some (.container [execCommandSet n, tail]))
      (hne : tail ≠ []) (hrest : Run query tail ns) : Run query start (n :: ns)

/-- The numbers of some pairs. -/
def numbers (l : List Pair) : List ℤ := l.map fun p => number p.val

/-- A query whose answers are the pages of a kind from a key on. -/
def Answers (kind : Kind) (stop : Key → Bool) (alive : Pair → Bool) (count : ℕ) (db : Db)
    (query : Key → Option Reply) : Prop :=
  ∀ key, query key = (accumulateResults kind.predicate count stop alive 0 0
    (fromKey Pair.key key db) kind.predicate.data).map
      fun result => .container [execCommandSet result.1, result.2]

section Runs

variable {kind : Kind} {stop : Key → Bool} {alive : Pair → Bool} {count : ℕ} {db : Db}
  {query : Key → Option Reply}

theorem once_predicate (kind : Kind) : kind.predicate.ONCE = false := by
  cases kind <;> rfl

theorem numbers_vals (l : List Pair) : (l.map Pair.val).map number = numbers l := by
  rw [List.map_map]
  rfl

theorem length_vals_page (l : List Pair) :
    (((page stop alive ITERATIONS_LOOPS_MAX count l).1.filter alive).map Pair.val).length ≤
      ITERATIONS_LOOPS_MAX := by
  rw [List.length_map]
  exact (List.length_filter_le _ _).trans (length_page _ _ _)

variable (h : Answers kind stop alive count db query) {key : Key} {l : List Pair}
  (hl : l = fromKey Pair.key key db)
include h hl

theorem Answers.eq : query key = (kind.predicate.over kind.predicate.data
    (((page stop alive ITERATIONS_LOOPS_MAX count l).1.filter alive).map Pair.val)).map
      fun n => .container [execCommandSet n,
        tailOf (page stop alive ITERATIONS_LOOPS_MAX count l).2] := by
  rw [h, ← hl, accumulateResults_page (once_predicate kind) (Nat.zero_le _) (Nat.zero_le _),
    Option.map_map]
  rfl

/-- The answer of a page whose numbers fit. -/
theorem Answers.of_fits
    (hfits : kind.Fits (numbers ((page stop alive ITERATIONS_LOOPS_MAX count l).1.filter alive))) :
    query key = some (.container [execCommandSet (kind.total (numbers
      ((page stop alive ITERATIONS_LOOPS_MAX count l).1.filter alive))),
        tailOf (page stop alive ITERATIONS_LOOPS_MAX count l).2]) := by
  rw [← numbers_vals] at hfits ⊢
  rw [h.eq hl, Kind.over_of_fits (length_vals_page l) hfits, Option.map_some]

/-- The numbers of a page that is answered fit. -/
theorem Answers.fits {r : Reply} (hr : query key = some r) :
    kind.Fits (numbers ((page stop alive ITERATIONS_LOOPS_MAX count l).1.filter alive)) ∧
      ∃ n, r = .container [execCommandSet n,
        tailOf (page stop alive ITERATIONS_LOOPS_MAX count l).2] := by
  rw [h.eq hl] at hr
  obtain ⟨n, hn, heq⟩ := Option.map_eq_some_iff.mp hr
  rw [← numbers_vals]
  exact ⟨Kind.fits_of_over (length_vals_page l) hn, n, heq.symm⟩

omit h hl in
theorem next_page (hdb : Increasing Pair.key db) (hl : l = fromKey Pair.key key db) {p : Pair}
    {r : List Pair} (hcut : (page stop alive ITERATIONS_LOOPS_MAX count l).2 = p :: r) :
    p :: r = fromKey Pair.key p.key db :=
  (fromKey_of_append hdb (hl.symm.trans (page_of_cut hcut).1)).1.symm

/-- The results of all pages, if their numbers fit. -/
theorem Cut.run (hdb : Increasing Pair.key db) {pages : List (List Pair)}
    (hcut : Cut stop alive count l pages) (hfits : ∀ page ∈ pages, kind.Fits (numbers page)) :
    Run query key (pages.map fun page => kind.total (numbers page)) := by
  induction hcut generalizing key with
  | last hend =>
    have hq := h.of_fits hl (hfits _ List.mem_cons_self)
    rw [hend] at hq
    exact .last hq
  | next hcut hrest ih =>
    obtain ⟨hfit, hmore⟩ := List.forall_mem_cons.mp hfits
    have hq := h.of_fits hl hfit
    rw [hcut] at hq
    exact .next hq (key_ne_nil _) (ih (next_page hdb hl hcut) hmore)

/-- The numbers of all pages fit if each page has a result. -/
theorem Cut.fits (hdb : Increasing Pair.key db) {pages : List (List Pair)}
    (hcut : Cut stop alive count l pages) {ns : List ℤ} (hrun : Run query key ns) :
    ∀ page ∈ pages, kind.Fits (numbers page) := by
  induction hcut generalizing key ns with
  | last hend =>
    refine List.forall_mem_singleton.mpr ?_
    cases hrun with
    | last hq => exact (h.fits hl hq).1
    | next hq hne hmore => exact (h.fits hl hq).1
  | @next l p r pages hcut hrest ih =>
    cases hrun with
    | last hq =>
      obtain ⟨-, n, heq⟩ := h.fits hl hq
      rw [hcut] at heq
      simp only [Reply.container.injEq, List.cons.injEq, and_true] at heq
      exact absurd heq.2.symm (key_ne_nil p)
    | @next _ _ tail _ hq hne hmore =>
      obtain ⟨hfit, n, heq⟩ := h.fits hl hq
      rw [hcut] at heq
      simp only [Reply.container.injEq, List.cons.injEq, and_true] at heq
      obtain rfl : tail = p.key := heq.2
      exact List.forall_mem_cons.mpr ⟨hfit, ih (next_page hdb hl hcut) hmore⟩

end Runs

/-! ## The commands -/

section Exec

variable {τ : Type} (acc : Accumulator τ) (set : τ → Key) (stop : Key → Key → Bool) (now : UInt64)
  (db : Db) {p : List Key} (key : Key)

theorem getD_set {n : ℕ} (hn : 1 < n) : (p.set 1 key).getD n [] = p.getD n [] := by
  simp [List.getD_eq_getElem?_getD, List.getElem?_set_ne hn.ne]

theorem getD_set_one (hlen : 1 < p.length) : (p.set 1 key).getD 1 [] = key := by
  simp [List.getD_eq_getElem?_getD, List.getElem?_set_self hlen]

theorem execCommand_set (hlen : p.length = 3) (hne : p.getD 2 [] ≠ []) :
    execCommand acc set stop now db (p.set 1 key) =
      execCommand_ acc set stop now db key ITERATIONS_LOOPS_MAX (p.getD 2 []) := by
  have hlength : (p.set 1 key).length = 3 := List.length_set.trans hlen
  rw [execCommand, if_neg (not_not.mpr hlength), getD_set key (by decide), if_neg hne,
    getD_set_one key (by omega)]

theorem execCommandLimit_set (hlen : p.length = 4) (hne : p.getD 3 [] ≠ []) :
    execCommandLimit acc set stop now db (p.set 1 key) =
      execCommand_ acc set stop now db key
        (myClamp (p.getD 2 []) ITERATIONS_LOOPS_MIN ITERATIONS_LOOPS_MAX) (p.getD 3 []) := by
  have hlength : (p.set 1 key).length = 4 := List.length_set.trans hlen
  rw [execCommandLimit, if_neg (not_not.mpr hlength), getD_set key (by decide), if_neg hne,
    getD_set_one key (by omega), getD_set key (by decide)]

end Exec

namespace Command

/-- What a command tells of the numbers. -/
def kind : Command → Kind
  | COUNT => .COUNT
  | SUM => .SUM
  | XNCOUNT => .COUNT
  | XRCOUNT => .COUNT
  | XNSUM => .SUM
  | XRSUM => .SUM
  | XNMIN => .MIN
  | XRMIN => .MIN
  | XNMAX => .MAX
  | XRMAX => .MAX
  | XNAVG => .AVG
  | XRAVG => .AVG

/-- How many parameters a command has. -/
def params : Command → ℕ
  | COUNT => 4
  | SUM => 4
  | _ => 3

/-- Where a command stops. -/
def stop (p : List Key) : Command → Key → Bool
  | COUNT => StopPrefixPredicate (p.getD 3 [])
  | SUM => StopPrefixPredicate (p.getD 3 [])
  | XNCOUNT => StopPrefixPredicate (p.getD 2 [])
  | XRCOUNT => StopRangePredicate (p.getD 2 [])
  | XNSUM => StopPrefixPredicate (p.getD 2 [])
  | XRSUM => StopRangePredicate (p.getD 2 [])
  | XNMIN => StopPrefixPredicate (p.getD 2 [])
  | XRMIN => StopRangePredicate (p.getD 2 [])
  | XNMAX => StopPrefixPredicate (p.getD 2 [])
  | XRMAX => StopRangePredicate (p.getD 2 [])
  | XNAVG => StopPrefixPredicate (p.getD 2 [])
  | XRAVG => StopRangePredicate (p.getD 2 [])

/-- How many pairs a page has room for. -/
def count (p : List Key) : Command → ℕ
  | COUNT => myClamp (p.getD 2 []) ITERATIONS_LOOPS_MIN ITERATIONS_LOOPS_MAX
  | SUM => myClamp (p.getD 2 []) ITERATIONS_LOOPS_MIN ITERATIONS_LOOPS_MAX
  | _ => ITERATIONS_LOOPS_MAX

/-- A command with its parameters, the last of which is not empty. -/
def Valid (p : List Key) (c : Command) : Prop :=
  p.length = c.params ∧ p.getD (c.params - 1) [] ≠ []

/-- The command with a start key. -/
def query (now : UInt64) (p : List Key) (db : Db) (c : Command) (key : Key) : Option Reply :=
  c.process now (p.set 1 key) db

/-- The numbers of all live pairs of the range. -/
def liveNumbers (now : UInt64) (p : List Key) (db : Db) (c : Command) : List ℤ :=
  numbers ((front (c.stop p) (fromKey Pair.key (p.getD 1 []) db)).filter (isOK now))

/-- How results of pages are put together: counts and sums are added, of the least and the greatest
numbers the least and the greatest are taken; an average is the quotient of a sum and a count. -/
def Combines (now : UInt64) (p : List Key) (db : Db) (ns : List ℤ) (all : ℤ) : Command → Prop
  | COUNT => ns.sum = all
  | SUM => ns.sum = all
  | XNCOUNT => ns.sum = all
  | XRCOUNT => ns.sum = all
  | XNSUM => ns.sum = all
  | XRSUM => ns.sum = all
  | XNMIN => ns.foldr min int64.hi = all
  | XRMIN => ns.foldr min int64.hi = all
  | XNMAX => ns.foldr max int64.lo = all
  | XRMAX => ns.foldr max int64.lo = all
  | XNAVG => ∃ sums counts, Run (XNSUM.query now p db) (p.getD 1 []) sums ∧
      Run (XNCOUNT.query now p db) (p.getD 1 []) counts ∧
      ns = List.zipWith Int.tdiv sums counts ∧ sums.sum.tdiv counts.sum = all
  | XRAVG => ∃ sums counts, Run (XRSUM.query now p db) (p.getD 1 []) sums ∧
      Run (XRCOUNT.query now p db) (p.getD 1 []) counts ∧
      ns = List.zipWith Int.tdiv sums counts ∧ sums.sum.tdiv counts.sum = all

/-- All pages are answered, and put together they give the result of the range. -/
def Homomorphic (now : UInt64) (p : List Key) (db : Db) (c : Command) : Prop :=
  ∃ ns, Run (c.query now p db) (p.getD 1 []) ns ∧
    c.Combines now p db ns (c.kind.total (c.liveNumbers now p db))

/-- The numbers of each page fit. -/
def Fits (now : UInt64) (p : List Key) (db : Db) (c : Command) : Prop :=
  ∀ pages, Cut (c.stop p) (isOK now) (c.count p) (fromKey Pair.key (p.getD 1 []) db) pages →
    ∀ page ∈ pages, c.kind.Fits (numbers page)

variable {now : UInt64} {p : List Key} {db : Db} {c : Command}

theorem count_pos (p : List Key) (c : Command) : 0 < c.count p := by
  have hclamp : 0 < myClamp (p.getD 2 []) ITERATIONS_LOOPS_MIN ITERATIONS_LOOPS_MAX := by
    have hmin : ITERATIONS_LOOPS_MIN = 10 := rfl
    have hmax : ITERATIONS_LOOPS_MAX = 100000 := rfl
    unfold myClamp
    omega
  have hmax : 0 < ITERATIONS_LOOPS_MAX := by decide
  cases c <;> first | exact hclamp | exact hmax

/-- The start key aside, the parameters stay. -/
theorem answers (hvalid : c.Valid p) :
    Answers c.kind (c.stop p) (isOK now) (c.count p) db (c.query now p db) := by
  intro key
  obtain ⟨hlen, hne⟩ := hvalid
  cases c with
  | COUNT => exact execCommandLimit_set _ _ _ _ _ _ hlen hne
  | SUM => exact execCommandLimit_set _ _ _ _ _ _ hlen hne
  | _ => exact execCommand_set _ _ _ _ _ _ hlen hne

/-! ## Results of pages and of the range -/

theorem sum_total_count (pages : List (List Pair)) :
    (pages.map fun page => Kind.COUNT.total (numbers page)).sum =
      Kind.COUNT.total (numbers pages.flatten) := by
  induction pages with
  | nil => rfl
  | cons page pages ih =>
    rw [List.map_cons, List.sum_cons, ih]
    simp [Kind.total, numbers]

theorem sum_total_sum (pages : List (List Pair)) :
    (pages.map fun page => Kind.SUM.total (numbers page)).sum =
      Kind.SUM.total (numbers pages.flatten) := by
  induction pages with
  | nil => rfl
  | cons page pages ih =>
    rw [List.map_cons, List.sum_cons, ih]
    simp [Kind.total, numbers]

theorem foldr_total (op : ℤ → ℤ → ℤ) [Std.Associative op] [Std.Commutative op]
    [Std.IdempotentOp op] (s : ℤ) (pages : List (List Pair)) :
    (pages.map fun page => (numbers page).foldr op s).foldr op s =
      (numbers pages.flatten).foldr op s := by
  have hs (l : List ℤ) : op s (l.foldr op s) = l.foldr op s := by
    have hassoc : l.foldr op (op s s) = op (l.foldr op s) s := List.foldr_assoc
    have hidem : op s s = s := Std.IdempotentOp.idempotent s
    have hcomm : op s (l.foldr op s) = op (l.foldr op s) s := Std.Commutative.comm _ _
    rw [hcomm, ← hassoc, hidem]
  induction pages with
  | nil => rfl
  | cons page pages ih =>
    have happend : numbers (page ++ pages.flatten) = numbers page ++ numbers pages.flatten :=
      List.map_append
    have hassoc : (numbers page).foldr op (op s ((numbers pages.flatten).foldr op s)) =
        op ((numbers page).foldr op s) ((numbers pages.flatten).foldr op s) := List.foldr_assoc
    rw [List.map_cons, List.foldr_cons, ih, List.flatten_cons, happend, List.foldr_append,
      ← hassoc, hs]

/-- The averages of pages are the quotients of their sums and counts. -/
theorem averages_of_pages {stop : Key → Bool} {alive : Pair → Bool} {n : ℕ}
    {sum count : Key → Option Reply} (hsum : Answers .SUM stop alive n db sum)
    (hcount : Answers .COUNT stop alive n db count) (hdb : Increasing Pair.key db) {key : Key}
    {pages : List (List Pair)} (hcut : Cut stop alive n (fromKey Pair.key key db) pages)
    (hfits : ∀ page ∈ pages, Kind.AVG.Fits (numbers page)) :
    ∃ sums counts, Run sum key sums ∧ Run count key counts ∧
      (pages.map fun page => Kind.AVG.total (numbers page)) = List.zipWith Int.tdiv sums counts ∧
      sums.sum.tdiv counts.sum = Kind.AVG.total (numbers pages.flatten) := by
  refine ⟨_, _, hcut.run hsum rfl hdb fun page hpage => (hfits page hpage).1,
    hcut.run hcount rfl hdb fun _ _ => trivial, ?_, ?_⟩
  · rw [List.zipWith_map, List.zipWith_self]
    rfl
  · rw [sum_total_sum, sum_total_count]
    rfl

/-- The results of the pages of a command are put together. -/
theorem combines_of_pages {pages : List (List Pair)} (hdb : Increasing Pair.key db)
    (hvalid : c.Valid p)
    (hcut : Cut (c.stop p) (isOK now) (c.count p) (fromKey Pair.key (p.getD 1 []) db) pages)
    (hfits : ∀ page ∈ pages, c.kind.Fits (numbers page)) :
    c.Combines now p db (pages.map fun page => c.kind.total (numbers page))
      (c.kind.total (numbers pages.flatten)) := by
  cases c with
  | COUNT => exact sum_total_count pages
  | SUM => exact sum_total_sum pages
  | XNCOUNT => exact sum_total_count pages
  | XRCOUNT => exact sum_total_count pages
  | XNSUM => exact sum_total_sum pages
  | XRSUM => exact sum_total_sum pages
  | XNMIN => exact foldr_total min _ pages
  | XRMIN => exact foldr_total min _ pages
  | XNMAX => exact foldr_total max _ pages
  | XRMAX => exact foldr_total max _ pages
  | XNAVG =>
    exact averages_of_pages (answers (c := .XNSUM) hvalid) (answers (c := .XNCOUNT) hvalid) hdb
      hcut hfits
  | XRAVG =>
    exact averages_of_pages (answers (c := .XRSUM) hvalid) (answers (c := .XRCOUNT) hvalid) hdb
      hcut hfits

end Command

end HM4.Accumulators
