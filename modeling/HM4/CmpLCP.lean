import HM4.Bytes

/-!
# The blockwise longest-common-prefix comparator

`cmpLCP` walks both keys in words of one to eight octets. It reports the order
of the keys together with the number of octets they share, so that a search can
start its next comparison behind them. Keys of up to 32 shared octets go
through a table of block sizes and longer ones through a loop. An empty side is
reported as equal.
-/

namespace HM4.CmpLCP

open LexPrefix Bytes

/-- The sign of a comparison and the length of the common prefix. -/
structure ResultLCP where
  /-- The sign of the comparison. -/
  cmp : Ordering
  /-- The number of leading octets that are known to be shared. -/
  pref : ℕ
  deriving DecidableEq, Repr

/-- A word of `w` octets loaded at offset `i`. -/
def load (w i : ℕ) (s : Key) : ℕ := leValue ((s.drop i).take w)

/-- `sgn` of the octets at one offset. -/
def sgnAt (a b : Key) (i : ℕ) : Ordering := cmp (byteAt a i) (byteAt b i)

/-- The second loop of `cmpLong`: `n` single octets from offset `i`. -/
def cmpLongBytes (a b : Key) : ℕ → ℕ → ResultLCP
  | 0, i => ⟨.eq, i⟩
  | n + 1, i =>
    if byteAt a i ≠ byteAt b i then ⟨sgnAt a b i, i⟩ else cmpLongBytes a b n (i + 1)

/-- The first loop of `cmpLong`: whole words while eight of `n` octets are left. -/
def cmpLongWords (a b : Key) : ℕ → ℕ → ResultLCP
  | n + 8, i =>
    let xorv := load 8 i a ^^^ load 8 i b
    if xorv ≠ 0 then
      let off := firstDifferentByte xorv
      ⟨sgnAt a b (i + off), i + off⟩
    else
      cmpLongWords a b n (i + 8)
  | n, i => cmpLongBytes a b n i

/-- `cmpLong`: octets compared beyond the switch table. -/
def cmpLong (a b : Key) (size : ℕ) : ResultLCP := cmpLongWords a b size 0

/-- The running state of `comp_::Comp`. -/
structure Comp where
  /-- A different octet has been found. -/
  done : Bool
  /-- The offset of the next block, or of the different octet. -/
  i : ℕ
  /-- The sign found so far. -/
  result : Ordering

/-- `Comp::block<T>` for a word of `w` octets. -/
def block (a b : Key) (c : Comp) (w : ℕ) : Comp :=
  if c.done then c
  else if w = 1 then
    if sgnAt a b c.i ≠ .eq then { c with done := true, result := sgnAt a b c.i }
    else { c with i := c.i + 1 }
  else if load w c.i a ≠ load w c.i b then
    let off := firstDifferentByte (load w c.i a ^^^ load w c.i b)
    { done := true, i := c.i + off, result := sgnAt a b (c.i + off) }
  else
    { c with i := c.i + w }

/-- The block sizes that the switch of `cmpMain` runs for each size. -/
def switchBlocks : ℕ → List ℕ
  | 0 => [] | 1 => [1] | 2 => [2] | 3 => [2, 1] | 4 => [4] | 5 => [4, 1] | 6 => [4, 2]
  | 7 => [4, 2, 1] | 8 => [8] | 9 => [8, 1] | 10 => [8, 2] | 11 => [8, 2, 1] | 12 => [8, 4]
  | 13 => [8, 4, 1] | 14 => [8, 4, 2] | 15 => [8, 4, 2, 1] | 16 => [8, 8] | 17 => [8, 8, 1]
  | 18 => [8, 8, 2] | 19 => [8, 8, 2, 1] | 20 => [8, 8, 4] | 21 => [8, 8, 4, 1]
  | 22 => [8, 8, 4, 2] | 23 => [8, 8, 4, 2, 1] | 24 => [8, 8, 8] | 25 => [8, 8, 8, 1]
  | 26 => [8, 8, 8, 2] | 27 => [8, 8, 8, 2, 1] | 28 => [8, 8, 8, 4] | 29 => [8, 8, 8, 4, 1]
  | 30 => [8, 8, 8, 4, 2] | 31 => [8, 8, 8, 4, 2, 1] | 32 => [8, 8, 8, 8]
  -- `__builtin_unreachable`: larger sizes are taken by `cmpLong`
  | _ => []

/-- `cmpMain`: the first `size` octets, which both keys have. -/
def cmpMain (a b : Key) (size : ℕ) : ResultLCP :=
  if 32 < size then cmpLong a b size
  else
    let c := (switchBlocks size).foldl (block a b) ⟨false, 0, .eq⟩
    ⟨c.result, c.i⟩

/-- `cmpLCP`: shared octets first, then sizes; an empty side counts as equal. -/
def cmpLCP (a b : Key) : ResultLCP :=
  let size := min a.length b.length
  if size = 0 then ⟨.eq, 0⟩
  else
    let x := cmpMain a b size
    if x.cmp ≠ .eq then x else ⟨cmp a.length b.length, size⟩

/-- What a scan of the first `n` octets reports. -/
def scanned (a b : Key) (n : ℕ) : ResultLCP :=
  if lcp a b < n then ⟨lex a b, lcp a b⟩ else ⟨.eq, n⟩

/-- Words loaded behind shared octets differ exactly when the common prefix
ends inside them, and then they show where it ends. -/
theorem load_behind_shared {a b : Key} {w i : ℕ} (hw : w ≤ 8) (hi : i ≤ lcp a b)
    (ha : i + w ≤ a.length) (hb : i + w ≤ b.length) :
    (load w i a = load w i b ↔ i + w ≤ lcp a b) ∧
      (load w i a ≠ load w i b →
        i + firstDifferentByte (load w i a ^^^ load w i b) = lcp a b) := by
  have hshared : lcp a b = i + lcp (a.drop i) (b.drop i) :=
    lcp_drop (take_eq_of_le_lcp hi) (by omega) (by omega)
  have hla : ((a.drop i).take w).length = w := by
    rw [List.length_take, List.length_drop]; omega
  have hlb : ((b.drop i).take w).length = w := by
    rw [List.length_take, List.length_drop]; omega
  have hblock := lcp_take w (a.drop i) (b.drop i)
  have hiff : load w i a = load w i b ↔ i + w ≤ lcp a b := by
    constructor
    · intro h
      have he := leValue_injective (hla.trans hlb.symm) h
      have hle := le_lcp_of_take_eq he (by rw [List.length_drop]; omega)
        (by rw [List.length_drop]; omega)
      omega
    · intro h
      have he : (a.drop i).take w = (b.drop i).take w := take_eq_of_le_lcp (by omega)
      rw [load, load, he]
  refine ⟨hiff, fun hne => ?_⟩
  have hlt : lcp (a.drop i) (b.drop i) < w := by
    by_contra hc
    exact hne (hiff.mpr (by omega))
  have hwords : (a.drop i).take w ≠ (b.drop i).take w := by
    intro he
    exact hne (by rw [load, load, he])
  rw [load, load, firstDifferentByte_xor (hla.trans hlb.symm) (hla.trans_le hw) hwords,
    hblock, hshared]
  omega

/-- Single octets at the end of the common prefix differ and decide. -/
theorem sgnAt_lcp {a b : Key} (ha : lcp a b < a.length) (hb : lcp a b < b.length) :
    sgnAt a b (lcp a b) = lex a b ∧ lex a b ≠ .eq ∧
      byteAt a (lcp a b) ≠ byteAt b (lcp a b) := by
  have h := lex_eq_byteAt ha hb
  refine ⟨h.1.symm, fun he => h.2 ?_, h.2⟩
  rw [lex_eq_eq.mp he]

/-- Single octets inside the common prefix are equal. -/
theorem byteAt_eq_of_lt_lcp {a b : Key} {i : ℕ} (h : i < lcp a b) : byteAt a i = byteAt b i := by
  have ht := take_eq_of_le_lcp (Nat.succ_le_of_lt h)
  have hg := congrArg (fun s : Key => s.getD i 0) ht
  have ha : i < a.length := h.trans_le (lcp_le_left a b)
  have hb : i < b.length := h.trans_le (lcp_le_right a b)
  simpa [byteAt, List.getD_eq_getElem?_getD, List.getElem?_take] using hg

/-- The byte loop scans the octets it is given. -/
theorem cmpLongBytes_eq {a b : Key} {n i : ℕ} (hi : i ≤ lcp a b) (ha : i + n ≤ a.length)
    (hb : i + n ≤ b.length) : cmpLongBytes a b n i = scanned a b (i + n) := by
  induction n generalizing i with
  | zero => rw [cmpLongBytes, scanned, if_neg (by omega), Nat.add_zero]
  | succ n ih =>
    rw [cmpLongBytes]
    rcases Nat.eq_or_lt_of_le hi with he | hlt
    · have hs := sgnAt_lcp (a := a) (b := b) (by omega) (by omega)
      rw [he, if_pos hs.2.2, scanned, if_pos (by omega), hs.1]
    · rw [if_neg (not_not.mpr (byteAt_eq_of_lt_lcp hlt)), ih hlt (by omega) (by omega)]
      congr 1
      omega

/-- The word loop scans the octets it is given. -/
theorem cmpLongWords_eq {a b : Key} {n i : ℕ} (hi : i ≤ lcp a b) (ha : i + n ≤ a.length)
    (hb : i + n ≤ b.length) : cmpLongWords a b n i = scanned a b (i + n) := by
  fun_induction cmpLongWords a b n i with
  | case1 n i xorv hne off =>
    have hw := load_behind_shared (le_refl 8) hi (by omega) (by omega)
    have hl : load 8 i a ≠ load 8 i b := fun h => hne (Nat.xor_eq_zero_iff.mpr h)
    have hlt : ¬ i + 8 ≤ lcp a b := fun h => hl (hw.1.mpr h)
    have hs := sgnAt_lcp (a := a) (b := b) (by omega) (by omega)
    have hoff : i + off = lcp a b := hw.2 hl
    rw [hoff, hs.1, scanned, if_pos (by omega)]
  | case2 n i xorv heq ih =>
    have hw := load_behind_shared (le_refl 8) hi (by omega) (by omega)
    have hl : load 8 i a = load 8 i b := Nat.xor_eq_zero_iff.mp (not_not.mp heq)
    rw [ih (hw.1.mp hl) (by omega) (by omega)]
    congr 1
    omega
  | case3 n i => exact cmpLongBytes_eq hi ha hb

/-- The state of the block walk once `n` octets have been taken. -/
def walked (a b : Key) (n : ℕ) : Comp :=
  if lcp a b < n then ⟨true, lcp a b, lex a b⟩ else ⟨false, n, .eq⟩

/-- A block of one, two, four or eight octets extends the walk. -/
theorem block_walked {a b : Key} {n w : ℕ} (hw : 0 < w ∧ w ≤ 8) (ha : n + w ≤ a.length)
    (hb : n + w ≤ b.length) : block a b (walked a b n) w = walked a b (n + w) := by
  by_cases hn : lcp a b < n
  · rw [walked, if_pos hn, walked, if_pos (by omega)]
    rfl
  · have hload := load_behind_shared hw.2 (Nat.not_lt.mp hn) ha hb
    rw [walked, if_neg hn, block]
    simp only [Bool.false_eq_true, if_false]
    by_cases hlt : lcp a b < n + w
    · have hs := sgnAt_lcp (a := a) (b := b) (by omega) (by omega)
      rw [walked, if_pos hlt]
      split
      · next h1 =>
        have hlcp : lcp a b = n := by omega
        rw [← hlcp, hs.1, if_pos hs.2.1]
      · have hne : load w n a ≠ load w n b := fun h => by
          have hle := hload.1.mp h
          omega
        rw [if_pos hne, hload.2 hne, hs.1]
    · rw [walked, if_neg hlt]
      split
      · next h1 =>
        have hin : n < lcp a b := by omega
        have he : sgnAt a b n = .eq := by
          rw [sgnAt, byteAt_eq_of_lt_lcp hin, cmp_self_eq_eq]
        rw [he, if_neg (fun h => h rfl), h1]
      · rw [hload.1.mpr (Nat.not_lt.mp hlt), if_neg (fun h => h rfl)]

/-- A run of blocks extends the walk by their sizes. -/
theorem foldl_block_walked {a b : Key} (ws : List ℕ) (hws : ∀ w ∈ ws, 0 < w ∧ w ≤ 8) {n : ℕ}
    (ha : n + ws.sum ≤ a.length) (hb : n + ws.sum ≤ b.length) :
    ws.foldl (block a b) (walked a b n) = walked a b (n + ws.sum) := by
  induction ws generalizing n with
  | nil => rfl
  | cons w ws ih =>
    rw [List.sum_cons] at ha hb ⊢
    rw [List.foldl_cons, block_walked (hws w List.mem_cons_self) (by omega) (by omega),
      ih (fun v hv => hws v (List.mem_cons_of_mem w hv)) (by omega) (by omega), Nat.add_assoc]

/-- Every row of the switch table adds up to its size. -/
theorem switchBlocks_sum : ∀ size < 33, (switchBlocks size).sum = size ∧
    ∀ w ∈ switchBlocks size, 0 < w ∧ w ≤ 8 := by
  decide

/-- Both ways of `cmpMain` scan the shared octets. -/
theorem cmpMain_eq {a b : Key} {size : ℕ} (ha : size ≤ a.length) (hb : size ≤ b.length) :
    cmpMain a b size = scanned a b size := by
  unfold cmpMain
  split
  · rw [cmpLong, cmpLongWords_eq (Nat.zero_le _) (by omega) (by omega), Nat.zero_add]
  · next h =>
    have hrow := switchBlocks_sum size (by omega)
    have hwalk := foldl_block_walked (switchBlocks size) hrow.2 (n := 0) (a := a) (b := b)
      (by omega) (by omega)
    have hstart : walked a b 0 = ⟨false, 0, .eq⟩ := if_neg (Nat.not_lt_zero _)
    rw [hstart, hrow.1, Nat.zero_add] at hwalk
    rw [hwalk, walked, scanned]
    dsimp only
    split <;> rfl

/-- Between nonempty keys `cmpLCP` reports the order of octets and the common prefix. -/
theorem cmpLCP_eq {a b : Key} (ha : a ≠ []) (hb : b ≠ []) :
    cmpLCP a b = ⟨lex a b, lcp a b⟩ := by
  have hla := List.length_pos_of_ne_nil ha
  have hlb := List.length_pos_of_ne_nil hb
  have hpa := lcp_le_left a b
  have hpb := lcp_le_right a b
  unfold cmpLCP
  dsimp only
  rw [if_neg (by omega), cmpMain_eq (min_le_left _ _) (min_le_right _ _), scanned]
  by_cases h : lcp a b < min a.length b.length
  · have hs := sgnAt_lcp (a := a) (b := b) (by omega) (by omega)
    rw [if_pos h, if_pos hs.2.1]
  · have he : min a.length b.length = lcp a b := by omega
    rw [if_neg h, if_neg (fun hc => hc rfl), he, lex_eq_cmp_length he.le]

/-- An empty side makes `cmpLCP` report equality. -/
theorem cmpLCP_of_nil {a b : Key} (h : a = [] ∨ b = []) : cmpLCP a b = ⟨.eq, 0⟩ := by
  unfold cmpLCP
  dsimp only
  rw [if_pos]
  rcases h with rfl | rfl <;> simp

/-- `cmpLCP` from an offset; `substr` throws when a key is shorter than it. -/
def cmpLCPFrom (a b : Key) (start : ℕ) : Option ResultLCP :=
  if start ≤ a.length ∧ start ≤ b.length then some (cmpLCP (a.drop start) (b.drop start))
  else none

end HM4.CmpLCP
