import HM4.Autocomplete

/-!
# The iterator over characters

The tokenizer goes on by as many octets as the first octet of a character announces, also where the
string ends before: there it shows one octet, and is behind the end afterwards. The end is found only
if the position is the size of the string.
-/

namespace HM4.UTF8Tokenizer

open Bytes Database Autocomplete

/-- `UTF8Tokenizer::Iterator`. -/
structure Iterator where
  s_ : Key
  c_ : Key
  p_ : ℕ

namespace Iterator

variable (it : Iterator)

/-- `getCurrentCharLen_`, which is called inside the string only. -/
def getCurrentCharLen : ℕ := getCharLen (it.s_.getD it.p_ 0)

/-- `updateCurrent_`. -/
def updateCurrent : Iterator :=
  if it.p_ < it.s_.length then
    let len1 := it.getCurrentCharLen
    let len := if it.s_.length < it.p_ + len1 then 1 else len1
    { it with c_ := (it.s_.drop it.p_).take len }
  else it

/-- The constructor. -/
def create (s : Key) (pos : ℕ) : Iterator := updateCurrent ⟨s, [], pos⟩

/-- `operator++`. -/
def next : Iterator :=
  if it.p_ < it.s_.length then updateCurrent { it with p_ := it.p_ + it.getCurrentCharLen } else it

end Iterator

/-- The iterator that starts with `begin()` after some steps. -/
def at_ (s : Key) (n : ℕ) : Iterator := Iterator.next^[n] (.create s 0)

/-- The position of `end()`. All iterators over a string have the same data. -/
def isEnd (it : Iterator) : Prop := it.p_ = (Iterator.create it.s_ it.s_.length).p_

/-- The iterator comes to the end, and what it shows on the way are pieces of the string, one after
another, none of which is empty and which together are the string. -/
def Covers (s : Key) : Prop :=
  ∃ n, isEnd (at_ s n) ∧ (∀ i < n, ¬isEnd (at_ s i) ∧ (at_ s i).c_ ≠ [] ∧
      (at_ s i).c_ <+: s.drop (at_ s i).p_ ∧
      (at_ s (i + 1)).p_ = (at_ s i).p_ + (at_ s i).c_.length) ∧
    ((List.range n).map fun i => (at_ s i).c_).flatten = s

/-- A string of whole characters: behind the first octet of each there are as many octets as it
announces, whatever they are. -/
inductive Whole : Key → Prop
  | nil : Whole []
  | cons {c : Byte} {rest tail : Key} (hlen : rest.length + 1 = getCharLen c) (htail : Whole tail) :
      Whole ((c :: rest) ++ tail)

theorem getCharLen_pos (c : Byte) : 0 < getCharLen c := by
  unfold getCharLen
  split_ifs
  all_goals omega

/-- The first character of a string of whole ones. -/
theorem whole_cons_iff {c : Byte} {s : Key} :
    Whole (c :: s) ↔ getCharLen c ≤ s.length + 1 ∧ Whole (s.drop (getCharLen c - 1)) := by
  constructor
  · intro h
    generalize heq : c :: s = t at h
    cases h with
    | nil => exact nomatch heq
    | @cons c' rest tail hlen htail =>
      rw [List.cons_append] at heq
      obtain ⟨rfl, rfl⟩ := List.cons.inj heq
      have hrest : getCharLen c - 1 = rest.length := by omega
      rw [hrest, List.drop_left, List.length_append]
      exact ⟨by omega, htail⟩
  · intro h
    obtain ⟨hle, hwhole⟩ := h
    have hpos := getCharLen_pos c
    have hlen : (s.take (getCharLen c - 1)).length + 1 = getCharLen c := by
      rw [List.length_take]
      omega
    have hcons := Whole.cons hlen hwhole
    rw [List.cons_append, List.take_append_drop] at hcons
    exact hcons

section Steps

variable {it : Iterator}

theorem updateCurrent_s (it : Iterator) : it.updateCurrent.s_ = it.s_ := by
  unfold Iterator.updateCurrent
  split
  · rfl
  · rfl

theorem updateCurrent_p (it : Iterator) : it.updateCurrent.p_ = it.p_ := by
  unfold Iterator.updateCurrent
  split
  · rfl
  · rfl

theorem next_s (it : Iterator) : it.next.s_ = it.s_ := by
  unfold Iterator.next
  split
  · rw [updateCurrent_s]
  · rfl

theorem isEnd_iff : isEnd it ↔ it.p_ = it.s_.length := by
  rw [isEnd, Iterator.create, updateCurrent_p]

theorem next_p_of_lt (h : it.p_ < it.s_.length) : it.next.p_ = it.p_ + it.getCurrentCharLen := by
  rw [Iterator.next, if_pos h, updateCurrent_p]

theorem next_of_le (h : it.s_.length ≤ it.p_) : it.next = it := by
  rw [Iterator.next, if_neg (Nat.not_lt.mpr h)]

/-- The character at a position inside the string. -/
theorem drop_eq (h : it.p_ < it.s_.length) :
    it.s_.drop it.p_ = it.s_[it.p_] :: it.s_.drop (it.p_ + 1) ∧
      it.getCurrentCharLen = getCharLen it.s_[it.p_] := by
  refine ⟨List.drop_eq_getElem_cons h, ?_⟩
  rw [Iterator.getCurrentCharLen, List.getD_eq_getElem _ _ h]

end Steps

/-! ## From the end to whole characters -/

/-- From where the iterator comes to the end the characters are whole. -/
theorem whole_of_end {n : ℕ} {it : Iterator} (h : isEnd (Iterator.next^[n] it)) :
    it.p_ ≤ it.s_.length ∧ Whole (it.s_.drop it.p_) := by
  induction n generalizing it with
  | zero =>
    have hp := isEnd_iff.mp h
    rw [Function.iterate_zero, id] at hp
    rw [hp, List.drop_length]
    exact ⟨le_rfl, .nil⟩
  | succ n ih =>
    rw [Function.iterate_succ_apply] at h
    have hnext := ih h
    rw [next_s] at hnext
    by_cases hlt : it.p_ < it.s_.length
    · obtain ⟨hdrop, hlen⟩ := drop_eq hlt
      rw [next_p_of_lt hlt, hlen] at hnext
      obtain ⟨hle, hwhole⟩ := hnext
      have hpos := getCharLen_pos it.s_[it.p_]
      have hsplit : it.p_ + getCharLen it.s_[it.p_] =
          it.p_ + 1 + (getCharLen it.s_[it.p_] - 1) := by omega
      rw [hsplit, ← List.drop_drop] at hwhole
      rw [hdrop, whole_cons_iff, List.length_drop]
      exact ⟨hlt.le, by omega, hwhole⟩
    · rw [next_of_le (Nat.le_of_not_lt hlt)] at hnext
      exact hnext

/-! ## From whole characters to the end -/

theorem updateCurrent_idem (it : Iterator) : it.updateCurrent.updateCurrent = it.updateCurrent := by
  by_cases h : it.p_ < it.s_.length
  · unfold Iterator.updateCurrent
    rw [if_pos h, if_pos h]
    rfl
  · unfold Iterator.updateCurrent
    rw [if_neg h, if_neg h]

theorem size_eq {front rest tail s : Key} {c : Byte} (hs : s = front ++ ((c :: rest) ++ tail)) :
    s.length = front.length + (rest.length + 1) + tail.length := by
  rw [hs, List.length_append, List.length_append, List.length_cons]
  omega

/-- At a whole character the iterator shows it, and goes on behind it. -/
theorem step_cons {front rest tail : Key} {c : Byte} (hlen : rest.length + 1 = getCharLen c)
    {it : Iterator} (hs : it.s_ = front ++ ((c :: rest) ++ tail)) (hp : it.p_ = front.length)
    (hfresh : it.updateCurrent = it) :
    it.c_ = c :: rest ∧ it.next.p_ = (front ++ (c :: rest)).length := by
  have hsize := size_eq hs
  have hlt : it.p_ < it.s_.length := by omega
  have hdrop : it.s_.drop it.p_ = (c :: rest) ++ tail := by rw [hs, hp, List.drop_left]
  have hget : it.s_.getD it.p_ 0 = c := by
    rw [hs, hp, List.getD_eq_getElem?_getD, List.getElem?_append_right le_rfl, Nat.sub_self]
    rfl
  have hchar : it.getCurrentCharLen = rest.length + 1 := by
    rw [Iterator.getCurrentCharLen, hget, hlen]
  constructor
  · have hc := congrArg Iterator.c_ hfresh
    rw [Iterator.updateCurrent, if_pos hlt] at hc
    dsimp only at hc
    rw [hchar, if_neg (by omega), hdrop] at hc
    rw [← hc]
    exact List.take_left' List.length_cons
  · rw [next_p_of_lt hlt, hchar, hp, List.length_append, List.length_cons]

/-- A string of whole characters is covered from the place where they begin. -/
theorem covers_of_whole {tail : Key} (h : Whole tail) {front : Key} {it : Iterator}
    (hs : it.s_ = front ++ tail) (hp : it.p_ = front.length) (hfresh : it.updateCurrent = it) :
    ∃ n, isEnd (Iterator.next^[n] it) ∧ (∀ i < n, ¬isEnd (Iterator.next^[i] it) ∧
        (Iterator.next^[i] it).c_ ≠ [] ∧
        (Iterator.next^[i] it).c_ <+: it.s_.drop (Iterator.next^[i] it).p_ ∧
        (Iterator.next^[i + 1] it).p_ =
          (Iterator.next^[i] it).p_ + (Iterator.next^[i] it).c_.length) ∧
      ((List.range n).map fun i => (Iterator.next^[i] it).c_).flatten = tail := by
  induction h generalizing front it with
  | nil =>
    refine ⟨0, isEnd_iff.mpr ?_, fun i hi => absurd hi (Nat.not_lt_zero i), rfl⟩
    rw [Function.iterate_zero, id, hp, hs, List.append_nil]
  | @cons c rest tail hlen htail ih =>
    obtain ⟨hc, hnext⟩ := step_cons hlen hs hp hfresh
    have hsnext : it.next.s_ = (front ++ (c :: rest)) ++ tail := by
      rw [next_s, hs, List.append_assoc]
    have hsize := size_eq hs
    have hlt : it.p_ < it.s_.length := by omega
    have hfreshnext : it.next.updateCurrent = it.next := by
      rw [Iterator.next, if_pos hlt, updateCurrent_idem]
    obtain ⟨n, hend, hway, hflat⟩ := ih hsnext hnext hfreshnext
    refine ⟨n + 1, ?_, fun i hi => ?_, ?_⟩
    · rw [Function.iterate_succ_apply]
      exact hend
    · cases i with
      | zero =>
        rw [Function.iterate_zero, id]
        refine ⟨fun he => hlt.ne (isEnd_iff.mp he), ?_, ?_, ?_⟩
        · rw [hc]
          exact List.cons_ne_nil c rest
        · rw [hc, hs, hp, List.drop_left]
          exact List.prefix_append _ _
        · rw [Function.iterate_one, hnext, hc, hp, List.length_append]
      | succ i =>
        have hlater := hway i (Nat.lt_of_succ_lt_succ hi)
        rw [Function.iterate_succ_apply, Function.iterate_succ_apply, ← next_s]
        exact hlater
    · rw [List.range_succ_eq_map, List.map_cons, List.map_map, List.flatten_cons,
        Function.iterate_zero, id, hc]
      have hshift : ((fun i => (Iterator.next^[i] it).c_) ∘ Nat.succ) =
          fun i => (Iterator.next^[i] it.next).c_ := by
        funext i
        rw [Function.comp_apply, Function.iterate_succ_apply]
      rw [hshift, hflat]

theorem covers_iff (s : Key) : Covers s ↔ Whole s := by
  constructor
  · intro h
    obtain ⟨n, hend, -⟩ := h
    have hwhole := (whole_of_end hend).2
    rw [Iterator.create, updateCurrent_s, updateCurrent_p, List.drop_zero] at hwhole
    exact hwhole
  · intro h
    have hs : (Iterator.create s 0).s_ = [] ++ s := by
      rw [Iterator.create, updateCurrent_s, List.nil_append]
    have hp : (Iterator.create s 0).p_ = ([] : Key).length := by
      rw [Iterator.create, updateCurrent_p, List.length_nil]
    obtain ⟨n, hend, hway, hflat⟩ := covers_of_whole h hs hp (updateCurrent_idem _)
    rw [hs, List.nil_append] at hway
    exact ⟨n, hend, hway, hflat⟩

/-! ## The commands -/

/-- The loop of the commands ends where the characters are whole. -/
theorem utf8Loop_isSome {s : Key} {fuel pos : ℕ} (hfuel : s.length < fuel + pos) :
    (utf8Loop s fuel pos).isSome = true ↔ pos ≤ s.length ∧ Whole (s.drop pos) := by
  induction fuel generalizing pos with
  | zero => exact iff_of_false Bool.false_ne_true fun h => absurd h.1 (by omega)
  | succ fuel ih =>
    rw [utf8Loop]
    by_cases hend : pos = s.length
    · rw [if_pos hend, hend, List.drop_length]
      exact iff_of_true rfl ⟨le_rfl, .nil⟩
    rw [if_neg hend]
    by_cases hlt : pos < s.length
    · have hpos := getCharLen_pos s[pos]
      have hsplit : pos + getCharLen s[pos] = pos + 1 + (getCharLen s[pos] - 1) := by omega
      have hdrop : s.drop (pos + getCharLen s[pos]) =
          (s.drop (pos + 1)).drop (getCharLen s[pos] - 1) := by rw [List.drop_drop, ← hsplit]
      rw [List.getElem?_eq_getElem hlt, Option.bind_some, Option.isSome_map, ih (by omega), hdrop,
        List.drop_eq_getElem_cons hlt, whole_cons_iff, List.length_drop]
      constructor
      · intro h
        exact ⟨hlt.le, by omega, h.2⟩
      · intro h
        exact ⟨by omega, h.2.2⟩
    · rw [List.getElem?_eq_none (Nat.le_of_not_lt hlt), Option.bind_none]
      exact iff_of_false Bool.false_ne_true fun h => absurd h.1 (by omega)

theorem tokenizer_isSome (s : Key) : (uTF8Tokenizer s).isSome = true ↔ Whole s := by
  rw [uTF8Tokenizer, utf8Loop_isSome (Nat.lt_succ_self _), List.drop_zero]
  exact ⟨And.right, fun h => ⟨Nat.zero_le _, h⟩⟩

/-- For every string the iterator comes to the end and covers it if and only if its characters are
whole, and the loops of `ACADD` and `ACREM` end if and only if this is so for a text that they
accept. -/
theorem tokenizer_covers_iff (s : Key) : (Covers s ↔ Whole s) ∧
    (∀ check write cmd keyN db, ∀ exp : Option Key,
      (do_processACADD uTF8Tokenizer check write (cmd :: keyN :: s :: exp.toList) db).isSome = true ↔
        (valid keyN s → Whole s)) ∧
    ∀ write cmd keyN db, (do_processACREM uTF8Tokenizer write [cmd, keyN, s] db).isSome = true ↔
      (valid keyN s → Whole s) := by
  refine ⟨covers_iff s, fun check write cmd keyN db exp => ?_, fun write cmd keyN db => ?_⟩
  · have hlen : ¬((cmd :: keyN :: s :: exp.toList).length ≠ 3 ∧
        (cmd :: keyN :: s :: exp.toList).length ≠ 4) := by
      cases exp with
      | none => simp
      | some e => simp
    unfold do_processACADD
    rw [if_neg hlen]
    simp only [List.getD_cons_succ, List.getD_cons_zero]
    by_cases hvalid : valid keyN s
    · rw [if_neg (not_not.mpr hvalid), Option.isSome_map, tokenizer_isSome]
      exact ⟨fun h _ => h, fun h => h hvalid⟩
    · rw [if_pos hvalid]
      exact iff_of_true rfl fun h => absurd h hvalid
  · unfold do_processACREM
    rw [if_neg (by simp)]
    simp only [List.getD_cons_succ, List.getD_cons_zero]
    by_cases hvalid : valid keyN s
    · rw [if_neg (not_not.mpr hvalid), Option.isSome_map, tokenizer_isSome]
      exact ⟨fun h _ => h, fun h => h hvalid⟩
    · rw [if_pos hvalid]
      exact iff_of_true rfl fun h => absurd h hvalid

/-- A first octet of two alone is not covered: the iterator is behind the end after one step. -/
theorem not_covers_lead : ¬Covers [0xC3] := by
  intro h
  have hwhole := (covers_iff [0xC3]).mp h
  rw [whole_cons_iff] at hwhole
  exact absurd hwhole.1 (by decide)

end HM4.UTF8Tokenizer
