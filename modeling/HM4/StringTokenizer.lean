import HM4.Bytes
import HM4.General.Separated

/-!
# The tokenizer of strings

An iterator stands at a place of a line. Forward and backward steps are scans of their own; the
tokens of both are the pieces of the line, in one order and in the other. What is imploded with
the delimiter as separator comes back as the tokens.
-/

namespace HM4.Tokenizer

open Bytes Separated

/-! ## The iterator -/

/-- `StringTokenizer`. -/
structure StringTokenizer where
  line : Key
  delimiter : Byte

/-- `iterator`: what stands in front of the current place, read backwards, and what is behind
it. Together they are the line, with its first and its last place. -/
structure iterator where
  before : Key
  after : Key
  delimiter : Byte
deriving DecidableEq

namespace iterator

/-- `skipData_`. -/
def skipData (delimiter : Byte) : Key → Key → iterator
  | before, c :: after =>
    if c ≠ delimiter then skipData delimiter (c :: before) after
    else ⟨before, c :: after, delimiter⟩
  | before, [] => ⟨before, [], delimiter⟩

/-- `skipDelimiter_`. -/
def skipDelimiter (it : iterator) : iterator :=
  match it.after with
  | c :: after => if c = it.delimiter then { it with before := c :: it.before, after := after } else it
  | [] => it

/-- `skipDataRev_`. -/
def skipDataRev (delimiter : Byte) : Key → Key → iterator
  | c :: before, after =>
    if c ≠ delimiter then skipDataRev delimiter before (c :: after)
    else ⟨c :: before, after, delimiter⟩
  | [], after => ⟨[], after, delimiter⟩

/-- `skipDelimiterRev_`. -/
def skipDelimiterRev (it : iterator) : iterator :=
  match it.before with
  | c :: before => if c = it.delimiter then { it with before := before, after := c :: it.after } else it
  | [] => it

/-- `operator *`: as many octets as `skipData_` would pass. -/
def token (it : iterator) : Key :=
  it.after.take (it.after.length - (skipData it.delimiter it.before it.after).after.length)

/-- `operator ++`. -/
def next (it : iterator) : iterator := (skipData it.delimiter it.before it.after).skipDelimiter

/-- `operator --`. -/
def prev (it : iterator) : iterator :=
  let it := it.skipDelimiterRev
  skipDataRev it.delimiter it.before it.after

end iterator

namespace StringTokenizer

/-- `begin`. -/
def first (st : StringTokenizer) : iterator := ⟨[], st.line, st.delimiter⟩

/-- `end`. -/
def last (st : StringTokenizer) : iterator := ⟨st.line.reverse, [], st.delimiter⟩

end StringTokenizer

/-- A loop over the tokens between two iterators, with at most so many comparisons. -/
def iterate (sentinel : iterator) : ℕ → iterator → Option (List Key)
  | 0, _ => none
  | fuel + 1, it =>
    if it = sentinel then some []
    else (iterate sentinel fuel it.next).map fun tokens => it.token :: tokens

/-- What a tokenizer function has captured. -/
structure Generator where
  current : iterator
  sentinel : iterator

/-- `getForwardTokenizer`. -/
def getForwardTokenizer (st : StringTokenizer) : Generator := ⟨st.first, st.last⟩

/-- A call of the forward tokenizer; none is the view that points to nothing. -/
def forward (g : Generator) : Option Key × Generator :=
  if g.current = g.sentinel then (none, g)
  else (some g.current.token, { g with current := g.current.next })

/-- `getReverseTokenizer`. -/
def getReverseTokenizer (st : StringTokenizer) : Generator := ⟨st.last, st.first⟩

/-- A call of the reverse tokenizer. -/
def reverse (g : Generator) : Option Key × Generator :=
  if g.current = g.sentinel then (none, g)
  else (some g.current.prev.token, { g with current := g.current.prev })

/-- `getBackwardTokenizer`. -/
def getBackwardTokenizer (st : StringTokenizer) : Generator := getReverseTokenizer st

/-- The results of some calls, one after the other. -/
def calls (f : Generator → Option Key × Generator) : ℕ → Generator → List (Option Key)
  | 0, _ => []
  | n + 1, g => (f g).1 :: calls f n (f g).2

/-- A tokenizer function gives these tokens, and then nothing for ever. -/
def Yields (f : Generator → Option Key × Generator) (g : Generator) (tokens : List Key) : Prop :=
  ∀ n, calls f (tokens.length + n) g = tokens.map some ++ List.replicate n none

/-! ## Implode -/

/-- `implodeRawBuffer_`; each part is pushed behind the others. -/
def implodeRawBuffer (container : List Key) (separator first last : Key) : Key :=
  let buffer := first
  let buffer :=
    match container with
    | [] => buffer
    | x :: rest => rest.foldl (fun buffer x => buffer ++ separator ++ x) (buffer ++ x)
  buffer ++ last

/-- `implodeBufferSize`. -/
def implodeBufferSize (container : List Key) (separator first last : Key) : ℕ :=
  let size := container.foldl (fun size x => size + x.length) 0
  if container.isEmpty then size + first.length + last.length
  else size + (container.length - 1) * separator.length + first.length + last.length

/-- `implodeBuffer`, with a buffer of so many octets. -/
def implodeBuffer (bufferSize : ℕ) (container : List Key) (separator first last : Key) : Key :=
  if implodeBufferSize container separator first last > bufferSize then []
  else implodeRawBuffer container separator first last

/-! ## Forward -/

section Forward

variable {delimiter : Byte} {before after t rest : Key}

theorem skipData_append (ht : delimiter ∉ t) :
    iterator.skipData delimiter before (t ++ delimiter :: rest)
      = ⟨t.reverse ++ before, delimiter :: rest, delimiter⟩ := by
  induction t generalizing before with
  | nil => simp [iterator.skipData]
  | cons c t ih =>
    obtain ⟨hc, ht'⟩ := not_or.mp (List.mem_cons.not.mp ht)
    simp [iterator.skipData, Ne.symm hc, ih ht']

theorem skipData_of_notMem (ht : delimiter ∉ t) :
    iterator.skipData delimiter before t = ⟨t.reverse ++ before, [], delimiter⟩ := by
  induction t generalizing before with
  | nil => simp [iterator.skipData]
  | cons c t ih =>
    obtain ⟨hc, ht'⟩ := not_or.mp (List.mem_cons.not.mp ht)
    simp [iterator.skipData, Ne.symm hc, ih ht']

/-- A string is a piece, or it has a first delimiter. -/
theorem cut (delimiter : Byte) (s : Key) :
    delimiter ∉ s ∨ ∃ t rest, delimiter ∉ t ∧ s = t ++ delimiter :: rest := by
  induction s with
  | nil => exact .inl List.not_mem_nil
  | cons c s ih =>
    by_cases hc : c = delimiter
    · exact .inr ⟨[], s, List.not_mem_nil, by rw [hc, List.nil_append]⟩
    · rcases ih with hs | ⟨t, rest, ht, rfl⟩
      · exact .inl (List.not_mem_cons_of_ne_of_not_mem (Ne.symm hc) hs)
      · exact .inr ⟨c :: t, rest, List.not_mem_cons_of_ne_of_not_mem (Ne.symm hc) ht, rfl⟩

/-- A token that ends at a delimiter. -/
theorem token_append (ht : delimiter ∉ t) :
    (⟨before, t ++ delimiter :: rest, delimiter⟩ : iterator).token = t := by
  simp only [iterator.token, skipData_append ht, List.length_append]
  rw [Nat.add_sub_cancel]
  exact List.take_left

theorem next_append (ht : delimiter ∉ t) :
    (⟨before, t ++ delimiter :: rest, delimiter⟩ : iterator).next
      = ⟨delimiter :: (t.reverse ++ before), rest, delimiter⟩ := by
  simp only [iterator.next, skipData_append ht, iterator.skipDelimiter, if_true]

/-- A token that ends at the end of the line. -/
theorem token_of_notMem (ht : delimiter ∉ t) :
    (⟨before, t, delimiter⟩ : iterator).token = t := by
  simp [iterator.token, skipData_of_notMem ht]

theorem next_of_notMem (ht : delimiter ∉ t) :
    (⟨before, t, delimiter⟩ : iterator).next = ⟨t.reverse ++ before, [], delimiter⟩ := by
  simp [iterator.next, skipData_of_notMem ht, iterator.skipDelimiter]

end Forward

section Stands

variable {st : StringTokenizer} {it : iterator}

/-- The iterator stands in the line. -/
structure Stands (st : StringTokenizer) (it : iterator) : Prop where
  line : it.before.reverse ++ it.after = st.line
  delimiter : it.delimiter = st.delimiter

theorem stands_first (st : StringTokenizer) : Stands st st.first := ⟨rfl, rfl⟩

theorem stands_last (st : StringTokenizer) : Stands st st.last := by
  refine ⟨?_, rfl⟩
  simp [StringTokenizer.last]

theorem Stands.eq_last_iff (h : Stands st it) : it = st.last ↔ it.after = [] := by
  obtain ⟨before, after, delimiter⟩ := it
  obtain ⟨hline, rfl⟩ := h
  simp only at hline ⊢
  constructor
  · intro heq
    exact congrArg iterator.after heq
  · rintro rfl
    rw [StringTokenizer.last, ← hline]
    simp

theorem Stands.eq_first_iff (h : Stands st it) : it = st.first ↔ it.before = [] := by
  obtain ⟨before, after, delimiter⟩ := it
  obtain ⟨hline, rfl⟩ := h
  simp only at hline ⊢
  constructor
  · intro heq
    exact congrArg iterator.before heq
  · rintro rfl
    rw [StringTokenizer.first, ← hline]
    simp

/-- One step forward takes one piece off the rest of the line. -/
theorem Stands.next (h : Stands st it) (hne : it.after ≠ []) :
    Stands st it.next ∧ it.next.after.length < it.after.length ∧
      pieces st.delimiter it.after = it.token :: pieces st.delimiter it.next.after := by
  obtain ⟨before, after, delimiter⟩ := it
  obtain ⟨hline, rfl⟩ := h
  simp only at hline hne ⊢
  rcases cut st.delimiter after with ht | ⟨t, rest, ht, rfl⟩
  · rw [next_of_notMem ht, token_of_notMem ht, pieces_of_notMem ht hne]
    refine ⟨⟨by simpa using hline, rfl⟩, ?_, rfl⟩
    exact List.length_pos_of_ne_nil hne
  · rw [next_append ht, token_append ht, pieces_append ht]
    refine ⟨⟨by simpa using hline, rfl⟩, ?_, rfl⟩
    simp only [List.length_append, List.length_cons]
    omega

/-- The loop over the tokens ends, with the pieces of the rest of the line. -/
theorem Stands.iterate (h : Stands st it) {fuel : ℕ} (hfuel : it.after.length < fuel) :
    Tokenizer.iterate st.last fuel it = some (pieces st.delimiter it.after) := by
  induction fuel generalizing it with
  | zero => exact absurd hfuel (Nat.not_lt_zero _)
  | succ fuel ih =>
    rw [Tokenizer.iterate]
    by_cases hafter : it.after = []
    · rw [if_pos (h.eq_last_iff.mpr hafter), hafter]
      rfl
    · obtain ⟨hstands, hlen, hpieces⟩ := h.next hafter
      rw [if_neg (h.eq_last_iff.not.mpr hafter), ih hstands (by omega), hpieces]
      rfl

end Stands

/-! ## Calls -/

section Calls

variable {f : Generator → Option Key × Generator} {g g' : Generator} {t : Key} {tokens : List Key}

theorem yields_nil (h : f g = (none, g)) : Yields f g [] := by
  intro n
  rw [List.length_nil, Nat.zero_add, List.map_nil, List.nil_append]
  induction n with
  | zero => rfl
  | succ n ih => rw [calls, h, ih, List.replicate_succ]

theorem yields_cons (h : f g = (some t, g')) (hrest : Yields f g' tokens) :
    Yields f g (t :: tokens) := by
  intro n
  have hlen : (t :: tokens).length + n = (tokens.length + n) + 1 := by
    rw [List.length_cons]
    omega
  rw [hlen, calls, h, hrest n]
  rfl

variable {st : StringTokenizer} {it : iterator}

/-- The forward tokenizer gives the pieces of the rest of the line. -/
theorem Stands.forward (h : Stands st it) :
    Yields Tokenizer.forward ⟨it, st.last⟩ (pieces st.delimiter it.after) := by
  induction hn : it.after.length using Nat.strong_induction_on generalizing it with
  | _ n ih =>
    by_cases hafter : it.after = []
    · rw [hafter]
      exact yields_nil (if_pos (h.eq_last_iff.mpr hafter))
    · obtain ⟨hstands, hlen, hpieces⟩ := h.next hafter
      rw [hpieces]
      exact yields_cons (if_neg (h.eq_last_iff.not.mpr hafter))
        (ih _ (hn ▸ hlen) hstands rfl)

end Calls

/-! ## Backward -/

section Backward

variable {delimiter : Byte} {x : Key}

/-- Nothing is in front, or a delimiter. -/
def AtStart (delimiter : Byte) (before : Key) : Prop := ∀ c ∈ before.head?, c = delimiter

/-- Backward over the data: up to the start of the line or behind a delimiter. -/
theorem skipDataRev_spec (delimiter : Byte) (before after : Key) :
    ∃ u x, delimiter ∉ u ∧ before = u ++ x ∧ AtStart delimiter x ∧
      iterator.skipDataRev delimiter before after = ⟨x, u.reverse ++ after, delimiter⟩ := by
  induction before generalizing after with
  | nil => exact ⟨[], [], List.not_mem_nil, rfl, by simp [AtStart], rfl⟩
  | cons c before ih =>
    by_cases hc : c = delimiter
    · refine ⟨[], c :: before, List.not_mem_nil, rfl, by simp [AtStart, hc], ?_⟩
      simp [iterator.skipDataRev, hc]
    · obtain ⟨u, x, hu, rfl, hx, heq⟩ := ih (c :: after)
      refine ⟨c :: u, x, List.not_mem_cons_of_ne_of_not_mem (Ne.symm hc) hu, rfl, hx, ?_⟩
      simp [iterator.skipDataRev, hc, heq]

/-- What is behind a start does not depend on what is in front of it. -/
theorem AtStart.pieces (hx : AtStart delimiter x) (s : Key) :
    Separated.pieces delimiter (x.reverse ++ s)
      = Separated.pieces delimiter x.reverse ++ Separated.pieces delimiter s := by
  cases x with
  | nil => rfl
  | cons c x =>
    obtain rfl : c = delimiter := hx c rfl
    rw [List.reverse_cons, List.append_assoc, List.singleton_append, pieces_append_cons]

variable {st : StringTokenizer} {it : iterator}

/-- One step backward takes the last piece off the front of the line. -/
theorem Stands.prev (h : Stands st it) (hat : it.after = [] ∨ AtStart st.delimiter it.before)
    (hne : it.before ≠ []) :
    Stands st it.prev ∧ it.prev.before.length < it.before.length ∧
      AtStart st.delimiter it.prev.before ∧
      pieces st.delimiter it.before.reverse
        = pieces st.delimiter it.prev.before.reverse ++ [it.prev.token] := by
  obtain ⟨before, after, delimiter⟩ := it
  obtain ⟨hline, rfl⟩ := h
  obtain ⟨c, before, rfl⟩ := List.exists_cons_of_ne_nil hne
  simp only at hline hat ⊢
  by_cases hc : c = st.delimiter
  · obtain ⟨u, x, hu, rfl, hx, heq⟩ := skipDataRev_spec st.delimiter before (c :: after)
    have hprev : (⟨c :: (u ++ x), after, st.delimiter⟩ : iterator).prev
        = ⟨x, u.reverse ++ c :: after, st.delimiter⟩ := by
      simp only [iterator.prev, iterator.skipDelimiterRev, if_pos hc]
      exact heq
    have hrev : st.delimiter ∉ u.reverse := by rwa [List.mem_reverse]
    rw [hprev, hc, token_append hrev]
    refine ⟨⟨by simpa [hc] using hline, rfl⟩, by
      simp only [List.length_cons, List.length_append]
      omega, hx, ?_⟩
    have hpieces := hx.pieces (u.reverse ++ [st.delimiter])
    rw [pieces_append hrev] at hpieces
    simpa [Separated.pieces] using hpieces
  · have hafter : after = [] := by
      refine hat.resolve_right fun hstart => hc (hstart c rfl)
    subst hafter
    obtain ⟨u, x, hu, heq, hx, hskip⟩ := skipDataRev_spec st.delimiter (c :: before) []
    have hprev : (⟨c :: before, [], st.delimiter⟩ : iterator).prev
        = ⟨x, u.reverse, st.delimiter⟩ := by
      simp only [iterator.prev, iterator.skipDelimiterRev, if_neg hc]
      rw [hskip, List.append_nil]
    have hrev : st.delimiter ∉ u.reverse := by rwa [List.mem_reverse]
    have hune : u ≠ [] := by
      rintro rfl
      rw [List.nil_append] at heq
      rw [← heq] at hx
      exact hc (hx c rfl)
    rw [hprev, token_of_notMem hrev]
    rw [heq] at hline ⊢
    have hpos := List.length_pos_of_ne_nil hune
    refine ⟨⟨by simpa using hline, rfl⟩, by simp; omega, hx, ?_⟩
    rw [List.reverse_append, hx.pieces,
      pieces_of_notMem hrev (by simpa using hune)]

/-- The reverse tokenizer gives the pieces of the front of the line, the last one first. -/
theorem Stands.reverse (h : Stands st it)
    (hat : it.after = [] ∨ AtStart st.delimiter it.before) :
    Yields Tokenizer.reverse ⟨it, st.first⟩ (pieces st.delimiter it.before.reverse).reverse := by
  induction hn : it.before.length using Nat.strong_induction_on generalizing it with
  | _ n ih =>
    by_cases hbefore : it.before = []
    · rw [hbefore]
      exact yields_nil (if_pos (h.eq_first_iff.mpr hbefore))
    · obtain ⟨hstands, hlen, hstart, hpieces⟩ := h.prev hat hbefore
      rw [hpieces, List.reverse_append]
      exact yields_cons (if_neg (h.eq_first_iff.not.mpr hbefore))
        (ih _ (hn ▸ hlen) hstands (.inr hstart) rfl)

end Backward

/-! ## Implode -/

section Implode

theorem foldl_separator (separator buffer : Key) (rest : List Key) :
    rest.foldl (fun buffer x => buffer ++ separator ++ x) buffer
      = buffer ++ rest.flatMap fun x => separator ++ x := by
  induction rest generalizing buffer with
  | nil => simp
  | cons x rest ih =>
    rw [List.foldl_cons, ih, List.flatMap_cons]
    simp only [List.append_assoc]

theorem intercalate_cons_eq (separator x : Key) (rest : List Key) :
    List.intercalate separator (x :: rest) = x ++ rest.flatMap fun x => separator ++ x := by
  induction rest generalizing x with
  | nil => rw [List.intercalate_singleton, List.flatMap_nil, List.append_nil]
  | cons y rest ih =>
    rw [List.intercalate_cons_cons, ih, List.flatMap_cons]
    simp only [List.append_assoc]

/-- The raw text with all its parts. -/
theorem implodeRawBuffer_eq (container : List Key) (separator first last : Key) :
    implodeRawBuffer container separator first last
      = first ++ List.intercalate separator container ++ last := by
  cases container with
  | nil =>
    rw [List.intercalate_nil, List.append_nil]
    rfl
  | cons x rest =>
    rw [intercalate_cons_eq, ← List.append_assoc, ← foldl_separator]
    rfl

end Implode

/-! ## Tokens and implode -/

/-- What is imploded comes back, over the iterators and over the calls, when the last string is
not empty; and over every line the backward tokenizer gives the forward tokens in reverse. -/
theorem tokens_coherent :
    (∀ bufferSize delimiter (strings : List Key), (∀ t ∈ strings, delimiter ∉ t) →
      (∀ t ∈ strings.getLast?, t ≠ []) →
      implodeBufferSize strings [delimiter] [] [] ≤ bufferSize →
      let st : StringTokenizer :=
        ⟨implodeBuffer bufferSize strings [delimiter] [] [], delimiter⟩
      (∀ fuel, st.line.length < fuel → iterate st.last fuel st.first = some strings) ∧
      Yields forward (getForwardTokenizer st) strings) ∧
    ∀ st : StringTokenizer, ∃ tokens,
      Yields forward (getForwardTokenizer st) tokens ∧
      (∀ fuel, st.line.length < fuel → iterate st.last fuel st.first = some tokens) ∧
      Yields reverse (getBackwardTokenizer st) tokens.reverse := by
  have hforward (st : StringTokenizer) :
      Yields forward (getForwardTokenizer st) (pieces st.delimiter st.line) ∧
      ∀ fuel, st.line.length < fuel →
        iterate st.last fuel st.first = some (pieces st.delimiter st.line) :=
    ⟨(stands_first st).forward, fun fuel hfuel => (stands_first st).iterate hfuel⟩
  refine ⟨fun bufferSize delimiter strings hfree hlast hsize => ?_, fun st => ?_⟩
  · have hline : pieces delimiter (implodeBuffer bufferSize strings [delimiter] [] []) = strings := by
      rw [implodeBuffer, if_neg (Nat.not_lt.mpr hsize), implodeRawBuffer_eq, List.nil_append,
        List.append_nil]
      exact pieces_intercalate_of_last hfree hlast
    obtain ⟨hyields, hiterate⟩ :=
      hforward ⟨implodeBuffer bufferSize strings [delimiter] [] [], delimiter⟩
    rw [hline] at hyields hiterate
    exact ⟨hiterate, hyields⟩
  · obtain ⟨hyields, hiterate⟩ := hforward st
    have hreverse := (stands_last st).reverse (.inl rfl)
    simp only [StringTokenizer.last, List.reverse_reverse] at hreverse
    exact ⟨_, hyields, hiterate, hreverse⟩

end HM4.Tokenizer
