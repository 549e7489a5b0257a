import HM4.Database
import HM4.General.Separated

/-!
# Tokens of composite keys

The keys of the index commands are made of tokens with separators between them. Tokens are
bounded, so that all keys fit into the buffer they are made in.
-/

namespace HM4.IndexToken

open LexPrefix Bytes Pairs Separated

/-- `DBAdapter::SEPARATOR`. -/
def separator : Byte := 126

/-- `INDEX_TOKEN_SIZE`. -/
def INDEX_TOKEN_SIZE : ℕ := 104

/-- `index_token::valid`. -/
def valid (s : Key) : Prop := s ≠ [] ∧ s.length ≤ INDEX_TOKEN_SIZE

instance (s : Key) : Decidable (valid s) := inferInstanceAs (Decidable (_ ∧ _))

/-- The size of a `PairBufferKey`. -/
def bufferKeySize : ℕ := maxKeySize + 16

/-- `concatenateBuffer`, which gives an empty string for what does not fit. -/
def concatenateBuffer (size : ℕ) (args : List Key) : Key :=
  if (args.map List.length).sum ≤ size then args.flatten else []

theorem concatenateBuffer_eq {size : ℕ} {args : List Key} (h : (args.map List.length).sum ≤ size) :
    concatenateBuffer size args = args.flatten := if_pos h

/-- What is not longer than a key fits into the buffer of a key. -/
theorem concatenateBuffer_key {args : List Key} (h : (args.map List.length).sum ≤ maxKeySize) :
    concatenateBuffer bufferKeySize args = args.flatten :=
  concatenateBuffer_eq (h.trans (Nat.le_add_right maxKeySize 16))

/-- The size of some tokens with separators between them. -/
theorem sum_intersperse_le {tokens : List Key} {b : ℕ} (h : ∀ t ∈ tokens, t.length ≤ b) :
    ((tokens.intersperse [separator]).map List.length).sum ≤ tokens.length * (b + 1) := by
  induction tokens with
  | nil => exact Nat.zero_le _
  | cons t tokens ih =>
    have ht := h t List.mem_cons_self
    have hrest := ih fun u hu => h u (List.mem_cons_of_mem t hu)
    cases tokens with
    | nil =>
      rw [List.intersperse_singleton, List.map_singleton, List.sum_singleton,
        List.length_singleton, Nat.one_mul]
      omega
    | cons u tokens =>
      rw [List.intersperse_cons_cons]
      simp only [List.map_cons, List.sum_cons, List.length_cons, List.length_nil,
        Nat.add_mul] at hrest ⊢
      omega

/-- A few valid tokens with separators between them fit into a key. -/
theorem concatenateBuffer_tokens {tokens : List Key} (h : ∀ t ∈ tokens, t.length ≤ INDEX_TOKEN_SIZE)
    (hlen : tokens.length ≤ 9) :
    concatenateBuffer bufferKeySize (tokens.intersperse [separator]) =
        List.intercalate [separator] tokens ∧
      (List.intercalate [separator] tokens).length ≤ maxKeySize := by
  have hsum := sum_intersperse_le h
  have hmul := Nat.mul_le_mul_right (INDEX_TOKEN_SIZE + 1) hlen
  have hle : ((tokens.intersperse [separator]).map List.length).sum ≤ maxKeySize := by
    refine hsum.trans (hmul.trans ?_)
    decide
  refine ⟨concatenateBuffer_key hle, ?_⟩
  rw [List.intercalate, List.length_flatten]
  exact hle

/-! ## Keys of records -/

/-- A data key: the name of a set, some tokens without separators, and the key of a record. -/
def DataKey (L : ℕ) (keyN keySub k : Key) : Prop :=
  ∃ t ts, k = keyN ++ separator :: (terminated separator (t :: ts) ++ keySub) ∧ t ≠ [] ∧
    ts.length = L ∧ ∀ u ∈ t :: ts, separator ∉ u

/-- A control key, which has no token. -/
def CtrlKey (keyN keySub k : Key) : Prop := k = keyN ++ separator :: separator :: keySub

section RecordKeys

variable {L : ℕ} {keyN keySub keyN' keySub' k : Key}

/-- No data key is a control key of the same set. -/
theorem DataKey.not_ctrlKey (h : DataKey L keyN keySub k) : ¬CtrlKey keyN keySub' k := by
  obtain ⟨t, ts, rfl, hne, _, hts⟩ := h
  intro heq
  obtain ⟨b, rest, rfl⟩ := List.exists_cons_of_ne_nil hne
  rw [CtrlKey, terminated_cons_append] at heq
  have hb : b = separator := (List.cons.inj (List.cons.inj (List.append_cancel_left heq)).2).1
  exact hts _ List.mem_cons_self (hb ▸ List.mem_cons_self)

variable (hN : separator ∉ keyN) (hN' : separator ∉ keyN')

include hN hN'

/-- A key tells its set and its record if no name of a set has a separator in it. -/
theorem recordKey_unique (h : CtrlKey keyN keySub k ∨ DataKey L keyN keySub k)
    (h' : CtrlKey keyN' keySub' k ∨ DataKey L keyN' keySub' k) : keyN = keyN' ∧ keySub = keySub' := by
  have hname : keyN = keyN' := by
    have hcut : ∃ s, k = keyN ++ separator :: s := by
      rcases h with h | ⟨t, ts, h, _⟩
      · exact ⟨_, h⟩
      · exact ⟨_, h⟩
    have hcut' : ∃ s, k = keyN' ++ separator :: s := by
      rcases h' with h | ⟨t, ts, h, _⟩
      · exact ⟨_, h⟩
      · exact ⟨_, h⟩
    obtain ⟨s, hs⟩ := hcut
    obtain ⟨s', hs'⟩ := hcut'
    exact (cut_unique hN hN' (hs.symm.trans hs')).1
  subst hname
  refine ⟨rfl, ?_⟩
  rcases h with h | h
  · rcases h' with h' | h'
    · exact (List.cons.inj (cut_unique hN hN (h.symm.trans h')).2).2
    · exact absurd h h'.not_ctrlKey
  · rcases h' with h' | h'
    · exact absurd h' h.not_ctrlKey
    · obtain ⟨t, ts, heq, _, hlen, hts⟩ := h
      obtain ⟨t', ts', heq', _, hlen', hts'⟩ := h'
      have hcount : (t :: ts).length = (t' :: ts').length :=
        congrArg Nat.succ (hlen.trans hlen'.symm)
      exact (terminated_inj hts hts' hcount (cut_unique hN hN (heq.symm.trans heq')).2).2

end RecordKeys

/-! ## Tokens of a value -/

/-- The tokenizer reads this many tokens, empty ones behind the last. -/
def readTokens (n : ℕ) (s : Key) : List Key :=
  (List.range n).map fun i => (pieces separator s).getD i []

/-- Some tokens that are all there are read. -/
theorem readTokens_eq {s : Key} {tokens : List Key} (h : pieces separator s = tokens) :
    readTokens tokens.length s = tokens := by
  rw [readTokens, h]
  refine List.ext_getElem (by rw [List.length_map, List.length_range]) fun i h1 h2 => ?_
  rw [List.getElem_map, List.getElem_range, List.getD_eq_getElem _ _ h2]

end HM4.IndexToken
