import HM4.Autocomplete
import Mathlib.Data.List.Dedup

/-!
# Runs of autocomplete

After any additions and removals the keys of a set hold, under each prefix of each text that is
present, the number of its additions. A search finds each such text once, and its answer has those
with the largest numbers.
-/

namespace HM4.Autocomplete

open LexPrefix Bytes Pairs PairFactory MemList KeyedList RedisProtocol Database IndexToken Separated
open AccumulateResults
open IndexKeys (toKey)

/-! ## Tokenizers -/

/-- The octets of one letter. -/
def octets (c : Char) : Key := (String.utf8EncodeChar c).map fun b => Fin.ofNat 256 b.toNat

theorem encode_cons (c : Char) (letters : List Char) :
    encode (c :: letters) = octets c ++ encode letters := List.flatMap_cons

theorem encode_append (first rest : List Char) :
    encode (first ++ rest) = encode first ++ encode rest := List.flatMap_append

theorem getCharLen_one : ∀ v < 128, getCharLen (Fin.ofNat 256 v) = 1 := by decide

theorem getCharLen_two : ∀ v < 32, getCharLen (Fin.ofNat 256 (v ||| 0xc0)) = 2 := by decide

theorem getCharLen_three : ∀ v < 16, getCharLen (Fin.ofNat 256 (v ||| 0xe0)) = 3 := by decide

theorem getCharLen_four : ∀ v < 8, getCharLen (Fin.ofNat 256 (v ||| 0xf0)) = 4 := by decide

/-- The first octet of a letter tells how many it has. -/
theorem getCharLen_octets (c : Char) :
    ∃ b rest, octets c = b :: rest ∧ getCharLen b = rest.length + 1 := by
  have hsmall : ∀ (x : UInt8) (m : ℕ), m < 256 → x.toNat &&& m ≤ m := fun x m _ => Nat.and_le_right
  rcases c.utf8Size_eq with h | h | h | h
  · refine ⟨_, _, by rw [octets, String.utf8EncodeChar_eq_singleton h, List.map_singleton], ?_⟩
    have hv : c.val ≤ 0x7f := Char.utf8Size_eq_one_iff.mp h
    have hlt : c.val.toNat < 128 := by
      have := UInt32.le_iff_toNat_le.mp hv
      simpa using Nat.lt_succ_of_le this
    have hnat : c.val.toUInt8.toNat = c.val.toNat := by
      rw [UInt32.toNat_toUInt8]
      exact Nat.mod_eq_of_lt (by omega)
    rw [hnat]
    exact getCharLen_one _ hlt
  · refine ⟨_, _, by rw [octets, String.utf8EncodeChar_eq_cons_cons h, List.map_cons], ?_⟩
    rw [UInt8.toNat_or, UInt8.toNat_and]
    exact getCharLen_two _ (Nat.lt_succ_of_le Nat.and_le_right)
  · refine ⟨_, _, by rw [octets, String.utf8EncodeChar_eq_cons_cons_cons h, List.map_cons], ?_⟩
    rw [UInt8.toNat_or, UInt8.toNat_and]
    exact getCharLen_three _ (Nat.lt_succ_of_le Nat.and_le_right)
  · refine ⟨_, _, by rw [octets, String.utf8EncodeChar_eq_cons_cons_cons_cons h, List.map_cons], ?_⟩
    rw [UInt8.toNat_or, UInt8.toNat_and]
    exact getCharLen_four _ (Nat.lt_succ_of_le Nat.and_le_right)

theorem length_le_encode (letters : List Char) : letters.length ≤ (encode letters).length := by
  induction letters with
  | nil => exact le_rfl
  | cons c letters ih =>
    obtain ⟨b, rest, hc, _⟩ := getCharLen_octets c
    rw [encode_cons, hc, List.length_append, List.length_cons, List.length_cons]
    omega

/-- The loop steps from letter to letter. -/
theorem utf8Loop_encode (first rest : List Char) {fuel : ℕ} (hfuel : rest.length < fuel) :
    utf8Loop (encode (first ++ rest)) fuel (encode first).length =
      some ((List.range rest.length).map fun i => encode (first ++ rest.take (i + 1))) := by
  induction rest generalizing first fuel with
  | nil =>
    obtain ⟨fuel, rfl⟩ := Nat.exists_eq_succ_of_ne_zero hfuel.ne'
    rw [utf8Loop, List.append_nil, if_pos rfl]
    rfl
  | cons c rest ih =>
    obtain ⟨fuel, rfl⟩ := Nat.exists_eq_succ_of_ne_zero (Nat.ne_of_gt (Nat.zero_lt_of_lt hfuel))
    obtain ⟨b, bs, hc, hlen⟩ := getCharLen_octets c
    have hsplit : encode (first ++ c :: rest) = encode first ++ (b :: bs ++ encode rest) := by
      rw [encode_append, encode_cons, hc]
    have hsize : (encode (first ++ c :: rest)).length =
        (encode first).length + (bs.length + 1 + (encode rest).length) := by
      rw [hsplit, List.length_append, List.length_append, List.length_cons]
    have hget : (encode (first ++ c :: rest))[(encode first).length]? = some b := by
      rw [hsplit, List.getElem?_append_right le_rfl, Nat.sub_self]
      rfl
    have hnext : (encode first).length + getCharLen b = (encode (first ++ [c])).length := by
      rw [encode_append, encode_cons, hc, hlen, List.length_append, List.length_append]
      rfl
    have htake : (encode (first ++ c :: rest)).take ((encode first).length + getCharLen b) =
        encode (first ++ [c]) := by
      have happ : encode (first ++ c :: rest) = encode (first ++ [c]) ++ encode rest := by
        rw [← encode_append, List.append_assoc, List.singleton_append]
      rw [hnext, happ, List.take_left]
    have hrest := ih (first ++ [c]) (Nat.lt_of_succ_lt_succ hfuel)
    rw [List.append_assoc, List.singleton_append] at hrest
    rw [utf8Loop, if_neg (by omega), hget, Option.bind_some]
    dsimp only
    rw [if_neg (by omega), htake, hnext, hrest, Option.map_some, List.length_cons,
      List.range_succ_eq_map, List.map_cons, List.map_map]
    refine congrArg some (congrArg₂ List.cons rfl (List.map_congr_left fun i _ => ?_))
    rw [Function.comp_apply, List.take_succ_cons, List.append_assoc, List.singleton_append]

/-- The prefixes of all sizes. -/
theorem mem_nil_cons_range (f : ℕ → Key) (hf : f 0 = []) (n : ℕ) (p : Key) :
    p ∈ [] :: (List.range n).map (fun i => f (i + 1)) ↔ ∃ i ≤ n, p = f i := by
  rw [List.mem_cons, List.mem_map]
  constructor
  · rintro (rfl | ⟨i, hi, rfl⟩)
    · exact ⟨0, Nat.zero_le n, hf.symm⟩
    · exact ⟨i + 1, List.mem_range.mp hi, rfl⟩
  · rintro ⟨i, hi, rfl⟩
    cases i with
    | zero => exact .inl hf
    | succ i => exact .inr ⟨i, List.mem_range.mpr hi, rfl⟩

/-- What `UTF8Tokenizer` tells of some letters. -/
theorem uTF8Tokenizer_encode (letters : List Char) :
    uTF8Tokenizer (encode letters) =
      some ((List.range letters.length).map fun i => encode (letters.take (i + 1))) :=
  utf8Loop_encode [] letters (Nat.lt_succ_of_le (length_le_encode letters))

/-- The tokenizer of a kind ends on its texts, and tells the prefixes up to a boundary. -/
theorem Kind.tokenizer_spec (kind : Kind) {t : Key} (ht : kind.Text t) :
    ∃ tokens, kind.tokenizer t = some tokens ∧ ∀ p, p ∈ [] :: tokens ↔ kind.StartsWith t p := by
  cases kind with
  | utf8 =>
    obtain ⟨letters, rfl⟩ := ht
    refine ⟨_, uTF8Tokenizer_encode letters, fun p => ?_⟩
    constructor
    · intro hp
      obtain ⟨i, _, rfl⟩ := (mem_nil_cons_range (fun i => encode (letters.take i)) rfl _ p).mp hp
      exact ⟨letters.take i, letters.drop i, rfl, by rw [List.take_append_drop]⟩
    · rintro ⟨first, rest, rfl, heq⟩
      -- equal strings have the same tokens
      have htokens := uTF8Tokenizer_encode letters
      rw [heq, uTF8Tokenizer_encode] at htokens
      rw [← Option.some.inj htokens]
      exact (mem_nil_cons_range (fun i => encode ((first ++ rest).take i)) rfl _ _).mpr
        ⟨first.length, List.length_append ▸ Nat.le_add_right _ _, by rw [List.take_left]⟩
  | bin =>
    refine ⟨_, rfl, fun p => (mem_nil_cons_range t.take rfl _ p).trans ?_⟩
    constructor
    · rintro ⟨i, _, rfl⟩
      exact List.take_prefix i t
    · intro hp
      exact ⟨p.length, hp.length_le, List.prefix_iff_eq_take.mp hp⟩

theorem Kind.StartsWith.isPrefix {kind : Kind} {t p : Key} (h : kind.StartsWith t p) :
    p <+: t := by
  cases kind with
  | utf8 =>
    obtain ⟨first, rest, rfl, rfl⟩ := h
    rw [encode_append]
    exact List.prefix_append _ _
  | bin => exact h

/-! ## Keys -/

/-- The key of a text under a prefix. -/
def keyOf (set t p : Key) : Key := set ++ separator :: (p ++ separator :: t)

section Keys

variable {set t p : Key}

/-- The keys of a valid text fit into the buffer. -/
theorem makeKeyData_eq (hvalid : valid set t) (hp : p <+: t) :
    makeKeyData set t p = keyOf set t p ∧ isKeyValid (keyOf set t p) := by
  have hlen := hp.length_le
  obtain ⟨hset, _, hsize⟩ := hvalid
  have hpos := List.length_pos_of_ne_nil hset
  have hsum : (([set, [separator], p, [separator], t] : List Key).map List.length).sum ≤
      maxKeySize := by
    simp only [List.map_cons, List.map_nil, List.sum_cons, List.sum_nil, List.length_cons,
      List.length_nil]
    omega
  have hflat : ([set, [separator], p, [separator], t] : List Key).flatten = keyOf set t p := by
    simp only [keyOf, List.flatten_cons, List.flatten_nil, List.append_nil, List.cons_append,
      List.nil_append]
  refine ⟨(concatenateBuffer_key hsum).trans hflat, ?_, ?_⟩
  · rw [keyOf, List.length_append]
    omega
  · rw [← hflat, List.length_flatten]
    exact hsum

/-- The search key of a prefix. -/
theorem makeKeyDataSearch_eq (h : set.length + p.length + 2 ≤ bufferKeySize) :
    makeKeyDataSearch set p = set ++ separator :: (p ++ [separator]) := by
  have hsum : (([set, [separator], p, [separator]] : List Key).map List.length).sum ≤
      bufferKeySize := by
    simp only [List.map_cons, List.map_nil, List.sum_cons, List.sum_nil, List.length_cons,
      List.length_nil]
    omega
  rw [makeKeyDataSearch, concatenateBuffer_eq hsum]
  simp only [List.flatten_cons, List.flatten_nil, List.append_nil, List.cons_append,
    List.nil_append]

/-- Keys of different sets differ. -/
theorem set_unique {set' : Key} {s s' : Key} (hset : separator ∉ set) (hset' : separator ∉ set')
    (h : set ++ separator :: s = set' ++ separator :: s') : set = set' :=
  (cut_unique hset hset' h).1

/-- A key tells its text and its prefix. -/
theorem keyOf_inj {t' p' : Key} (hp : separator ∉ p) (hp' : separator ∉ p')
    (h : keyOf set t p = keyOf set t' p') : t = t' ∧ p = p' := by
  obtain ⟨hpp, htt⟩ := cut_unique hp hp' (List.cons.inj (List.append_cancel_left h)).2
  exact ⟨htt, hpp⟩

/-- The search key of a prefix is the front of the keys of this prefix only. -/
theorem search_isPrefix {q : Key} (ht : separator ∉ t) (hp : separator ∉ p) :
    set ++ separator :: (q ++ [separator]) <+: keyOf set t p ↔ q = p := by
  rw [keyOf, List.prefix_append_right_inj, List.prefix_cons_inj]
  constructor
  · rintro ⟨s, hs⟩
    rw [List.append_assoc, List.singleton_append] at hs
    by_cases hq : separator ∈ q
    · -- a text would have a separator in it
      obtain ⟨q1, q2, rfl, hq1⟩ := List.eq_append_cons_of_mem hq
      rw [List.append_assoc, List.cons_append] at hs
      have htail := (cut_unique hq1 hp hs).2
      exact absurd (htail ▸ List.mem_append_right q2 List.mem_cons_self) ht
    · exact (cut_unique hq hp hs).1
  · rintro rfl
    exact ⟨t, by rw [List.append_assoc, List.singleton_append]⟩

/-- The text is what is behind the second separator. -/
theorem extractLoop_append {nth count : ℕ} {a : Key} (ha : separator ∉ a) (s : Key) :
    extractLoop nth separator count (a ++ separator :: s) =
      if count + 1 = nth then s else extractLoop nth separator (count + 1) s := by
  induction a with
  | nil => rw [List.nil_append, extractLoop, if_pos rfl]
  | cons x a ih =>
    obtain ⟨hx, ha'⟩ := not_or.mp (List.mem_cons.not.mp ha)
    rw [List.cons_append, extractLoop, if_neg (Ne.symm hx), ih ha']

theorem extractNth_keyOf (hset : separator ∉ set) (hp : separator ∉ p) :
    extractNth 2 separator (keyOf set t p) = t := by
  rw [extractNth, keyOf, extractLoop_append hset, if_neg (by decide), extractLoop_append hp,
    if_pos rfl]

end Keys

/-! ## One call -/

/-- `ACADD` of three or four parameters. -/
theorem do_processACADD_eq (tokenizer : Tokenizer) (check : UInt64) (write : Key → Write)
    (cmd keyN text : Key) (exp : Option Key) (db : Db) :
    do_processACADD tokenizer check write (cmd :: keyN :: text :: exp.toList) db =
      if ¬valid keyN text then some (.error .INVALID_PARAMETERS, db)
      else (tokenizer text).map fun tokens =>
        (.number (getValueN check (makeKeyData keyN text []) db),
          insertAll write (([] :: tokens).map (makeKeyData keyN text))
            (numeral (getValueN check (makeKeyData keyN text []) db))
            (Call.add check write cmd keyN text exp).expire db) := by
  cases exp with
  | none => exact if_neg fun h => h.1 rfl
  | some s => exact if_neg fun h => h.2 rfl

/-- `ACREM` of three parameters. -/
theorem do_processACREM_eq (tokenizer : Tokenizer) (write : Key → Write) (cmd keyN text : Key)
    (db : Db) :
    do_processACREM tokenizer write [cmd, keyN, text] db =
      if ¬valid keyN text then some (.error .INVALID_PARAMETERS, db)
      else (tokenizer text).map fun tokens =>
        (.bool true, eraseKeys write (([] :: tokens).map (makeKeyData keyN text)) db) :=
  if_neg (not_not.mpr rfl)

/-- The list after a call that is refused. -/
theorem Call.process_refused (kind : Kind) {c : Call} (h : ¬valid c.keyN c.text) (db : Db) :
    c.process kind db = some (.error .INVALID_PARAMETERS, db) := by
  cases c with
  | add check write cmd keyN text exp =>
    exact (do_processACADD_eq _ check write cmd keyN text exp db).trans (if_pos h)
  | rem write cmd keyN text =>
    exact (do_processACREM_eq _ write cmd keyN text db).trans (if_pos h)

/-- The keys of a text that is present. -/
def IsKeys (kind : Kind) (set t : Key) (keys : List Key) : Prop :=
  ∀ k, k ∈ keys ↔ ∃ p, kind.StartsWith t p ∧ k = keyOf set t p

/-- The keys that the loop over the tokens makes. -/
theorem isKeys_map {kind : Kind} {set t : Key} (hvalid : valid set t) {tokens : List Key}
    (htokens : ∀ p, p ∈ [] :: tokens ↔ kind.StartsWith t p) :
    IsKeys kind set t (([] :: tokens).map (makeKeyData set t)) := by
  intro k
  rw [List.mem_map]
  constructor
  · rintro ⟨p, hp, rfl⟩
    have hstart := (htokens p).mp hp
    exact ⟨p, hstart, (makeKeyData_eq hvalid hstart.isPrefix).1⟩
  · rintro ⟨p, hstart, rfl⟩
    exact ⟨p, (htokens p).mpr hstart, (makeKeyData_eq hvalid hstart.isPrefix).1⟩

section OneCall

variable {kind : Kind} {db : Db}

/-- What an addition does. -/
theorem process_add {check : UInt64} {write : Key → Write} {cmd keyN text : Key}
    {exp : Option Key} (h : (Call.add check write cmd keyN text exp).Sound kind)
    (hvalid : valid keyN text) :
    ∃ keys, IsKeys kind keyN text keys ∧
      (Call.add check write cmd keyN text exp).process kind db =
        some (.number (getValueN check (keyOf keyN text []) db),
          insertKeys write keys (numeral (getValueN check (keyOf keyN text []) db)) db) := by
  obtain ⟨tokens, htok, htokens⟩ := kind.tokenizer_spec h.kind
  refine ⟨_, isKeys_map hvalid htokens, ?_⟩
  refine (do_processACADD_eq _ check write cmd keyN text exp db).trans ?_
  rw [if_neg (not_not.mpr hvalid), (makeKeyData_eq hvalid List.nil_prefix).1, h.forever]
  exact congrArg (Option.map _) htok

/-- What a removal does. -/
theorem process_rem {write : Key → Write} {cmd keyN text : Key}
    (h : (Call.rem write cmd keyN text).Sound kind) (hvalid : valid keyN text) :
    ∃ keys, IsKeys kind keyN text keys ∧
      (Call.rem write cmd keyN text).process kind db =
        some (.bool true, eraseKeys write keys db) := by
  obtain ⟨tokens, htok, htokens⟩ := kind.tokenizer_spec h.kind
  refine ⟨_, isKeys_map hvalid htokens, ?_⟩
  refine (do_processACREM_eq _ write cmd keyN text db).trans ?_
  rw [if_neg (not_not.mpr hvalid)]
  exact congrArg (Option.map _) htok

end OneCall

/-- The keys of a set hold the numbers of additions of its texts, under all their prefixes. -/
structure Counted (kind : Kind) (set : Key) (n : Key → ℕ) (db : Db) : Prop where
  increasing : Increasing Pair.key db
  holds_iff : ∀ now k v, set ++ [separator] <+: k → (holds now db k = some v ↔
    ∃ t p, k = keyOf set t p ∧ separator ∉ t ∧ kind.StartsWith t p ∧ 0 < n t ∧ v = numeral (n t))

theorem isPrefix_keyOf (set t p : Key) : set ++ [separator] <+: keyOf set t p :=
  ⟨p ++ separator :: t, by rw [keyOf, List.append_assoc, List.singleton_append]⟩

section Step

variable {kind : Kind} {set : Key} {n : Key → ℕ} {db : Db}

/-- No key of another set is one of this set. -/
theorem notMem_of_ne {set' t k : Key} {keys : List Key} (hset : separator ∉ set)
    (hset' : separator ∉ set') (hne : set' ≠ set) (hkeys : IsKeys kind set' t keys)
    (hk : set ++ [separator] <+: k) : k ∉ keys := by
  intro hmem
  obtain ⟨p, _, rfl⟩ := (hkeys k).mp hmem
  obtain ⟨s, hs⟩ := hk
  rw [List.append_assoc, List.singleton_append] at hs
  exact hne (set_unique hset' hset hs.symm)

/-- Which texts a key tells. -/
theorem mem_keys_iff {t u p k : Key} {keys : List Key} (ht : separator ∉ t) (hu : separator ∉ u)
    (hkeys : IsKeys kind set t keys) (hp : kind.StartsWith u p) (hk : k = keyOf set u p) :
    k ∈ keys ↔ u = t := by
  have hpu : separator ∉ p := fun h => hu (hp.isPrefix.subset h)
  rw [hkeys k]
  constructor
  · rintro ⟨q, hq, rfl⟩
    have hqt : separator ∉ q := fun h => ht (hq.isPrefix.subset h)
    exact (keyOf_inj hqt hpu hk).1.symm
  · rintro rfl
    exact ⟨p, hp, hk⟩

variable (h : Counted kind set n db)

include h

/-- The number that an addition writes. -/
theorem Counted.getValueN_eq {t : Key} (ht : separator ∉ t) (hstart : kind.StartsWith t [])
    (hbound : n t < 2 ^ 32) (check : UInt64) :
    getValueN check (keyOf set t []) db = n t + 1 := by
  have hread : fromString 64 ((holds check db (keyOf set t [])).getD []) 0 = n t := by
    cases hpos : n t with
    | zero =>
      have hnone : holds check db (keyOf set t []) = none := by
        refine Option.eq_none_iff_forall_ne_some.mpr fun v hv => ?_
        obtain ⟨u, p, hk, hu, hp, hlt, _⟩ :=
          (h.holds_iff check _ v (isPrefix_keyOf set t [])).mp hv
        have hpu : separator ∉ p := fun hm => hu (hp.isPrefix.subset hm)
        obtain ⟨rfl, _⟩ := keyOf_inj List.not_mem_nil hpu hk
        omega
      rw [hnone]
      rfl
    | succ m =>
      have hsome : holds check db (keyOf set t []) = some (numeral (n t)) :=
        (h.holds_iff check _ _ (isPrefix_keyOf set t [])).mpr
          ⟨t, [], rfl, ht, hstart, by omega, rfl⟩
      rw [hsome, Option.getD_some, fromString_numeral (by omega), hpos]
  change min (fromString 64 ((holds check db (keyOf set t [])).getD []) 0 + 1) (2 ^ 64 - 1) = _
  rw [hread]
  exact Nat.min_eq_left (by omega)

/-- A text whose keys are written anew. -/
theorem Counted.update {db' : Db} (hinc : Increasing Pair.key db') {t : Key} (ht : separator ∉ t)
    {keys : List Key} (hkeys : IsKeys kind set t keys) (m : ℕ)
    (hholds : ∀ now k, holds now db' k =
      if k ∈ keys then (if 0 < m then some (numeral m) else none) else holds now db k) :
    Counted kind set (Function.update n t m) db' := by
  refine ⟨hinc, fun now k v hk => ?_⟩
  rw [hholds]
  by_cases hmem : k ∈ keys
  · obtain ⟨p, hp, rfl⟩ := (hkeys k).mp hmem
    rw [if_pos hmem]
    constructor
    · intro hv
      split at hv
      · next hm =>
        refine ⟨t, p, rfl, ht, hp, ?_, ?_⟩
        · rw [Function.update_self]
          exact hm
        · rw [Function.update_self]
          exact (Option.some.inj hv).symm
      · exact absurd hv.symm (Option.some_ne_none v)
    · rintro ⟨u, q, hkey, hu, hq, hpos, rfl⟩
      obtain rfl := (mem_keys_iff ht hu hkeys hq hkey).mp hmem
      rw [Function.update_self] at hpos ⊢
      exact if_pos hpos
  · rw [if_neg hmem, h.holds_iff now k v hk]
    have hne : ∀ u p, k = keyOf set u p → separator ∉ u → kind.StartsWith u p → u ≠ t :=
      fun u p hkey hu hp heq => hmem ((mem_keys_iff ht hu hkeys hp hkey).mpr heq)
    refine exists_congr fun u => exists_congr fun p => ?_
    constructor
    · rintro ⟨hkey, hu, hp, hrest⟩
      rw [Function.update_of_ne (hne u p hkey hu hp)]
      exact ⟨hkey, hu, hp, hrest⟩
    · rintro ⟨hkey, hu, hp, hrest⟩
      rw [Function.update_of_ne (hne u p hkey hu hp)] at hrest
      exact ⟨hkey, hu, hp, hrest⟩

/-- Writes to other sets. -/
theorem Counted.other {db' : Db} (hinc : Increasing Pair.key db')
    (hholds : ∀ now k, set ++ [separator] <+: k → holds now db' k = holds now db k) :
    Counted kind set n db' :=
  ⟨hinc, fun now k v hk => by rw [hholds now k hk, h.holds_iff now k v hk]⟩

end Step

theorem Kind.startsWith_nil (kind : Kind) {t : Key} (ht : kind.Text t) : kind.StartsWith t [] := by
  obtain ⟨tokens, _, htokens⟩ := kind.tokenizer_spec ht
  exact (htokens []).mp List.mem_cons_self

/-- What an addition writes fits into a value. -/
theorem isValValid_getValueN (check : UInt64) (key : Key) (db : Db) :
    isValValid (numeral (getValueN check key db)) := by
  have hle : getValueN check key db ≤ 2 ^ 64 - 1 := Nat.min_le_right _ _
  exact (numeral_length_le (Nat.lt_of_le_of_lt hle (by decide : 2 ^ 64 - 1 < 10 ^ (19 + 1)))).trans
    (by decide)

section Runs

variable {kind : Kind} {set : Key} (hset : separator ∉ set)

include hset

/-- One call. -/
theorem Counted.process {n : Key → ℕ} {db : Db} (h : Counted kind set n db) {c : Call}
    (hc : c.Sound kind) (hbound : n c.text < 2 ^ 32) :
    ∃ r, c.process kind db = some r ∧ Counted kind set (c.tally set n) r.2 := by
  by_cases hvalid : valid c.keyN c.text
  · cases c with
    | add check write cmd keyN text exp =>
      obtain ⟨keys, hkeys, hprocess⟩ := @process_add kind db check write cmd keyN text exp hc hvalid
      have hkeyValid : ∀ k ∈ keys, isKeyValid k := fun k hk => by
        obtain ⟨p, hp, rfl⟩ := (hkeys k).mp hk
        exact (makeKeyData_eq hvalid hp.isPrefix).2
      have hholds := fun now k => holds_insertKeys hkeyValid
        (isValValid_getValueN check (keyOf keyN text []) db)
        (numeral_ne_nil (getValueN check (keyOf keyN text []) db)) write now db k
      have hinc := increasing_insertKeys h.increasing write keys
        (numeral (getValueN check (keyOf keyN text []) db))
      refine ⟨_, hprocess, ?_⟩
      by_cases hsame : keyN = set
      · subst hsame
        have hvalue := h.getValueN_eq hc.text (kind.startsWith_nil hc.kind) hbound check
        rw [Call.tally, if_pos ⟨rfl, hvalid⟩]
        refine h.update hinc hc.text hkeys (n text + 1) fun now k => ?_
        rw [hholds, if_pos (Nat.succ_pos _)]
        exact congrArg (fun v => if k ∈ keys then some (numeral v) else holds now db k) hvalue
      · rw [Call.tally, if_neg fun hcond => hsame hcond.1]
        refine h.other hinc fun now k hk => ?_
        rw [hholds, if_neg (notMem_of_ne hset hc.keyN hsame hkeys hk)]
    | rem write cmd keyN text =>
      obtain ⟨keys, hkeys, hprocess⟩ := @process_rem kind db write cmd keyN text hc hvalid
      have hholds := holds_eraseKeys h.increasing write keys
      have hinc := increasing_eraseKeys h.increasing write keys
      refine ⟨_, hprocess, ?_⟩
      by_cases hsame : keyN = set
      · subst hsame
        rw [Call.tally, if_pos ⟨rfl, hvalid⟩]
        refine h.update hinc hc.text hkeys 0 fun now k => ?_
        rw [hholds, if_neg (lt_irrefl 0)]
      · rw [Call.tally, if_neg fun hcond => hsame hcond.1]
        refine h.other hinc fun now k hk => ?_
        rw [hholds, if_neg (notMem_of_ne hset hc.keyN hsame hkeys hk)]
  · refine ⟨_, Call.process_refused kind hvalid db, ?_⟩
    have htally : c.tally set n = n := by
      unfold Call.tally
      exact if_neg fun hcond => hvalid hcond.2
    rw [htally]
    exact h

omit hset in
/-- A number grows with additions only. -/
theorem tally_le (n : Key → ℕ) (c : Call) (calls : List Call) (t : Key) :
    c.tally set n t + calls.countP (Call.Adds set t) ≤
      n t + (c :: calls).countP (Call.Adds set t) := by
  rw [List.countP_cons]
  unfold Call.tally
  split
  · next hcond =>
    cases c with
    | add check write cmd keyN text exp =>
      by_cases ht : t = text
      · subst ht
        have hadds : decide (Call.Adds set t (.add check write cmd keyN t exp)) = true :=
          decide_eq_true ⟨hcond.1, rfl⟩
        rw [hadds, if_pos rfl]
        dsimp only
        rw [Function.update_self]
        omega
      · dsimp only
        rw [Function.update_of_ne ht]
        omega
    | rem write cmd keyN text =>
      dsimp only
      by_cases ht : t = text
      · rw [ht, Function.update_self]
        omega
      · rw [Function.update_of_ne ht]
        omega
  · omega

/-- A run of calls ends, and the keys of a set hold its numbers. -/
theorem run_counted {calls : List Call} (hcalls : ∀ c ∈ calls, c.Sound kind) {n : Key → ℕ}
    {db : Db} (h : Counted kind set n db)
    (hbound : ∀ t, n t + calls.countP (Call.Adds set t) < 2 ^ 32) :
    ∃ db', run kind calls db = some db' ∧ Counted kind set (calls.foldl (Call.tally set) n) db' ∧
      ∀ t, calls.foldl (Call.tally set) n t < 2 ^ 32 := by
  induction calls generalizing n db with
  | nil => exact ⟨db, rfl, h, hbound⟩
  | cons c calls ih =>
    obtain ⟨r, hr, hcounted⟩ := h.process hset (hcalls c List.mem_cons_self)
      (Nat.lt_of_le_of_lt (Nat.le_add_right _ _) (hbound c.text))
    obtain ⟨db', hrun, hrest⟩ := ih (fun c' hc' => hcalls c' (List.mem_cons_of_mem c hc')) hcounted
      fun t => Nat.lt_of_le_of_lt (tally_le n c calls t) (hbound t)
    refine ⟨db', ?_, hrest⟩
    rw [run, hr, Option.bind_some, hrun]

omit hset in
/-- Before the first call nothing is counted. -/
theorem counted_nil {db : Db} (hdb : Increasing Pair.key db)
    (hfresh : ∀ p ∈ db, ¬set ++ [separator] <+: p.key) : Counted kind set (fun _ => 0) db := by
  refine ⟨hdb, fun now k v hk => ⟨fun hv => ?_, fun ⟨_, _, _, _, _, hpos, _⟩ =>
    absurd hpos (lt_irrefl 0)⟩⟩
  obtain ⟨p, hp, _⟩ := Option.map_eq_some_iff.mp hv
  have hmem : p ∈ db := mem_of_lookup (Option.eq_some_of_filter_eq_some hp)
  exact absurd ((getPairPtr_key hp).symm ▸ hk) (hfresh p hmem)

end Runs

/-! ## One search -/

theorem strictWeak_comp : BinaryHeap.StrictWeak Result.comp where
  asymm := fun h => decide_eq_false (not_lt.mpr (of_decide_eq_true h).le)
  trans := fun hab hbc => decide_eq_false
    (not_lt.mpr ((not_lt.mp (of_decide_eq_false hab)).trans (not_lt.mp (of_decide_eq_false hbc))))

theorem comp_self (r : Result) : Result.comp r r = false := decide_eq_false (lt_irrefl _)

/-- The result of a text with a number. -/
def resultOf (n : Key → ℕ) (t : Key) : Result := ⟨t, numeral (n t), n t⟩

theorem map_key_resultOf (n : Key → ℕ) (texts : List Key) :
    (texts.map (resultOf n)).map Result.key = texts := by
  rw [List.map_map]
  exact List.map_id' texts

/-- The heap of some results gives the texts with the largest numbers. -/
theorem top_sortHeap {k : ℕ} (hk : 0 < k) (n : Key → ℕ) (texts : List Key) :
    ∃ answer, TopHeap.sortHeap Result.comp
        ((texts.map (resultOf n)).foldl (TopHeap.offer Result.comp k) #[]) =
          answer.map (resultOf n) ∧ Top k n texts answer := by
  obtain ⟨rest, hperm, hlen, hsorted, hlargest⟩ :=
    TopHeap.sortHeap_foldl strictWeak_comp comp_self hk (texts.map (resultOf n))
  generalize TopHeap.sortHeap Result.comp
    ((texts.map (resultOf n)).foldl (TopHeap.offer Result.comp k) #[]) = sorted at *
  have hresult : ∀ r ∈ sorted ++ rest, r = resultOf n r.key := fun r hr => by
    obtain ⟨t, _, rfl⟩ := List.mem_map.mp (hperm.mem_iff.mpr hr)
    rfl
  have hanswer : sorted = (sorted.map Result.key).map (resultOf n) := by
    have hself : sorted.map (resultOf n ∘ Result.key) = sorted.map id :=
      List.map_congr_left fun r hr => (hresult r (List.mem_append_left rest hr)).symm
    rw [List.map_map, hself, List.map_id]
  have hkeys : texts.Perm (sorted.map Result.key ++ rest.map Result.key) := by
    rw [← List.map_append]
    exact (map_key_resultOf n texts).symm ▸ hperm.map Result.key
  refine ⟨sorted.map Result.key, hanswer, ?_, ?_, ?_, fun t ht hnot a ha => ?_⟩
  · rw [List.length_map, hlen, List.length_map]
  · exact (List.sublist_append_left _ _).subperm.trans hkeys.symm.subperm
  · rw [List.pairwise_map]
    refine hsorted.imp_of_mem fun {r s} hr hs hrs => ?_
    have hle := not_lt.mp (of_decide_eq_false hrs)
    rw [hresult r (List.mem_append_left rest hr), hresult s (List.mem_append_left rest hs)] at hle
    exact hle
  · have hrest : t ∈ rest.map Result.key :=
      (List.mem_append.mp (hkeys.mem_iff.mp ht)).resolve_left hnot
    obtain ⟨s, hs, rfl⟩ := List.mem_map.mp hrest
    obtain ⟨r, hr, rfl⟩ := List.mem_map.mp ha
    have hle := not_lt.mp (of_decide_eq_false (hlargest r hr s hs))
    rw [hresult r (List.mem_append_left rest hr),
      hresult s (List.mem_append_right sorted hs)] at hle
    exact hle

theorem Top.perm {k : ℕ} {n : Key → ℕ} {texts texts' answer : List Key}
    (h : Top k n texts answer) (hperm : texts.Perm texts') : Top k n texts' answer where
  length := by rw [h.length, hperm.length_eq]
  subperm := h.subperm.trans hperm.subperm
  sorted := h.sorted
  largest := fun t ht => h.largest t (hperm.mem_iff.mpr ht)

section Search

variable {kind : Kind} {set : Key} {n : Key → ℕ} {db : Db} (hset : separator ∉ set)
  (h : Counted kind set n db) (check : Key → UInt64) (pre : Key)

/-- The live pairs that a search sees. -/
def seen (check : Key → UInt64) (set pre : Key) (db : Db) : List Pair :=
  (db.filter fun p => decide (set ++ separator :: (pre ++ [separator]) <+: p.key)).filter fun p =>
    isOK (check p.key) p

/-- The texts of these pairs. -/
def seenTexts (check : Key → UInt64) (set pre : Key) (db : Db) : List Key :=
  (seen check set pre db).map fun p => extractNth 2 separator p.key

include hset h

/-- Each pair is the key of a text under the prefix, with the number of the text. -/
theorem Counted.of_seen {q : Pair} (hq : q ∈ seen check set pre db) :
    q.key = keyOf set (extractNth 2 separator q.key) pre ∧
      separator ∉ extractNth 2 separator q.key ∧
      kind.StartsWith (extractNth 2 separator q.key) pre ∧
      0 < n (extractNth 2 separator q.key) ∧
      q.val = numeral (n (extractNth 2 separator q.key)) := by
  obtain ⟨hmem, hok⟩ := List.mem_filter.mp hq
  obtain ⟨hdb, hpre⟩ := List.mem_filter.mp hmem
  have hpre' := of_decide_eq_true hpre
  have hget : get q.key db = some q := h.increasing.lookup_of_mem hdb
  have hholds : holds (check q.key) db q.key = some q.val := by
    rw [holds, getPairPtr, hget, Option.filter_some, if_pos hok, Option.map_some]
  have hfront : set ++ [separator] <+: q.key := by
    refine List.IsPrefix.trans ⟨pre ++ [separator], ?_⟩ hpre'
    rw [List.append_assoc, List.singleton_append]
  obtain ⟨t, p, hkey, ht, hp, hpos, hval⟩ := (h.holds_iff _ _ _ hfront).mp hholds
  have hpt : separator ∉ p := fun hm => ht (hp.isPrefix.subset hm)
  rw [hkey] at hpre'
  obtain rfl := (search_isPrefix ht hpt).mp hpre'
  rw [hkey, extractNth_keyOf hset hpt]
  exact ⟨rfl, ht, hp, hpos, hval⟩

/-- Each text that is there is seen. -/
theorem Counted.mem_seenTexts {t : Key} : t ∈ seenTexts check set pre db ↔
    separator ∉ t ∧ kind.StartsWith t pre ∧ 0 < n t := by
  constructor
  · intro ht
    obtain ⟨q, hq, rfl⟩ := List.mem_map.mp ht
    obtain ⟨_, hsep, hstart, hpos, _⟩ := h.of_seen hset check pre hq
    exact ⟨hsep, hstart, hpos⟩
  · rintro ⟨ht, hstart, hpos⟩
    have hpt : separator ∉ pre := fun hm => ht (hstart.isPrefix.subset hm)
    have hholds : holds (check (keyOf set t pre)) db (keyOf set t pre) = some (numeral (n t)) :=
      (h.holds_iff _ _ _ (isPrefix_keyOf set t pre)).mpr ⟨t, pre, rfl, ht, hstart, hpos, rfl⟩
    obtain ⟨q, hq, _⟩ := Option.map_eq_some_iff.mp hholds
    have hkey := getPairPtr_key hq
    have hmem : q ∈ db := mem_of_lookup (Option.eq_some_of_filter_eq_some hq)
    have hok : isOK (check q.key) q = true := hkey.symm ▸ (Option.filter_eq_some_iff.mp hq).2
    refine List.mem_map.mpr ⟨q, List.mem_filter.mpr ⟨List.mem_filter.mpr ⟨hmem, ?_⟩, hok⟩, ?_⟩
    · rw [hkey]
      exact decide_eq_true ((search_isPrefix ht hpt).mpr rfl)
    · rw [hkey, extractNth_keyOf hset hpt]

theorem Counted.nodup_seenTexts : (seenTexts check set pre db).Nodup := by
  have hkeys : ((seen check set pre db).map Pair.key).Nodup := by
    refine List.pairwise_map.mpr ?_
    have hinc : Increasing Pair.key (seen check set pre db) :=
      h.increasing.sublist (List.filter_sublist.trans List.filter_sublist)
    exact hinc.imp fun hlt => hlt.ne
  have hmap : (seen check set pre db).map Pair.key =
      (seenTexts check set pre db).map fun t => keyOf set t pre := by
    rw [seenTexts, List.map_map]
    exact List.map_congr_left fun q hq => (h.of_seen hset check pre hq).1
  rw [hmap] at hkeys
  exact hkeys.of_map _

/-- What is made of the pairs. -/
theorem Counted.map_projPair (hbound : ∀ t, n t < 2 ^ 32) :
    (seen check set pre db).map projPair = (seenTexts check set pre db).map (resultOf n) := by
  rw [seenTexts, List.map_map]
  refine List.map_congr_left fun q hq => ?_
  have hval := (h.of_seen hset check pre hq).2.2.2.2
  rw [Function.comp_apply, projPair, resultOf, hval, fromString_numeral (hbound _)]

/-- The answer of a search. -/
theorem Counted.acrange_eq (hne : set ≠ []) (hbound : ∀ t, n t < 2 ^ 32) (cmd count : Key)
    (hsize : set.length + pre.length + 2 ≤ bufferKeySize)
    (hbudget : (db.filter fun p =>
      decide (set ++ separator :: (pre ++ [separator]) <+: p.key)).length ≤
        Queue.ITERATIONS_LOOPS_MAX) :
    ∃ tail answer, acrange check [cmd, set, pre, count, []] db =
        .container ((answer.flatMap fun t => [t, numeral (n t)]) ++ [tail]) ∧
      Top (myClamp count ITERATIONS_RESULTS_MIN ITERATIONS_RESULTS_MAX) n
        (seenTexts check set pre db) answer := by
  have hk : 0 < myClamp count ITERATIONS_RESULTS_MIN ITERATIONS_RESULTS_MAX := by
    have hmin : ITERATIONS_RESULTS_MIN ≤
        myClamp count ITERATIONS_RESULTS_MIN ITERATIONS_RESULTS_MAX :=
      le_min (le_max_right _ _) (by decide)
    exact Nat.lt_of_lt_of_le (by decide : 0 < ITERATIONS_RESULTS_MIN) hmin
  generalize hkeq : myClamp count ITERATIONS_RESULTS_MIN ITERATIONS_RESULTS_MAX = k at *
  obtain ⟨answer, hheap, htop⟩ := top_sortHeap hk n (seenTexts check set pre db)
  have htake := takeWhile_fromKey h.increasing (set ++ separator :: (pre ++ [separator]))
  have hwalk := @sharedAccumulatePairs_foldl _
    (StopPrefixPredicate (set ++ separator :: (pre ++ [separator])))
    (fun p => isOK (check p.key) p) (pPair k) _ (fun _ _ => rfl) 0 0
    (fromKey Pair.key (set ++ separator :: (pre ++ [separator])) db) #[]
    (by rw [htake, Nat.zero_add]; exact hbudget)
  rw [htake] at hwalk
  have hfold : (populateHeap check set pre k [] db).2 =
      ((seenTexts check set pre db).map (resultOf n)).foldl (TopHeap.offer Result.comp k) #[] := by
    rw [populateHeap, makeKeyDataSearch_eq hsize, if_pos rfl,
      ← h.map_projPair hset check pre hbound, List.foldl_map]
    exact hwalk
  refine ⟨(populateHeap check set pre k [] db).1, answer, ?_, htop⟩
  have hac : ac check set pre k [] db =
      (answer.flatMap fun t => [t, numeral (n t)]) ++ [(populateHeap check set pre k [] db).1] := by
    have hdef : ac check set pre k [] db =
        ((TopHeap.sortHeap Result.comp (populateHeap check set pre k [] db).2).flatMap fun r =>
          [r.key, r.val]) ++ [(populateHeap check set pre k [] db).1] := rfl
    rw [hdef, hfold, hheap, List.flatMap_map]
    rfl
  rw [← hac, ← hkeq]
  exact (if_neg (not_not.mpr rfl)).trans (if_neg hne)

end Search

/-! ## Searches after runs -/

section Present

variable {kind : Kind} {set : Key}

/-- Only texts of the calls have numbers. -/
theorem exists_of_tally_ne {n : Key → ℕ} {t : Key} {calls : List Call}
    (h : calls.foldl (Call.tally set) n t ≠ n t) : ∃ c ∈ calls, c.text = t := by
  induction calls generalizing n with
  | nil => exact absurd rfl h
  | cons c calls ih =>
    by_cases ht : c.text = t
    · exact ⟨c, List.mem_cons_self, ht⟩
    · have hstep : c.tally set n t = n t := by
        unfold Call.tally
        split
        · cases c with
          | add check write cmd keyN text exp => exact Function.update_of_ne (Ne.symm ht) _ n
          | rem write cmd keyN text => exact Function.update_of_ne (Ne.symm ht) _ n
        · rfl
      rw [List.foldl_cons, ← hstep] at h
      obtain ⟨c', hc', htext⟩ := ih h
      exact ⟨c', List.mem_cons_of_mem c hc', htext⟩

theorem mem_present {calls : List Call} {pre t : Key} :
    t ∈ present kind set pre calls ↔ 0 < additions set calls t ∧ kind.StartsWith t pre := by
  simp only [present, List.mem_filter, decide_eq_true_iff, List.mem_dedup, List.mem_map]
  refine and_iff_right_of_imp fun ⟨hpos, _⟩ => ?_
  exact exists_of_tally_ne hpos.ne'

theorem nodup_present {calls : List Call} {pre : Key} : (present kind set pre calls).Nodup :=
  List.Nodup.filter _ (List.nodup_dedup _)

/-- What a search sees after a run are the texts that are present. -/
theorem seenTexts_perm_present (hset : separator ∉ set) {calls : List Call}
    (hcalls : ∀ c ∈ calls, c.Sound kind) {db : Db}
    (h : Counted kind set (additions set calls) db) (check : Key → UInt64) (pre : Key) :
    (seenTexts check set pre db).Perm (present kind set pre calls) := by
  refine (List.perm_ext_iff_of_nodup (h.nodup_seenTexts hset check pre) nodup_present).mpr
    fun t => ?_
  rw [h.mem_seenTexts hset, mem_present]
  constructor
  · rintro ⟨_, hstart, hpos⟩
    exact ⟨hpos, hstart⟩
  · rintro ⟨hpos, hstart⟩
    obtain ⟨c, hc, rfl⟩ := exists_of_tally_ne hpos.ne'
    exact ⟨(hcalls c hc).text, hstart, hpos⟩

end Present

/-- After any run of additions and removals a search for a prefix answers with the texts of the
largest numbers of additions among those that are present and start with the prefix at the boundary
of a token: as many as asked for within its bounds, or all, each with its number, the largest
first. -/
theorem acrange_top (kind : Kind) {set : Key} (hset : separator ∉ set) (hne : set ≠ [])
    {calls : List Call} (hcalls : ∀ c ∈ calls, c.Sound kind)
    (hcount : ∀ t, calls.countP (Call.Adds set t) < 2 ^ 32) {db : Db}
    (hdb : Increasing Pair.key db) (hfresh : ∀ p ∈ db, ¬set ++ [separator] <+: p.key) :
    ∃ db', run kind calls db = some db' ∧ ∀ (check : Key → UInt64) (cmd pre count : Key),
      set.length + pre.length + 2 ≤ bufferKeySize →
      (db'.filter fun p => decide (set ++ separator :: (pre ++ [separator]) <+: p.key)).length ≤
        Queue.ITERATIONS_LOOPS_MAX →
      ∃ tail answer, acrange check [cmd, set, pre, count, []] db' =
          .container ((answer.flatMap fun t => [t, numeral (additions set calls t)]) ++ [tail]) ∧
        Top (myClamp count ITERATIONS_RESULTS_MIN ITERATIONS_RESULTS_MAX) (additions set calls)
          (present kind set pre calls) answer ∧
        ∀ t, additions set calls t = 0 → t ∉ answer := by
  obtain ⟨db', hrun, hcounted, hbound⟩ := run_counted hset hcalls (counted_nil hdb hfresh)
    fun t => (Nat.zero_add _).symm ▸ hcount t
  refine ⟨db', hrun, fun check cmd pre count hsize hbudget => ?_⟩
  obtain ⟨tail, answer, hanswer, htop⟩ :=
    hcounted.acrange_eq hset check pre hne hbound cmd count hsize hbudget
  have hpresent := htop.perm (seenTexts_perm_present hset hcalls hcounted check pre)
  refine ⟨tail, answer, hanswer, hpresent, fun t hzero ht => ?_⟩
  have hpos := (mem_present.mp (hpresent.subperm.subset ht)).1
  omega

/-- An addition to the set "n". -/
def smallAdd (text : Key) : Call := .add 0 (fun _ => ⟨true, true, 0⟩) [] [110] text none

/-- A run of two additions of texts of one letter. -/
theorem acrange_top_small :
    ∃ db', run .bin [smallAdd [97], smallAdd [98]] [] = some db' ∧
      ∀ (check : Key → UInt64) (cmd pre count : Key),
        ([110] : Key).length + pre.length + 2 ≤ bufferKeySize →
        (db'.filter fun p =>
          decide ([110] ++ separator :: (pre ++ [separator]) <+: p.key)).length ≤
            Queue.ITERATIONS_LOOPS_MAX →
        ∃ tail answer, acrange check [cmd, [110], pre, count, []] db' =
            .container ((answer.flatMap fun t =>
              [t, numeral (additions [110] [smallAdd [97], smallAdd [98]] t)]) ++ [tail]) ∧
          Top (myClamp count ITERATIONS_RESULTS_MIN ITERATIONS_RESULTS_MAX)
            (additions [110] [smallAdd [97], smallAdd [98]])
            (present .bin [110] pre [smallAdd [97], smallAdd [98]]) answer ∧
          ∀ t, additions [110] [smallAdd [97], smallAdd [98]] t = 0 → t ∉ answer :=
  acrange_top .bin (by decide) (by decide)
    (fun c hc => by
      rcases List.mem_pair.mp hc with rfl | rfl
      · exact ⟨by decide, by decide, trivial, rfl⟩
      · exact ⟨by decide, by decide, trivial, rfl⟩)
    (fun t => Nat.lt_of_le_of_lt List.countP_le_length (by decide)) List.Pairwise.nil
    (fun p hp => absurd hp List.not_mem_nil)

/-- One text is asked for, and two are answered. -/
theorem acrange_clamped :
    (run .bin [smallAdd [97], smallAdd [98]] []).map
        (acrange (fun _ => 0) [[], [110], [], numeral 1, []]) =
      some (.container [[98], [49], [97], [49], []]) ∧
    (present .bin [110] [] [smallAdd [97], smallAdd [98]]).length = 2 := by
  have hall : ∀ t ∈ [[97], [98]], 0 < additions [110] [smallAdd [97], smallAdd [98]] t ∧
      Kind.bin.StartsWith t [] := fun t ht => by
    rcases List.mem_pair.mp ht with rfl | rfl
    · exact ⟨by decide, List.nil_prefix⟩
    · exact ⟨by decide, List.nil_prefix⟩
  have hperm : (present .bin [110] [] [smallAdd [97], smallAdd [98]]).Perm [[97], [98]] := by
    refine (List.perm_ext_iff_of_nodup nodup_present (by decide)).mpr fun t => ?_
    refine ⟨fun ht => ?_, fun ht => mem_present.mpr (hall t ht)⟩
    obtain ⟨c, hc, rfl⟩ := exists_of_tally_ne (mem_present.mp ht).1.ne'
    exact List.mem_map_of_mem (f := Call.text) hc
  exact ⟨by decide +kernel, hperm.length_eq⟩

end HM4.Autocomplete
