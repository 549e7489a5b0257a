import HM4.Pairs
import HM4.General.BoundedSearch

/-!
# Disk tables and plain binary search

A disk table is a list of pairs with strictly increasing keys. Plain search
halves the table with a comparator that remembers how many octets the key is
known to share with both ends of the open range, and compares behind them. It
locates every key.
-/

namespace HM4.DiskTable

open LexPrefix Bytes CmpLCP Pairs BoundedSearch

/-- The pairs of a disk table, in the order of their keys. -/
structure Table where
  /-- The pairs in file order. -/
  pairs : List Pair
  sorted : pairs.Pairwise (fun p q => p.key < q.key)

namespace Table

/-- The table that holds one pair. -/
def single (p : Pair) : Table := ⟨[p], List.pairwise_singleton _ p⟩

/-- The number of pairs. -/
def size (t : Table) : ℕ := t.pairs.length

/-- The key at a position. -/
def keyAt (t : Table) (i : ℕ) : Key :=
  match t.pairs[i]? with
  | some p => p.key
  | none => []

/-- The order of the key at a position relative to the searched key. -/
def order (t : Table) (key : Key) (i : ℕ) : Ordering := lex (t.keyAt i) key

end Table

/-- The two prefix lengths that `PairLCPCompare` remembers. -/
structure PrefixState where
  /-- Octets shared with the last pair that was not below the key. -/
  prefixL : ℕ
  /-- Octets shared with the last pair that was not above the key. -/
  prefixR : ℕ

/-- `PairLCPCompare`: compare behind the octets shared with both ends. -/
def pairLCPCompare (t : Table) (key : Key) : Comparator PrefixState := fun s i =>
  match t.pairs[i]? with
  | none => none
  | some pair =>
    let pr := min s.prefixL s.prefixR
    match pair.cmpLCP key pr with
    | none => none
    | some ⟨comp, pref⟩ => some (comp,
        { prefixL := if comp ≠ .lt then pr + pref else s.prefixL
          prefixR := if comp ≠ .gt then pr + pref else s.prefixR })

/-- The default minimum distance of `binarySearch`. -/
def minimumDistance : ℕ := 5

/-- `searchBinary<start>` over a part of the table. -/
def searchBinaryIn (start : ℕ) (t : Table) (key : Key) (first last : ℕ) : Option SearchResult :=
  binarySearch (pairLCPCompare t key) minimumDistance ⟨start, start⟩ first last

/-- `searchBinary` over the whole table. -/
def searchBinary (t : Table) (key : Key) : Option SearchResult :=
  searchBinaryIn 0 t key 0 t.size

namespace Table

variable (t : Table)

theorem keyAt_of_getElem? {t : Table} {i : ℕ} {p : Pair} (h : t.pairs[i]? = some p) :
    t.keyAt i = p.key := by
  rw [keyAt, h]

/-- Every position of the table holds a pair. -/
theorem exists_pair {t : Table} {i : ℕ} (h : i < t.size) :
    ∃ p, t.pairs[i]? = some p ∧ t.keyAt i = p.key := by
  have hp : t.pairs[i]? = some t.pairs[i] := List.getElem?_eq_getElem h
  exact ⟨_, hp, keyAt_of_getElem? hp⟩

theorem keyAt_ne_nil {t : Table} {i : ℕ} (h : i < t.size) : t.keyAt i ≠ [] := by
  obtain ⟨p, _, hk⟩ := exists_pair h
  rw [hk]
  exact p.key_ne_nil

/-- Keys increase with their positions. -/
theorem keyAt_lt {t : Table} {i j : ℕ} (hij : i < j) (hj : j < t.size) :
    t.keyAt i < t.keyAt j := by
  have hi : i < t.pairs.length := hij.trans hj
  have h := List.pairwise_iff_getElem.mp t.sorted i j hi hj hij
  rwa [keyAt_of_getElem? (List.getElem?_eq_getElem hi),
    keyAt_of_getElem? (List.getElem?_eq_getElem hj)]

theorem keyAt_le {t : Table} {i j : ℕ} (hij : i ≤ j) (hj : j < t.size) :
    t.keyAt i ≤ t.keyAt j := by
  rcases Nat.eq_or_lt_of_le hij with rfl | h
  · exact le_rfl
  · exact (keyAt_lt h hj).le

/-- The order relative to any key is strict over the table. -/
theorem strictOrder (key : Key) {lo hi : ℕ} (h : hi ≤ t.size) :
    StrictOrder (t.order key) lo hi := by
  intro i j _ hij hj hne
  have hlt := keyAt_lt hij (hj.trans_le h)
  have hge : key ≤ t.keyAt i := by
    rw [← not_lt, ← lex_eq_lt]
    exact hne
  exact lex_eq_gt.mpr (lt_of_le_of_lt hge hlt)

/-- The result every search has to give: the first position whose key is not
below the searched one, found exactly when it holds that key. -/
def Finds (t : Table) (key : Key) (r : SearchResult) : Prop :=
  Locates (t.order key) 0 t.size r

/-- The result an exact lookup has to give: a found position holds the key, and
a key that was not found is not in the table. -/
structure FindsExact (t : Table) (key : Key) (r : SearchResult) : Prop where
  found : r.found = true → r.pos < t.size ∧ t.keyAt r.pos = key
  absent : r.found = false → ∀ i < t.size, t.keyAt i ≠ key

/-- The pair of a key. -/
def lookup (t : Table) (key : Key) : Option Pair := t.pairs.find? (fun p => p.key == key)

/-- A position that holds the key holds its pair. -/
theorem lookup_of_keyAt {t : Table} {key : Key} {i : ℕ} (hi : i < t.size)
    (hkey : t.keyAt i = key) : t.lookup key = t.pairs[i]? := by
  rw [lookup, List.getElem?_eq_getElem hi, List.find?_eq_some_iff_getElem]
  have hat := fun j (hj : j < t.size) => keyAt_of_getElem? (List.getElem?_eq_getElem hj)
  refine ⟨beq_iff_eq.mpr ((hat i hi).symm.trans hkey), i, hi, rfl, fun j hj => ?_⟩
  have hne := (keyAt_lt hj hi).ne
  rw [hat j (hj.trans hi), hkey] at hne
  exact Bool.not_eq_true' _ ▸ beq_eq_false_iff_ne.mpr hne

/-- A key that no position holds has no pair. -/
theorem lookup_of_absent {t : Table} {key : Key} (h : ∀ i < t.size, t.keyAt i ≠ key) :
    t.lookup key = none := by
  rw [lookup, List.find?_eq_none]
  intro p hp he
  obtain ⟨i, hi, rfl⟩ := List.mem_iff_getElem.mp hp
  exact h i hi ((keyAt_of_getElem? (List.getElem?_eq_getElem hi)).trans (beq_iff_eq.mp he))

/-- The pair at the position that an exact result names. -/
theorem FindsExact.lookup_eq {t : Table} {key : Key} {r : SearchResult}
    (h : t.FindsExact key r) : t.lookup key = if r.found then t.pairs[r.pos]? else none := by
  cases hf : r.found with
  | true =>
    obtain ⟨hpos, hkey⟩ := h.found hf
    rw [if_pos rfl, lookup_of_keyAt hpos hkey]
  | false =>
    rw [if_neg Bool.false_ne_true, lookup_of_absent (h.absent hf)]

/-- What finds the key also finds it exactly. -/
theorem Finds.exact {t : Table} {key : Key} {r : SearchResult} (h : t.Finds key r) :
    t.FindsExact key r where
  found hf := ⟨(h.found_iff.mp hf).1, lex_eq_eq.mp (h.found_iff.mp hf).2⟩
  absent hf i hi he := by
    have ho : t.order key i = .eq := lex_eq_eq.mpr he
    rcases lt_trichotomy i r.pos with hlt | heq | hgt
    · rw [h.below i (Nat.zero_le i) hlt] at ho
      exact Ordering.noConfusion ho
    · rw [heq] at hi ho
      rw [h.found_iff.mpr ⟨hi, ho⟩] at hf
      exact Bool.noConfusion hf
    · have hs := t.strictOrder key le_rfl r.pos i (Nat.zero_le _) hgt hi
        (h.above r.pos le_rfl (hgt.trans hi))
      rw [hs] at ho
      exact Ordering.noConfusion ho

end Table

/-- What `PairLCPCompare` knows about the pairs of an open range: up to the
first length they are not above the key, and all of them are above the key cut
at the second length. -/
structure PrefixesHold (t : Table) (key : Key) (s : PrefixState) (lo hi : ℕ) : Prop where
  short : s.prefixR < key.length
  upper : ∀ i, lo ≤ i → i < hi → (t.keyAt i).take s.prefixL ≤ key.take s.prefixL
  lower : ∀ i, lo ≤ i → i < hi → key.take s.prefixR < t.keyAt i

/-- The remembered octets are shared, and no key of the range ends in them. -/
theorem PrefixesHold.shared {t : Table} {key : Key} {s : PrefixState} {lo hi i : ℕ}
    (h : PrefixesHold t key s lo hi) (h1 : lo ≤ i) (h2 : i < hi) :
    (t.keyAt i).take (min s.prefixL s.prefixR) = key.take (min s.prefixL s.prefixR) ∧
      min s.prefixL s.prefixR < (t.keyAt i).length := by
  have hup := take_le_take (h.upper i h1 h2) (min s.prefixL s.prefixR)
  have hlo := take_le_take (h.lower i h1 h2).le (min s.prefixL s.prefixR)
  rw [List.take_take, List.take_take, min_eq_left (min_le_left _ _)] at hup
  rw [List.take_take, min_eq_left (min_le_right _ _)] at hlo
  have he := le_antisymm hup hlo
  refine ⟨he, ?_⟩
  by_contra hc
  -- a key that ends inside the shared octets is a prefix of the cut key
  have hle : t.keyAt i ≤ key.take s.prefixR := by
    apply le_of_isPrefix
    rw [← List.take_of_length_le (not_lt.mp hc), he]
    rw [← min_eq_left (min_le_right s.prefixL s.prefixR), ← List.take_take]
    exact List.take_prefix _ _
  exact absurd (h.lower i h1 h2) (not_lt.mpr hle)

/-- Behind shared octets in which neither key ends the comparator tells the
order of whole keys, and it remembers their common prefix. -/
theorem pairLCPCompare_eq {t : Table} {key : Key} {s : PrefixState} {mid : ℕ}
    (hmid : mid < t.size)
    (hshared : (t.keyAt mid).take (min s.prefixL s.prefixR) = key.take (min s.prefixL s.prefixR))
    (hlen : min s.prefixL s.prefixR < (t.keyAt mid).length)
    (hlenk : min s.prefixL s.prefixR < key.length) :
    pairLCPCompare t key s mid = some (t.order key mid,
      { prefixL := if t.order key mid ≠ .lt then lcp (t.keyAt mid) key else s.prefixL
        prefixR := if t.order key mid ≠ .gt then lcp (t.keyAt mid) key else s.prefixR }) := by
  obtain ⟨p, hget, hkey⟩ := Table.exists_pair hmid
  have hne : key ≠ [] := List.ne_nil_of_length_pos (Nat.zero_lt_of_lt hlenk)
  have hd1 : (t.keyAt mid).drop (min s.prefixL s.prefixR) ≠ [] :=
    List.ne_nil_of_length_pos (by rw [List.length_drop]; omega)
  have hd2 : key.drop (min s.prefixL s.prefixR) ≠ [] :=
    List.ne_nil_of_length_pos (by rw [List.length_drop]; omega)
  have hcmp : p.cmpLCP key (min s.prefixL s.prefixR) =
      some ⟨t.order key mid, lcp (t.keyAt mid) key - min s.prefixL s.prefixR⟩ := by
    rw [Pair.cmpLCP, if_neg hne, cmpLCPFrom, ← hkey, if_pos ⟨hlen.le, hlenk.le⟩,
      cmpLCP_eq hd1 hd2, Table.order, lex_drop hshared, lcp_drop hshared hlen.le hlenk.le,
      Nat.add_sub_cancel_left]
  have hpr : min s.prefixL s.prefixR ≤ lcp (t.keyAt mid) key :=
    le_lcp_of_take_eq hshared hlen.le hlenk.le
  rw [pairLCPCompare, hget]
  dsimp only
  rw [hcmp]
  dsimp only
  rw [Nat.add_sub_cancel' hpr]

/-- A lower pair becomes the new lower end of the range. -/
theorem prefixesHold_right {t : Table} {key : Key} {prefixL mid hi : ℕ} (hsize : hi ≤ t.size)
    (hlt : t.keyAt mid < key)
    (hup : ∀ i, mid < i → i < hi → (t.keyAt i).take prefixL ≤ key.take prefixL) :
    PrefixesHold t key ⟨prefixL, lcp (t.keyAt mid) key⟩ (mid + 1) hi where
  short := by
    -- a key that is a prefix of the lower one would not be above it
    by_contra hc
    have hle : key ≤ t.keyAt mid :=
      le_of_take_eq (take_lcp (t.keyAt mid) key).symm (not_lt.mp hc)
    exact absurd hlt (not_lt.mpr hle)
  upper := hup
  lower i hi1 hi2 := by
    dsimp only
    rw [← take_lcp]
    have hcut : (t.keyAt mid).take (lcp (t.keyAt mid) key) ≤ t.keyAt mid :=
      le_of_isPrefix (List.take_prefix _ _)
    exact lt_of_le_of_lt hcut (Table.keyAt_lt hi1 (hi2.trans_le hsize))

/-- Below a pair no key is above the searched one in what that pair shares with it. -/
theorem take_lcp_le {t : Table} {key : Key} {i mid : ℕ} (hi : i < mid) (hmid : mid < t.size) :
    (t.keyAt i).take (lcp (t.keyAt mid) key) ≤ key.take (lcp (t.keyAt mid) key) := by
  rw [← take_lcp]
  exact take_le_take (Table.keyAt_lt hi hmid).le _

/-- The comparator tells the order of whole keys and keeps what it remembers right. -/
theorem tells_pairLCPCompare (t : Table) (key : Key) :
    Tells (pairLCPCompare t key) (t.order key)
      (fun s lo hi => hi ≤ t.size ∧ PrefixesHold t key s lo hi) where
  step s lo hi mid hinv h1 h2 := by
    obtain ⟨hsize, hp⟩ := hinv
    have hmid : mid < t.size := h2.trans_le hsize
    obtain ⟨hshared, hlen⟩ := hp.shared h1 h2
    have hlenk : min s.prefixL s.prefixR < key.length :=
      lt_of_le_of_lt (min_le_right _ _) hp.short
    refine ⟨_, pairLCPCompare_eq hmid hshared hlen hlenk, ?_, ?_⟩
    · intro ho
      rw [ho, if_neg (not_not.mpr rfl), if_pos (by decide)]
      exact ⟨hsize, prefixesHold_right hsize (lex_eq_lt.mp ho)
        (fun i hi1 hi2 => hp.upper i (by omega) hi2)⟩
    · intro ho
      rw [ho, if_pos (by decide), if_neg (not_not.mpr rfl)]
      exact ⟨hmid.le, hp.short, fun i _ hi2 => take_lcp_le hi2 hmid,
        fun i hi1 hi2 => hp.lower i hi1 (hi2.trans h2)⟩

/-- With nothing remembered the comparator is right for every range. -/
theorem prefixesHold_zero {t : Table} {key : Key} (hk : key ≠ []) {lo hi : ℕ}
    (hi_le : hi ≤ t.size) : PrefixesHold t key ⟨0, 0⟩ lo hi where
  short := List.length_pos_of_ne_nil hk
  upper _ _ _ := le_rfl
  lower i _ h2 := by
    have hne := Table.keyAt_ne_nil (h2.trans_le hi_le)
    dsimp only
    rw [List.take_zero]
    exact lt_of_le_of_ne (le_of_isPrefix List.nil_prefix) hne.symm

/-- Plain search over a part of the table locates the key there. -/
theorem searchBinaryIn_locates {t : Table} {key : Key} (hk : key ≠ []) {first last : ℕ}
    (h1 : first ≤ last) (h2 : last ≤ t.size) :
    ∃ r, searchBinaryIn 0 t key first last = some r ∧ Locates (t.order key) first last r :=
  binarySearch_locates (tells_pairLCPCompare t key) minimumDistance h1 (t.strictOrder key h2)
    ⟨h2, prefixesHold_zero hk h2⟩

/-- Plain search over the whole table finds the key. -/
theorem searchBinary_finds (t : Table) {key : Key} (hk : key ≠ []) :
    ∃ r, searchBinary t key = some r ∧ t.Finds key r :=
  searchBinaryIn_locates hk (Nat.zero_le _) le_rfl

/-- A result is right exactly when it is the one of plain search. -/
theorem finds_iff_searchBinary (t : Table) {key : Key} (hk : key ≠ []) (r : SearchResult) :
    t.Finds key r ↔ searchBinary t key = some r := by
  obtain ⟨r', hr', hf⟩ := searchBinary_finds t hk
  constructor
  · intro h
    rw [hr', Locates.unique h hf]
  · intro h
    rw [hr'] at h
    exact Option.some.inj h ▸ hf

end HM4.DiskTable
