import HM4.AVLContents

/-!
# Comparisons that skip a prefix

A search remembers how many octets the key shares with the last pair above it and with the last
pair below it, and compares behind the smaller number. Each comparison that a search makes has the
sign of the comparison of whole keys, since no pair that is left ends inside the octets skipped.
-/

namespace HM4.PrefixSkipping

open LexPrefix Bytes CmpLCP Pairs DiskTable BoundedSearch KeyedList LinkedTree LinkedTree.LTree
  LinkedTree.Ctx LinkedTree.Links AVLList AVLSearch AVLContents

/-! ## The comparisons of a search -/

/-- A comparison of a search. -/
structure Visit where
  pair : Pair
  /-- What `PairLCPCompare` remembers before it. -/
  prefixes : PrefixState

/-- The sign of the comparison is that of the comparison of whole keys, and it is equality for no
other key. -/
def Visit.Sound (key : Key) (v : Visit) : Prop :=
  ∃ comp s pref, pairCompare key v.prefixes v.pair = some (comp, s) ∧
    v.pair.cmpLCP key 0 = some ⟨comp, pref⟩ ∧ (comp = .eq → v.pair.key = key)

/-- The comparisons on the way down from a node, and where the search ends. -/
def visits (s : Links Item) (key : Key) :
    ℕ → PrefixState → Option ℕ → Option (List Visit × Option ℕ)
  | 0, _, _ => none
  | _ + 1, _, none => some ([], none)
  | k + 1, comp, some i => do
    let n ← s.get (some i)
    match ← pairCompare key comp n.val.data with
    | (.gt, comp') => do
      let (rest, x) ← visits s key k comp' n.l
      return (⟨n.val.data, comp⟩ :: rest, x)
    | (.lt, comp') => do
      let (rest, x) ← visits s key k comp' n.r
      return (⟨n.val.data, comp⟩ :: rest, x)
    | (.eq, _) => some ([⟨n.val.data, comp⟩], some i)

/-! ## Soundness -/

/-- The comparison of whole keys. -/
theorem cmpLCP_zero {p : Pair} {key : Key} (hk : key ≠ []) :
    p.cmpLCP key 0 = some ⟨lex p.key key, lcp p.key key⟩ := by
  rw [Pair.cmpLCP, if_neg hk, cmpLCPFrom, if_pos ⟨Nat.zero_le _, Nat.zero_le _⟩, List.drop_zero,
    List.drop_zero, cmpLCP_eq p.key_ne_nil hk]

/-- A comparison that tells the order is sound. -/
theorem sound_of_order {key : Key} {v : Visit} (hk : key ≠ []) {s : PrefixState}
    (h : pairCompare key v.prefixes v.pair = some (lex v.pair.key key, s)) : v.Sound key :=
  ⟨_, _, _, h, cmpLCP_zero hk, lex_eq_eq.mp⟩

/-- A comparison with the empty key does not look at the pair. -/
theorem sound_nil (v : Visit) : v.Sound [] :=
  ⟨.lt, _, 0, rfl, rfl, fun h => Ordering.noConfusion h⟩

section Descent

variable {key : Key} {s : Links Item}

/-- Below a node the comparisons are sound as long as the subtree is what is left of the pairs. -/
theorem exists_visits {c : Ctx Item} {t : LTree Item} {cs : PrefixState} {fuel : ℕ} (hk : key ≠ [])
    (hs : s.Stands (plug c t)) (h : Between key c t cs) (hf : t.height < fuel) :
    ∃ vs x, visits s key fuel cs t.addr = some (vs, x) ∧ ∀ v ∈ vs, v.Sound key := by
  induction t generalizing c cs fuel with
  | nil =>
    obtain ⟨fuel, rfl⟩ : ∃ m, fuel = m + 1 := ⟨fuel - 1, by omega⟩
    exact ⟨[], none, rfl, List.forall_mem_nil _⟩
  | node j v l r ihl ihr =>
    obtain ⟨fuel, rfl⟩ : ∃ m, fuel = m + 1 := ⟨fuel - 1, by omega⟩
    rw [height] at hf
    have hstands : s.Stands (plug c (join .left j v l r)) := hs
    have hget : s.get (some j) = some ⟨l.addr, r.addr, parent none c, v⟩ := hstands.get_eq
    obtain ⟨cs', he, hgt, hlt⟩ := h.step
    have hsound : Visit.Sound key ⟨v.data, cs⟩ := sound_of_order hk he
    simp only [visits, addr, hget, he, Option.bind_eq_bind, Option.bind_some]
    cases ho : lex v.data.key key with
    | lt =>
      obtain ⟨vs, x, hvs, hall⟩ := ihr hs (hlt ho) (by omega : r.height < fuel)
      refine ⟨_, x, ?_, List.forall_mem_cons.mpr ⟨hsound, hall⟩⟩
      change (visits s key fuel cs' r.addr).bind _ = _
      rw [hvs]
      rfl
    | gt =>
      obtain ⟨vs, x, hvs, hall⟩ := ihl hs (hgt ho) (by omega : l.height < fuel)
      refine ⟨_, x, ?_, List.forall_mem_cons.mpr ⟨hsound, hall⟩⟩
      change (visits s key fuel cs' l.addr).bind _ = _
      rw [hvs]
      rfl
    | eq => exact ⟨_, some j, rfl, List.forall_mem_singleton.mpr hsound⟩

/-- With the empty key the search goes to the right. -/
theorem exists_visits_nil {c : Ctx Item} {t : LTree Item} {cs : PrefixState} {fuel : ℕ}
    (hs : s.Stands (plug c t)) (hf : t.height < fuel) :
    ∃ vs x, visits s [] fuel cs t.addr = some (vs, x) := by
  induction t generalizing c cs fuel with
  | nil =>
    obtain ⟨fuel, rfl⟩ : ∃ m, fuel = m + 1 := ⟨fuel - 1, by omega⟩
    exact ⟨[], none, rfl⟩
  | node j v l r ihl ihr =>
    obtain ⟨fuel, rfl⟩ : ∃ m, fuel = m + 1 := ⟨fuel - 1, by omega⟩
    rw [height] at hf
    have hstands : s.Stands (plug c (join .left j v l r)) := hs
    have hget : s.get (some j) = some ⟨l.addr, r.addr, parent none c, v⟩ := hstands.get_eq
    have hright : s.Stands (plug (⟨.right, j, v, l⟩ :: c) r) := hs
    obtain ⟨cs', he⟩ : ∃ cs', pairCompare [] cs v.data = some (.lt, cs') := ⟨_, rfl⟩
    obtain ⟨vs, x, hvs⟩ := @ihr _ cs' fuel hright (by omega)
    simp only [visits, addr, hget, he, Option.bind_eq_bind, Option.bind_some]
    refine ⟨⟨v.data, cs⟩ :: vs, x, ?_⟩
    change (visits s [] fuel cs' r.addr).bind _ = _
    rw [hvs]
    rfl

end Descent

/-- With the empty key the comparator answers without looking at the pair. -/
theorem tells_nil (t : Table) :
    Tells (pairLCPCompare t []) (fun _ => .lt) fun _ _ hi => hi ≤ t.size where
  step s lo hi mid hinv h1 h2 := by
    obtain ⟨p, hget, -⟩ := Table.exists_pair (h2.trans_le hinv)
    rw [pairLCPCompare_of_getElem? hget]
    exact ⟨_, rfl, fun _ => hinv, fun ho => Ordering.noConfusion ho⟩

/-- The comparator of a table, asked in a state, is asked about a pair. -/
theorem asked_pair {t : Table} {key : Key} (hk : key ≠ []) {lo hi : ℕ} {x : ℕ × PrefixState}
    (h : Told (pairLCPCompare t key) (t.order key) lo hi x) (hi_le : hi ≤ t.size) :
    ∃ pair, t.pairs[x.1]? = some pair ∧ Visit.Sound key ⟨pair, x.2⟩ := by
  obtain ⟨-, hlt, s', htold⟩ := h
  obtain ⟨p, hget, hkey⟩ := Table.exists_pair (hlt.trans_le hi_le)
  rw [pairLCPCompare_of_getElem? hget, Table.order, hkey] at htold
  exact ⟨p, hget, sound_of_order hk htold⟩

/-- Each comparison of a search that goes down a tree of increasing pairs is sound. -/
theorem visits_sound {key : Key} {s : Links Item} {t : LTree Item} (hs : s.Stands t)
    (hsorted : Increasing Pair.key (pairsOf t)) {fuel : ℕ} (hf : t.height < fuel) :
    ∃ vs x, visits s key fuel ⟨0, 0⟩ s.root = some (vs, x) ∧ ∀ v ∈ vs, v.Sound key := by
  rw [hs.root_eq]
  by_cases hk : key = []
  · subst hk
    obtain ⟨vs, x, hvs⟩ := exists_visits_nil (c := []) hs hf
    exact ⟨vs, x, hvs, fun v _ => sound_nil v⟩
  · exact exists_visits (c := []) hk hs (between_root hk hsorted) hf

/-- Each comparison of a search of a part of a table is sound. -/
theorem asked_sound (key : Key) (t : Table) {first last : ℕ} (h1 : first ≤ last)
    (h2 : last ≤ t.size) :
    ∀ x ∈ binaryAsked (pairLCPCompare t key) minimumDistance ⟨0, 0⟩ first last,
      ∃ pair, t.pairs[x.1]? = some pair ∧ Visit.Sound key ⟨pair, x.2⟩ := by
  intro x hx
  by_cases hk : key = []
  · subst hk
    obtain ⟨-, hlt, -⟩ := binaryAsked_told (tells_nil t) minimumDistance h1 h2 x hx
    obtain ⟨p, hget, -⟩ := Table.exists_pair (hlt.trans_le h2)
    exact ⟨p, hget, sound_nil _⟩
  · exact asked_pair hk (binaryAsked_told (tells_pairLCPCompare t key) minimumDistance h1
      ⟨h2, prefixesHold_zero hk h2⟩ x hx) h2

/-- Each comparison of a search that goes down a tree, and of a search of a part of a table, is
sound. -/
theorem comparisons_sound (key : Key) :
    (∀ (s : Links Item) (t : LTree Item), s.Stands t → Increasing Pair.key (pairsOf t) →
      ∀ fuel, t.height < fuel → ∃ vs x, visits s key fuel ⟨0, 0⟩ s.root = some (vs, x) ∧
        ∀ v ∈ vs, v.Sound key) ∧
    ∀ (t : Table) (first last : ℕ), first ≤ last → last ≤ t.size →
      ∀ x ∈ binaryAsked (pairLCPCompare t key) minimumDistance ⟨0, 0⟩ first last,
        ∃ pair, t.pairs[x.1]? = some pair ∧ Visit.Sound key ⟨pair, x.2⟩ :=
  ⟨fun _ _ hs hsorted _ hf => visits_sound hs hsorted hf,
    fun t _ _ h1 h2 => asked_sound key t h1 h2⟩

end HM4.PrefixSkipping
