import Mathlib.Data.List.Basic
import Mathlib.Order.Lattice

/-!
# Lists with increasing keys

A map whose entries carry their keys, kept as the list of its entries in the
order of the keys. Putting an entry replaces the one with the same key. When a
list is cut at a key, what the operations do is seen from the two parts.
-/

namespace HM4.KeyedList

variable {α K : Type*} [LinearOrder K] (key : α → K)

/-- The keys increase. -/
def Increasing (l : List α) : Prop := l.Pairwise (fun x y => key x < key y)

/-- The entry of a key. -/
def lookup (k : K) : List α → Option α
  | [] => none
  | y :: l => if key y = k then some y else lookup k l

/-- The entry put where its key belongs, in place of one with the same key. -/
def put (x : α) : List α → List α
  | [] => [x]
  | y :: l => if key x < key y then x :: y :: l else if key x = key y then x :: l else y :: put x l

/-- The entries without the one of a key. -/
def remove (k : K) : List α → List α
  | [] => []
  | y :: l => if key y = k then l else y :: remove k l

/-- The entries from the first one that is not below a key. -/
def fromKey (k : K) (l : List α) : List α := l.dropWhile (fun y => decide (key y < k))

attribute [local simp] lookup put remove

variable {key}

theorem Increasing.append_iff {l1 l2 : List α} :
    Increasing key (l1 ++ l2) ↔
      Increasing key l1 ∧ Increasing key l2 ∧ ∀ x ∈ l1, ∀ y ∈ l2, key x < key y :=
  List.pairwise_append

theorem Increasing.cons_iff {x : α} {l : List α} :
    Increasing key (x :: l) ↔ (∀ y ∈ l, key x < key y) ∧ Increasing key l :=
  List.pairwise_cons

/-- A list in order is cut at any key. -/
theorem Increasing.exists_cut {l : List α} (h : Increasing key l) (k : K) :
    ∃ l1 l2, l = l1 ++ l2 ∧ (∀ x ∈ l1, key x < k) ∧ ∀ x ∈ l2, k ≤ key x := by
  induction l with
  | nil => exact ⟨[], [], rfl, fun _ hx => absurd hx List.not_mem_nil,
      fun _ hx => absurd hx List.not_mem_nil⟩
  | cons y l ih =>
    obtain ⟨hy, hl⟩ := cons_iff.mp h
    by_cases hk : key y < k
    · obtain ⟨l1, l2, rfl, h1, h2⟩ := ih hl
      exact ⟨y :: l1, l2, rfl, List.forall_mem_cons.mpr ⟨hk, h1⟩, h2⟩
    · refine ⟨[], y :: l, rfl, fun _ hx => absurd hx List.not_mem_nil,
        List.forall_mem_cons.mpr ⟨not_lt.mp hk, fun x hx => ?_⟩⟩
      exact (not_lt.mp hk).trans (hy x hx).le

theorem put_append {x : α} {l1 l2 : List α} (h : ∀ y ∈ l1, key y < key x) :
    put key x (l1 ++ l2) = l1 ++ put key x l2 := by
  induction l1 with
  | nil => rfl
  | cons y l1 ih =>
    have hy := h y List.mem_cons_self
    rw [List.cons_append, put, if_neg (lt_asymm hy), if_neg hy.ne',
      ih fun z hz => h z (List.mem_cons_of_mem y hz), List.cons_append]

/-- A new key goes between the smaller and the greater ones. -/
theorem put_new {x : α} {l1 l2 : List α} (h1 : ∀ y ∈ l1, key y < key x)
    (h2 : ∀ y ∈ l2, key x < key y) : put key x (l1 ++ l2) = l1 ++ x :: l2 := by
  rw [put_append h1]
  cases l2 with
  | nil => rfl
  | cons y l2 => rw [put, if_pos (h2 y List.mem_cons_self)]

/-- A key that is there keeps its place. -/
theorem put_same {x y : α} {l1 l2 : List α} (h1 : ∀ z ∈ l1, key z < key x)
    (hy : key y = key x) : put key x (l1 ++ y :: l2) = l1 ++ x :: l2 := by
  rw [put_append h1, put, if_neg hy.symm.not_lt, if_pos hy.symm]

theorem lookup_eq_none {k : K} {l : List α} (h : ∀ y ∈ l, key y ≠ k) : lookup key k l = none := by
  induction l with
  | nil => rfl
  | cons y l ih =>
    rw [lookup, if_neg (h y List.mem_cons_self), ih fun z hz => h z (List.mem_cons_of_mem y hz)]

theorem lookup_at {k : K} {y : α} {l1 l2 : List α} (h1 : ∀ z ∈ l1, key z < k) (hy : key y = k) :
    lookup key k (l1 ++ y :: l2) = some y := by
  induction l1 with
  | nil => rw [List.nil_append, lookup, if_pos hy]
  | cons z l1 ih =>
    rw [List.cons_append, lookup, if_neg (h1 z List.mem_cons_self).ne,
      ih fun w hw => h1 w (List.mem_cons_of_mem z hw)]

theorem lookup_key {k : K} {y : α} {l : List α} (h : lookup key k l = some y) : key y = k := by
  induction l with
  | nil => exact absurd h.symm (Option.some_ne_none y)
  | cons z l ih =>
    rw [lookup] at h
    split at h
    · next hz => exact Option.some.inj h ▸ hz
    · exact ih h

variable (key) in
/-- An entry that is put is found. -/
theorem lookup_put_self (x : α) (l : List α) : lookup key (key x) (put key x l) = some x := by
  induction l with
  | nil => rw [put, lookup, if_pos rfl]
  | cons y l ih =>
    rw [put]
    split_ifs with hlt heq
    · rw [lookup, if_pos rfl]
    · rw [lookup, if_pos rfl]
    · rw [lookup, if_neg (Ne.symm heq)]
      exact ih

/-- The other entries stay. -/
theorem lookup_put_of_ne {k : K} {x : α} (h : key x ≠ k) (l : List α) :
    lookup key k (put key x l) = lookup key k l := by
  induction l with
  | nil => exact if_neg h
  | cons y l ih =>
    rw [put]
    split_ifs with hlt heq
    · rw [lookup, if_neg h]
    · rw [lookup, if_neg h, lookup, if_neg fun hy => h (heq.trans hy)]
    · rw [lookup, lookup, ih]

theorem remove_at {k : K} {y : α} {l1 l2 : List α} (h1 : ∀ z ∈ l1, key z < k) (hy : key y = k) :
    remove key k (l1 ++ y :: l2) = l1 ++ l2 := by
  induction l1 with
  | nil => rw [List.nil_append, remove, if_pos hy, List.nil_append]
  | cons z l1 ih =>
    rw [List.cons_append, remove, if_neg (h1 z List.mem_cons_self).ne,
      ih fun w hw => h1 w (List.mem_cons_of_mem z hw), List.cons_append]

/-- The entries from a key on are those behind the smaller ones. -/
theorem fromKey_append {k : K} {l1 l2 : List α} (h1 : ∀ y ∈ l1, key y < k)
    (h2 : ∀ y ∈ l2, k ≤ key y) : fromKey key k (l1 ++ l2) = l2 := by
  induction l1 with
  | nil =>
    cases l2 with
    | nil => rfl
    | cons y l2 =>
      have hy := h2 y List.mem_cons_self
      rw [List.nil_append, fromKey, List.dropWhile_cons_of_neg]
      rw [decide_eq_true_eq, not_lt]
      exact hy
  | cons z l1 ih =>
    rw [List.cons_append, fromKey, List.dropWhile_cons,
      if_pos (decide_eq_true (h1 z List.mem_cons_self))]
    exact ih fun w hw => h1 w (List.mem_cons_of_mem z hw)

theorem fromKey_of_le {k : K} {l : List α} (h : ∀ y ∈ l, k ≤ key y) : fromKey key k l = l := by
  have hnone : ∀ y ∈ ([] : List α), key y < k := fun _ hy => absurd hy List.not_mem_nil
  exact fromKey_append hnone h

theorem mem_put {x y : α} {l : List α} (h : y ∈ put key x l) : y = x ∨ y ∈ l := by
  induction l with
  | nil => exact .inl (List.mem_singleton.mp h)
  | cons z l ih =>
    rw [put] at h
    split at h
    · exact List.mem_cons.mp h
    · split at h
      · exact (List.mem_cons.mp h).imp_right (List.mem_cons_of_mem z)
      · rcases List.mem_cons.mp h with rfl | hl
        · exact .inr List.mem_cons_self
        · exact (ih hl).imp_right (List.mem_cons_of_mem z)

theorem Increasing.put {x : α} {l : List α} (h : Increasing key l) :
    Increasing key (put key x l) := by
  induction l with
  | nil => exact List.pairwise_singleton _ x
  | cons y l ih =>
    obtain ⟨hy, hl⟩ := Increasing.cons_iff.mp h
    rw [KeyedList.put]
    split
    · next hlt =>
      exact Increasing.cons_iff.mpr
        ⟨List.forall_mem_cons.mpr ⟨hlt, fun z hz => hlt.trans (hy z hz)⟩, h⟩
    · next hnlt =>
      split
      · next heq => exact Increasing.cons_iff.mpr ⟨fun z hz => heq ▸ hy z hz, hl⟩
      · next hne =>
        have hgt := lt_of_le_of_ne (not_lt.mp hnlt) (Ne.symm hne)
        refine Increasing.cons_iff.mpr ⟨fun z hz => ?_, ih hl⟩
        rcases mem_put hz with rfl | hz
        · exact hgt
        · exact hy z hz

theorem Increasing.remove {k : K} {l : List α} (h : Increasing key l) :
    Increasing key (remove key k l) := by
  have hsub : (KeyedList.remove key k l).Sublist l := by
    clear h
    induction l with
    | nil => exact List.Sublist.refl _
    | cons y l ih =>
      rw [KeyedList.remove]
      split
      · exact List.sublist_cons_self y l
      · exact ih.cons_cons y
  exact List.Pairwise.sublist hsub h

/-- An entry that is removed is not found. -/
theorem Increasing.lookup_remove_self {k : K} {l : List α} (h : Increasing key l) :
    lookup key k (KeyedList.remove key k l) = none := by
  induction l with
  | nil => rfl
  | cons y l ih =>
    obtain ⟨hy, hl⟩ := Increasing.cons_iff.mp h
    rw [KeyedList.remove]
    split
    · next heq => exact lookup_eq_none fun z hz => heq ▸ (hy z hz).ne'
    · next hne =>
      rw [lookup, if_neg hne]
      exact ih hl

/-- The other entries stay. -/
theorem lookup_remove_of_ne {k k' : K} (h : k ≠ k') (l : List α) :
    lookup key k' (remove key k l) = lookup key k' l := by
  induction l with
  | nil => rfl
  | cons y l ih =>
    rw [remove]
    split
    · next heq => rw [lookup, if_neg (heq ▸ h)]
    · rw [lookup, lookup, ih]

/-! ## Entries of a list -/

theorem mem_put_self (x : α) (l : List α) : x ∈ put key x l := by
  induction l with
  | nil => exact List.mem_singleton_self x
  | cons y l ih =>
    rw [put]
    split_ifs
    · exact List.mem_cons_self
    · exact List.mem_cons_self
    · exact List.mem_cons_of_mem y ih

/-- Entries with other keys stay, and no others come. -/
theorem mem_put_of_ne {x y : α} (h : key y ≠ key x) (l : List α) : y ∈ put key x l ↔ y ∈ l := by
  refine ⟨fun hy => (mem_put hy).resolve_left fun heq => h (heq ▸ rfl), fun hy => ?_⟩
  induction l with
  | nil => exact absurd hy List.not_mem_nil
  | cons z l ih =>
    rw [put]
    split_ifs with _ heq
    · exact List.mem_cons_of_mem x hy
    · refine List.mem_cons_of_mem x ((List.mem_cons.mp hy).resolve_left fun hyz => ?_)
      exact h (hyz ▸ heq.symm)
    · rcases List.mem_cons.mp hy with rfl | hy
      · exact List.mem_cons_self
      · exact List.mem_cons_of_mem z (ih hy)

theorem mem_of_mem_remove {k : K} {y : α} {l : List α} (h : y ∈ remove key k l) : y ∈ l := by
  induction l with
  | nil => exact h
  | cons z l ih =>
    rw [remove] at h
    split at h
    · exact List.mem_cons_of_mem z h
    · exact (List.mem_cons.mp h).elim (fun heq => heq ▸ List.mem_cons_self)
        fun h => List.mem_cons_of_mem z (ih h)

@[inherit_doc mem_put_of_ne]
theorem mem_remove_of_ne {k : K} {y : α} (h : key y ≠ k) (l : List α) :
    y ∈ remove key k l ↔ y ∈ l := by
  refine ⟨mem_of_mem_remove, fun hy => ?_⟩
  induction l with
  | nil => exact hy
  | cons z l ih =>
    rw [remove]
    split
    · next heq => exact (List.mem_cons.mp hy).resolve_left fun hyz => h (hyz ▸ heq)
    · rcases List.mem_cons.mp hy with rfl | hy
      · exact List.mem_cons_self
      · exact List.mem_cons_of_mem z (ih hy)

/-- An entry is found by its key. -/
theorem Increasing.lookup_of_mem {y : α} {l : List α} (h : Increasing key l) (hy : y ∈ l) :
    lookup key (key y) l = some y := by
  induction l with
  | nil => exact absurd hy List.not_mem_nil
  | cons z l ih =>
    obtain ⟨hz, hl⟩ := Increasing.cons_iff.mp h
    rw [lookup]
    rcases List.mem_cons.mp hy with rfl | hy
    · exact if_pos rfl
    · rw [if_neg (hz y hy).ne, ih hl hy]

/-- No two entries have one key. -/
theorem Increasing.eq_of_mem {x y : α} {l : List α} (h : Increasing key l) (hx : x ∈ l)
    (hy : y ∈ l) (hkey : key x = key y) : x = y :=
  Option.some.inj ((h.lookup_of_mem hx).symm.trans (hkey ▸ h.lookup_of_mem hy))

theorem mem_of_lookup {k : K} {y : α} {l : List α} (h : lookup key k l = some y) : y ∈ l := by
  induction l with
  | nil => exact absurd h.symm (Option.some_ne_none y)
  | cons z l ih =>
    rw [lookup] at h
    split at h
    · exact Option.some.inj h ▸ List.mem_cons_self
    · exact List.mem_cons_of_mem z (ih h)

/-- The entries from a key on. -/
theorem Increasing.mem_fromKey {k : K} {y : α} {l : List α} (h : Increasing key l) :
    y ∈ fromKey key k l ↔ y ∈ l ∧ k ≤ key y := by
  obtain ⟨l1, l2, rfl, h1, h2⟩ := h.exists_cut k
  rw [fromKey_append h1 h2, List.mem_append]
  refine ⟨fun hy => ⟨.inr hy, h2 y hy⟩, fun ⟨hy, hk⟩ => hy.resolve_left fun hy1 => ?_⟩
  exact not_lt.mpr hk (h1 y hy1)

theorem map_fromKey (k : K) (l : List α) :
    (fromKey key k l).map key = KeyedList.fromKey id k (l.map key) := by
  unfold KeyedList.fromKey
  rw [List.dropWhile_map]
  rfl

theorem Increasing.fromKey {k : K} {l : List α} (h : Increasing key l) :
    Increasing key (KeyedList.fromKey key k l) :=
  List.Pairwise.sublist (List.dropWhile_sublist _) h

end HM4.KeyedList
