import Mathlib.Algebra.BigOperators.Group.List.Basic
import Mathlib.Algebra.GroupWithZero.Nat
import Mathlib.Data.List.Dedup
import Mathlib.Order.Lattice

/-!
# Tables of slots

A table has a fixed number of slots, each of which is free or keeps a value for a key. No key has
two slots. Two uses of such a table read a stream of keys and keep what matters of it in few slots:
the keys with the largest values, and the keys that are frequent.
-/

namespace HM4.SlotTable

variable {K V : Type*}

/-- Slots that are free or keep a value for a key. -/
abbrev Slots (K V : Type*) := List (Option (K × V))

/-- Some slot keeps a value for a key. -/
def Stores (t : Slots K V) (s : K) (v : V) : Prop := some (s, v) ∈ t

/-- No key has two slots. -/
def Distinct (t : Slots K V) : Prop :=
  ∀ (i j : ℕ) (s : K) (v w : V), t[i]? = some (some (s, v)) → t[j]? = some (some (s, w)) → i = j

/-- The keys of a table. -/
def keys (t : Slots K V) : List K := t.filterMap (·.map Prod.fst)

/-! ## Keys -/

section Keys

variable {t : Slots K V} {s : K} {v w : V}

theorem stores_iff : Stores t s v ↔ ∃ i : ℕ, t[i]? = some (some (s, v)) := List.mem_iff_getElem?

theorem mem_keys : s ∈ keys t ↔ ∃ v, Stores t s v := by
  unfold keys
  rw [List.mem_filterMap]
  constructor
  · rintro ⟨x, hx, hs⟩
    obtain ⟨⟨r, v⟩, rfl, rfl⟩ := Option.map_eq_some_iff.mp hs
    exact ⟨v, hx⟩
  · rintro ⟨v, hv⟩
    exact ⟨_, hv, rfl⟩

/-- A key has one value. -/
theorem Distinct.unique (h : Distinct t) (hv : Stores t s v) (hw : Stores t s w) : v = w := by
  obtain ⟨i, hi⟩ := stores_iff.mp hv
  obtain ⟨j, hj⟩ := stores_iff.mp hw
  obtain rfl := h i j s v w hi hj
  exact (Prod.mk.inj (Option.some.inj (Option.some.inj (hi.symm.trans hj)))).2

theorem Distinct.nodup_keys (h : Distinct t) : (keys t).Nodup := by
  induction t with
  | nil => exact List.nodup_nil
  | cons x t ih =>
    have ht : (keys t).Nodup := ih fun i j s v w hi hj =>
      Nat.succ_injective (h (i + 1) (j + 1) s v w hi hj)
    cases x with
    | none => exact ht
    | some x =>
      refine List.nodup_cons.mpr ⟨fun hin => ?_, ht⟩
      obtain ⟨w, hw⟩ := mem_keys.mp hin
      obtain ⟨j, hj⟩ := stores_iff.mp hw
      exact absurd (h 0 (j + 1) x.1 x.2 w rfl hj) (Nat.succ_ne_zero j).symm

theorem length_keys_le (t : Slots K V) : (keys t).length ≤ t.length := List.length_filterMap_le _ _

/-- A full table has as many keys as slots. -/
theorem length_keys_of_full (h : none ∉ t) : (keys t).length = t.length := by
  induction t with
  | nil => rfl
  | cons x t ih =>
    cases x with
    | none => exact absurd List.mem_cons_self h
    | some x => exact congrArg (· + 1) (ih fun hin => h (List.mem_cons_of_mem _ hin))

end Keys

/-! ## A slot that is written -/

section Set

variable {t : Slots K V} {i : ℕ} {old : Option (K × V)} {s : K} (v : V)

theorem distinct_replicate (n : ℕ) : Distinct (List.replicate n (none : Option (K × V))) := by
  intro i j s v w hi
  have := List.eq_of_mem_replicate (List.mem_of_getElem? hi)
  exact absurd this (Option.some_ne_none _)

theorem stores_set_self (hi : t[i]? = some old) : Stores (t.set i (some (s, v))) s v :=
  List.mem_set (List.getElem?_eq_some_iff.mp hi).1 _

/-- A key is put into a slot that it has, or it has none. -/
theorem distinct_set (ht : Distinct t) (hi : t[i]? = some old)
    (hnew : ∀ w, Stores t s w → old = some (s, w)) : Distinct (t.set i (some (s, v))) := by
  have hlt := (List.getElem?_eq_some_iff.mp hi).1
  have hself : ∀ j w, t[j]? = some (some (s, w)) → i = j := fun j w hj =>
    ht i j s w w (hi.trans (congrArg some (hnew w (List.mem_of_getElem? hj)))) hj
  intro j l r x y hj hl
  by_cases hij : i = j
  · subst hij
    rw [List.getElem?_set_self hlt] at hj
    obtain ⟨rfl, rfl⟩ := Prod.mk.inj (Option.some.inj (Option.some.inj hj))
    by_cases hil : i = l
    · exact hil
    · rw [List.getElem?_set_ne hil] at hl
      exact hself l y hl
  · rw [List.getElem?_set_ne hij] at hj
    by_cases hil : i = l
    · subst hil
      rw [List.getElem?_set_self hlt] at hl
      obtain ⟨rfl, rfl⟩ := Prod.mk.inj (Option.some.inj (Option.some.inj hl))
      exact absurd (hself j x hj) hij
    · rw [List.getElem?_set_ne hil] at hl
      exact ht j l r x y hj hl

/-- What is there after a slot is written. -/
theorem stores_set (ht : Distinct t) (hi : t[i]? = some old)
    (hnew : ∀ w, Stores t s w → old = some (s, w)) {r : K} {w : V} :
    Stores (t.set i (some (s, v))) r w ↔
      r = s ∧ w = v ∨ r ≠ s ∧ Stores t r w ∧ old ≠ some (r, w) := by
  have hlt := (List.getElem?_eq_some_iff.mp hi).1
  constructor
  · intro h
    obtain ⟨j, hj⟩ := stores_iff.mp h
    by_cases hij : i = j
    · subst hij
      rw [List.getElem?_set_self hlt] at hj
      obtain ⟨rfl, rfl⟩ := Prod.mk.inj (Option.some.inj (Option.some.inj hj))
      exact .inl ⟨rfl, rfl⟩
    · rw [List.getElem?_set_ne hij] at hj
      have hother : old ≠ some (r, w) := fun heq =>
        hij (ht i j r w w (hi.trans (congrArg some heq)) hj)
      refine .inr ⟨?_, List.mem_of_getElem? hj, hother⟩
      rintro rfl
      exact hother (hnew w (List.mem_of_getElem? hj))
  · rintro (⟨rfl, rfl⟩ | ⟨-, hw, hother⟩)
    · exact stores_set_self w hi
    · obtain ⟨j, hj⟩ := stores_iff.mp hw
      have hij : i ≠ j := by
        rintro rfl
        exact hother (Option.some.inj (hi.symm.trans hj))
      exact stores_iff.mpr ⟨j, (List.getElem?_set_ne hij).trans hj⟩

omit v in
/-- A key without a slot that is written into one. -/
theorem not_stores_of_not_mem (hs : s ∉ keys t) {old : Option (K × V)} (w : V)
    (h : Stores t s w) : old = some (s, w) := absurd (mem_keys.mpr ⟨w, h⟩) hs

theorem full_set (h : none ∉ t) (x : K × V) : none ∉ t.set i (some x) := by
  intro hin
  rcases List.mem_or_eq_of_mem_set hin with hin | heq
  · exact h hin
  · exact absurd heq.symm (Option.some_ne_none x)

end Set

/-! ## The keys with the largest values -/

section Largest

variable [LinearOrder V] {t t' : Slots K V} {stream : List (K × V)} {s : K} {v : V}

/-- One value of a stream: a key that has a slot keeps its largest value, another key takes a free
slot, or the slot with the smallest value if its own is larger. -/
inductive Offer (t : Slots K V) (s : K) (v : V) : Slots K V → Prop
  | improve {i : ℕ} {w : V} : t[i]? = some (some (s, w)) → w < v →
      Offer t s v (t.set i (some (s, v)))
  | keep {w : V} : Stores t s w → v ≤ w → Offer t s v t
  | fill {i : ℕ} : s ∉ keys t → t[i]? = some none → Offer t s v (t.set i (some (s, v)))
  | evict {i : ℕ} {r : K} {m : V} : s ∉ keys t → none ∉ t → t[i]? = some (some (r, m)) →
      (∀ q w, Stores t q w → m ≤ w) → m < v → Offer t s v (t.set i (some (s, v)))
  | skip : s ∉ keys t → none ∉ t → (∀ q w, Stores t q w → v ≤ w) → Offer t s v t

/-- The table keeps keys with their largest values, and has no room for a key that it does not keep,
whose values are not above any of these. -/
structure Leads (t : Slots K V) (stream : List (K × V)) : Prop where
  distinct : Distinct t
  best : ∀ s v, Stores t s v → (s, v) ∈ stream ∧ ∀ w, (s, w) ∈ stream → w ≤ v
  rest : ∀ s v, (s, v) ∈ stream → s ∉ keys t → none ∉ t ∧ ∀ r w, Stores t r w → v ≤ w

theorem leads_nil (n : ℕ) : Leads (List.replicate n (none : Option (K × V))) [] where
  distinct := distinct_replicate n
  best _ _ h := absurd (List.eq_of_mem_replicate h) (Option.some_ne_none _)
  rest _ _ h := absurd h List.not_mem_nil

theorem Leads.improve (h : Leads t stream) {i : ℕ} {w : V} (hi : t[i]? = some (some (s, w)))
    (hlt : w < v) : Leads (t.set i (some (s, v))) (stream ++ [(s, v)]) := by
  have hw : Stores t s w := List.mem_of_getElem? hi
  have hnew : ∀ x, Stores t s x → some (s, w) = some (s, x) := fun x hx =>
    h.distinct.unique hw hx ▸ rfl
  have hstores := @stores_set K V t i (some (s, w)) s v h.distinct hi hnew
  refine ⟨distinct_set v h.distinct hi hnew, fun r x hx => ?_, fun r x hx hr => ?_⟩
  · rcases hstores.mp hx with ⟨rfl, rfl⟩ | ⟨hne, hx, -⟩
    · refine ⟨List.mem_append_right _ List.mem_cons_self, fun y hy => ?_⟩
      rcases List.mem_append.mp hy with hy | hy
      · exact ((h.best r w hw).2 y hy).trans hlt.le
      · rw [(Prod.mk.inj (List.mem_singleton.mp hy)).2]
    · refine ⟨List.mem_append_left _ (h.best r x hx).1, fun y hy => ?_⟩
      rcases List.mem_append.mp hy with hy | hy
      · exact (h.best r x hx).2 y hy
      · exact absurd (Prod.mk.inj (List.mem_singleton.mp hy)).1 hne
  · have hne : r ≠ s := by
      rintro rfl
      exact hr (mem_keys.mpr ⟨v, stores_set_self v hi⟩)
    have hold : (r, x) ∈ stream := (List.mem_append.mp hx).resolve_right fun hin =>
      hne (Prod.mk.inj (List.mem_singleton.mp hin)).1
    have hr' : r ∉ keys t := by
      intro hin
      obtain ⟨y, hy⟩ := mem_keys.mp hin
      refine hr (mem_keys.mpr ⟨y, hstores.mpr (.inr ⟨hne, hy, fun heq => ?_⟩)⟩)
      exact hne (Prod.mk.inj (Option.some.inj heq)).1.symm
    obtain ⟨hfull, hbelow⟩ := h.rest r x hold hr'
    refine ⟨full_set hfull _, fun q y hq => ?_⟩
    rcases hstores.mp hq with ⟨-, rfl⟩ | ⟨-, hq, -⟩
    · exact (hbelow s w hw).trans hlt.le
    · exact hbelow q y hq

theorem Leads.keep (h : Leads t stream) {w : V} (hw : Stores t s w) (hle : v ≤ w) :
    Leads t (stream ++ [(s, v)]) := by
  refine ⟨h.distinct, fun r x hx => ?_, fun r x hx hr => ?_⟩
  · refine ⟨List.mem_append_left _ (h.best r x hx).1, fun y hy => ?_⟩
    rcases List.mem_append.mp hy with hy | hy
    · exact (h.best r x hx).2 y hy
    · obtain ⟨rfl, rfl⟩ := Prod.mk.inj (List.mem_singleton.mp hy)
      exact h.distinct.unique hw hx ▸ hle
  · rcases List.mem_append.mp hx with hx | hx
    · exact h.rest r x hx hr
    · obtain ⟨rfl, rfl⟩ := Prod.mk.inj (List.mem_singleton.mp hx)
      exact absurd (mem_keys.mpr ⟨w, hw⟩) hr

theorem Leads.fill (h : Leads t stream) {i : ℕ} (hs : s ∉ keys t) (hi : t[i]? = some none) :
    Leads (t.set i (some (s, v))) (stream ++ [(s, v)]) := by
  have hfree : none ∈ t := List.mem_of_getElem? hi
  have hnew : ∀ w, Stores t s w → none = some (s, w) := not_stores_of_not_mem hs
  have hstores := @stores_set K V t i none s v h.distinct hi hnew
  -- while a slot is free, every key of the stream has one
  have hall : ∀ r x, (r, x) ∈ stream → r ∈ keys t := fun r x hx => by
    by_contra hr
    exact (h.rest r x hx hr).1 hfree
  refine ⟨distinct_set v h.distinct hi hnew, fun r x hx => ?_, fun r x hx hr => ?_⟩
  · rcases hstores.mp hx with ⟨rfl, rfl⟩ | ⟨hne, hx, -⟩
    · refine ⟨List.mem_append_right _ List.mem_cons_self, fun y hy => ?_⟩
      rcases List.mem_append.mp hy with hy | hy
      · exact absurd (hall r y hy) hs
      · rw [(Prod.mk.inj (List.mem_singleton.mp hy)).2]
    · refine ⟨List.mem_append_left _ (h.best r x hx).1, fun y hy => ?_⟩
      rcases List.mem_append.mp hy with hy | hy
      · exact (h.best r x hx).2 y hy
      · exact absurd (Prod.mk.inj (List.mem_singleton.mp hy)).1 hne
  · refine absurd (mem_keys.mpr ?_) hr
    by_cases hrs : r = s
    · exact ⟨v, hrs ▸ stores_set_self v hi⟩
    · have hold : (r, x) ∈ stream := (List.mem_append.mp hx).resolve_right fun hin =>
        hrs (Prod.mk.inj (List.mem_singleton.mp hin)).1
      obtain ⟨y, hy⟩ := mem_keys.mp (hall r x hold)
      exact ⟨y, hstores.mpr (.inr ⟨hrs, hy, (Option.some_ne_none _).symm⟩)⟩

theorem Leads.evict (h : Leads t stream) {i : ℕ} {r : K} {m : V} (hs : s ∉ keys t)
    (hfull : none ∉ t) (hi : t[i]? = some (some (r, m))) (hmin : ∀ q w, Stores t q w → m ≤ w)
    (hlt : m < v) : Leads (t.set i (some (s, v))) (stream ++ [(s, v)]) := by
  have hm : Stores t r m := List.mem_of_getElem? hi
  have hnew : ∀ w, Stores t s w → some (r, m) = some (s, w) := not_stores_of_not_mem hs
  have hstores := @stores_set K V t i (some (r, m)) s v h.distinct hi hnew
  -- what is kept is not below the value that goes
  have hkept : ∀ q y, Stores (t.set i (some (s, v))) q y → m ≤ y := fun q y hq => by
    rcases hstores.mp hq with ⟨-, rfl⟩ | ⟨-, hq, -⟩
    · exact hlt.le
    · exact hmin q y hq
  refine ⟨distinct_set v h.distinct hi hnew, fun q x hx => ?_, fun q x hx hq => ?_⟩
  · rcases hstores.mp hx with ⟨rfl, rfl⟩ | ⟨hne, hx, -⟩
    · refine ⟨List.mem_append_right _ List.mem_cons_self, fun y hy => ?_⟩
      rcases List.mem_append.mp hy with hy | hy
      · exact ((h.rest q y hy hs).2 r m hm).trans hlt.le
      · rw [(Prod.mk.inj (List.mem_singleton.mp hy)).2]
    · refine ⟨List.mem_append_left _ (h.best q x hx).1, fun y hy => ?_⟩
      rcases List.mem_append.mp hy with hy | hy
      · exact (h.best q x hx).2 y hy
      · exact absurd (Prod.mk.inj (List.mem_singleton.mp hy)).1 hne
  · refine ⟨full_set hfull _, fun p y hp => le_trans ?_ (hkept p y hp)⟩
    have hne : q ≠ s := by
      rintro rfl
      exact hq (mem_keys.mpr ⟨v, stores_set_self v hi⟩)
    have hold : (q, x) ∈ stream := (List.mem_append.mp hx).resolve_right fun hin =>
      hne (Prod.mk.inj (List.mem_singleton.mp hin)).1
    by_cases hqt : q ∈ keys t
    · obtain ⟨z, hz⟩ := mem_keys.mp hqt
      have hgone : some (r, m) = some (q, z) := by
        by_contra hother
        exact hq (mem_keys.mpr ⟨z, hstores.mpr (.inr ⟨hne, hz, hother⟩)⟩)
      obtain ⟨rfl, rfl⟩ := Prod.mk.inj (Option.some.inj hgone)
      exact (h.best r m hm).2 x hold
    · exact (h.rest q x hold hqt).2 r m hm

theorem Leads.skip (h : Leads t stream) (hs : s ∉ keys t) (hfull : none ∉ t)
    (hbelow : ∀ q w, Stores t q w → v ≤ w) : Leads t (stream ++ [(s, v)]) := by
  refine ⟨h.distinct, fun r x hx => ?_, fun r x hx hr => ?_⟩
  · refine ⟨List.mem_append_left _ (h.best r x hx).1, fun y hy => ?_⟩
    rcases List.mem_append.mp hy with hy | hy
    · exact (h.best r x hx).2 y hy
    · obtain ⟨rfl, -⟩ := Prod.mk.inj (List.mem_singleton.mp hy)
      exact absurd (mem_keys.mpr ⟨x, hx⟩) hs
  · rcases List.mem_append.mp hx with hx | hx
    · exact h.rest r x hx hr
    · obtain ⟨rfl, rfl⟩ := Prod.mk.inj (List.mem_singleton.mp hx)
      exact ⟨hfull, hbelow⟩

/-- The table leads the stream with the new value. -/
theorem Leads.offer (h : Leads t stream) (hoffer : Offer t s v t') :
    Leads t' (stream ++ [(s, v)]) := by
  cases hoffer with
  | improve hi hlt => exact h.improve hi hlt
  | keep hw hle => exact h.keep hw hle
  | fill hs hi => exact h.fill hs hi
  | evict hs hfull hi hmin hlt => exact h.evict hs hfull hi hmin hlt
  | skip hs hfull hbelow => exact h.skip hs hfull hbelow

/-- A key of the stream that has no slot gets one only for a value above all that it had. -/
theorem Leads.returns (h : Leads t stream) (hoffer : Offer t s v t') (hs : s ∉ keys t)
    (hs' : s ∈ keys t') {w : V} (hw : (s, w) ∈ stream) : w < v := by
  obtain ⟨hfull, hbelow⟩ := h.rest s w hw hs
  cases hoffer with
  | improve hi => exact absurd (mem_keys.mpr ⟨_, List.mem_of_getElem? hi⟩) hs
  | keep hx => exact absurd (mem_keys.mpr ⟨_, hx⟩) hs
  | fill _ hi => exact absurd (List.mem_of_getElem? hi) hfull
  | evict _ _ hi _ hlt => exact (hbelow _ _ (List.mem_of_getElem? hi)).trans_lt hlt
  | skip => exact absurd hs' hs

/-- The table has as many keys as it has slots, or as there are in the stream. -/
theorem Leads.length_keys [DecidableEq K] (h : Leads t stream) :
    (keys t).length = min t.length (stream.map Prod.fst).dedup.length := by
  have hsub : keys t ⊆ (stream.map Prod.fst).dedup := fun s hs => by
    obtain ⟨v, hv⟩ := mem_keys.mp hs
    exact List.mem_dedup.mpr (List.mem_map_of_mem (f := Prod.fst) (h.best s v hv).1)
  have hle := (List.subperm_of_subset h.distinct.nodup_keys hsub).length_le
  by_cases hall : (stream.map Prod.fst).dedup ⊆ keys t
  · have hge := (List.subperm_of_subset (List.nodup_dedup _) hall).length_le
    have hroom := length_keys_le t
    omega
  · obtain ⟨s, hs, hout⟩ : ∃ s ∈ (stream.map Prod.fst).dedup, s ∉ keys t := by
      by_contra hnone
      exact hall fun s hs => by_contra fun hout => hnone ⟨s, hs, hout⟩
    obtain ⟨⟨s, v⟩, hv, rfl⟩ := List.mem_map.mp (List.mem_dedup.mp hs)
    have hfull := length_keys_of_full (h.rest s v hv hout).1
    omega

end Largest

/-! ## The keys that are frequent -/

section Frequent

variable {t t' : Slots K ℕ} {stream : List K} {s : K} {c : ℕ}

/-- The count of a slot. -/
def count : Option (K × ℕ) → ℕ
  | none => 0
  | some x => x.2

/-- The sum of all counts. -/
def total (t : Slots K ℕ) : ℕ := (t.map count).sum

/-- One less in a slot, which gets free at zero. -/
def lower : Option (K × ℕ) → Option (K × ℕ)
  | some (s, c + 2) => some (s, c + 1)
  | _ => none

/-- One key of a stream: a key that has a slot is counted, another key takes a free slot, or all
counts are lowered. -/
inductive Count (t : Slots K ℕ) (s : K) : Slots K ℕ → Prop
  | incr {i c : ℕ} : t[i]? = some (some (s, c)) → Count t s (t.set i (some (s, c + 1)))
  | fill {i : ℕ} : s ∉ keys t → t[i]? = some none → Count t s (t.set i (some (s, 1)))
  | decr : s ∉ keys t → none ∉ t → Count t s (t.map lower)

/-- Each round of lowering takes one from every slot and loses one key of the stream. -/
structure Frequent [BEq K] (t : Slots K ℕ) (stream : List K) (rounds : ℕ) : Prop where
  distinct : Distinct t
  pos : ∀ s c, Stores t s c → 0 < c
  total : total t + (t.length + 1) * rounds = stream.length
  counts : ∀ s c, Stores t s c → c ≤ stream.count s ∧ stream.count s ≤ c + rounds
  lost : ∀ s ∉ keys t, stream.count s ≤ rounds

theorem total_set {i : ℕ} {old : Option (K × ℕ)} (hi : t[i]? = some old) (x : Option (K × ℕ)) :
    total (t.set i x) + count old = total t + count x := by
  unfold total
  induction t generalizing i with
  | nil => exact absurd hi.symm (Option.some_ne_none _)
  | cons y t ih =>
    cases i with
    | zero =>
      obtain rfl := Option.some.inj hi
      rw [List.set_cons_zero, List.map_cons, List.map_cons, List.sum_cons, List.sum_cons]
      omega
    | succ i =>
      have := ih (List.getElem?_cons_succ ▸ hi)
      rw [List.set_cons_succ, List.map_cons, List.map_cons, List.sum_cons, List.sum_cons]
      omega

theorem total_replicate (n : ℕ) : total (List.replicate n (none : Option (K × ℕ))) = 0 := by
  unfold total
  rw [List.map_replicate, List.sum_replicate]
  exact Nat.mul_zero n

theorem lower_eq_some {x : Option (K × ℕ)} :
    lower x = some (s, c) ↔ x = some (s, c + 1) ∧ 0 < c := by
  match x with
  | none => simp [lower]
  | some (r, 0) => simp [lower]
  | some (r, 1) =>
    refine iff_of_false (Option.some_ne_none _).symm fun ⟨heq, hc⟩ => ?_
    have := (Prod.mk.inj (Option.some.inj heq)).2
    omega
  | some (r, n + 2) =>
    simp only [lower, Option.some.injEq, Prod.mk.injEq, and_assoc]
    exact and_congr_right fun _ => by omega

theorem stores_lower : Stores (t.map lower) s c ↔ Stores t s (c + 1) ∧ 0 < c := by
  unfold Stores
  rw [List.mem_map]
  constructor
  · rintro ⟨x, hx, hlower⟩
    obtain ⟨rfl, hc⟩ := lower_eq_some.mp hlower
    exact ⟨hx, hc⟩
  · exact fun ⟨hx, hc⟩ => ⟨_, hx, lower_eq_some.mpr ⟨rfl, hc⟩⟩

theorem distinct_lower (ht : Distinct t) : Distinct (t.map lower) := by
  have hback : ∀ {i : ℕ} {s : K} {c : ℕ}, (t.map lower)[i]? = some (some (s, c)) →
      t[i]? = some (some (s, c + 1)) := fun {i s c} h => by
    rw [List.getElem?_map] at h
    obtain ⟨x, hx, hlower⟩ := Option.map_eq_some_iff.mp h
    rw [hx, (lower_eq_some.mp hlower).1]
  exact fun i j s v w hi hj => ht i j s (v + 1) (w + 1) (hback hi) (hback hj)

/-- A round takes one from every slot. -/
theorem total_lower (hfull : none ∉ t) (hpos : ∀ s c, Stores t s c → 0 < c) :
    total (t.map lower) + t.length = total t := by
  unfold total
  induction t with
  | nil => rfl
  | cons x t ih =>
    have hrest := ih (fun h => hfull (List.mem_cons_of_mem _ h)) fun s c h =>
      hpos s c (List.mem_cons_of_mem _ h)
    rw [List.map_cons, List.map_cons, List.map_cons, List.sum_cons, List.sum_cons, List.length_cons]
    match x, hfull, hpos with
    | none, hfull, _ => exact absurd List.mem_cons_self hfull
    | some (s, 0), _, hpos => exact absurd (hpos s 0 List.mem_cons_self) (lt_irrefl 0)
    | some (s, 1), _, _ =>
      simp only [lower, count]
      omega
    | some (s, n + 2), _, _ =>
      simp only [lower, count]
      omega

variable [BEq K] [LawfulBEq K] {rounds : ℕ}

omit [LawfulBEq K] in
theorem frequent_nil (n : ℕ) : Frequent (List.replicate n (none : Option (K × ℕ))) [] 0 where
  distinct := distinct_replicate n
  pos _ _ h := absurd (List.eq_of_mem_replicate h) (Option.some_ne_none _)
  total := by rw [total_replicate, Nat.mul_zero, List.length_nil]
  counts _ _ h := absurd (List.eq_of_mem_replicate h) (Option.some_ne_none _)
  lost _ _ := le_rfl

theorem count_concat_self (stream : List K) (s : K) :
    (stream ++ [s]).count s = stream.count s + 1 := by
  rw [List.count_append, List.count_singleton_self]

theorem count_concat_ne (stream : List K) {r s : K} (h : r ≠ s) :
    (stream ++ [s]).count r = stream.count r := by
  rw [List.count_append, List.count_singleton, if_neg (by simpa using h.symm), Nat.add_zero]

/-- A key is counted in a slot that it has, or gets. -/
theorem Frequent.put (h : Frequent t stream rounds) {i : ℕ} {old : Option (K × ℕ)}
    (hi : t[i]? = some old) (hold : ∀ r x, old = some (r, x) → r = s)
    (hnew : ∀ w, Stores t s w → old = some (s, w)) :
    Frequent (t.set i (some (s, count old + 1))) (stream ++ [s]) rounds := by
  have hstores := @stores_set K ℕ t i old s (count old + 1) h.distinct hi hnew
  -- what the stream had of the key
  have hself : count old ≤ stream.count s ∧ stream.count s ≤ count old + rounds := by
    cases old with
    | none =>
      refine ⟨Nat.zero_le _, (Nat.zero_add rounds).symm ▸ h.lost s fun hin => ?_⟩
      obtain ⟨w, hw⟩ := mem_keys.mp hin
      exact absurd (hnew w hw).symm (Option.some_ne_none _)
    | some x =>
      obtain rfl := hold x.1 x.2 rfl
      exact h.counts x.1 x.2 (List.mem_of_getElem? hi)
  refine ⟨distinct_set _ h.distinct hi hnew, fun r x hx => ?_, ?_, fun r x hx => ?_, fun r hr => ?_⟩
  · rcases hstores.mp hx with ⟨-, rfl⟩ | ⟨-, hx, -⟩
    · exact Nat.succ_pos _
    · exact h.pos r x hx
  · have hset : SlotTable.total (t.set i (some (s, count old + 1))) + count old =
        SlotTable.total t + (count old + 1) := total_set hi _
    have htotal := h.total
    rw [List.length_set, List.length_append, List.length_singleton]
    omega
  · rcases hstores.mp hx with ⟨rfl, rfl⟩ | ⟨hne, hx, -⟩
    · rw [count_concat_self]
      omega
    · rw [count_concat_ne stream hne]
      exact h.counts r x hx
  · have hne : r ≠ s := by
      rintro rfl
      exact hr (mem_keys.mpr ⟨_, stores_set_self _ hi⟩)
    rw [count_concat_ne stream hne]
    refine h.lost r fun hin => hr ?_
    obtain ⟨w, hw⟩ := mem_keys.mp hin
    exact mem_keys.mpr ⟨w, hstores.mpr (.inr ⟨hne, hw, fun heq => hne (hold r w heq)⟩)⟩

/-- A round of lowering. -/
theorem Frequent.decr (h : Frequent t stream rounds) (hs : s ∉ keys t) (hfull : none ∉ t) :
    Frequent (t.map lower) (stream ++ [s]) (rounds + 1) := by
  have hcount : ∀ r, (stream ++ [s]).count r ≤ stream.count r + 1 := fun r => by
    by_cases hr : r = s
    · rw [hr, count_concat_self]
    · rw [count_concat_ne stream hr]
      exact Nat.le_succ _
  refine ⟨distinct_lower h.distinct, fun r x hx => (stores_lower.mp hx).2, ?_, fun r x hx => ?_,
    fun r hr => ?_⟩
  · have hlower := total_lower hfull h.pos
    have htotal := h.total
    rw [List.length_map, List.length_append, List.length_singleton, Nat.mul_succ]
    omega
  · obtain ⟨hx, -⟩ := stores_lower.mp hx
    have hne : r ≠ s := by
      rintro rfl
      exact hs (mem_keys.mpr ⟨_, hx⟩)
    obtain ⟨hle, hge⟩ := h.counts r _ hx
    rw [count_concat_ne stream hne]
    omega
  · have hone := hcount r
    by_cases hin : r ∈ keys t
    · obtain ⟨w, hw⟩ := mem_keys.mp hin
      have hne : r ≠ s := by
        rintro rfl
        exact hs hin
      have hpos := h.pos r w hw
      have hw1 : w = 1 := by
        by_contra hne1
        refine hr (mem_keys.mpr ⟨w - 1, stores_lower.mpr ⟨?_, by omega⟩⟩)
        rwa [Nat.sub_add_cancel hpos]
      obtain ⟨-, hge⟩ := h.counts r w hw
      rw [count_concat_ne stream hne]
      omega
    · exact hone.trans (Nat.succ_le_succ (h.lost r hin))

/-- One key more of the stream. -/
theorem Frequent.step (h : Frequent t stream rounds) (hcount : Count t s t') :
    ∃ rounds', Frequent t' (stream ++ [s]) rounds' := by
  cases hcount with
  | @incr i c hi =>
    refine ⟨rounds, h.put hi ?_ fun w hw => ?_⟩
    · rintro r x heq
      exact (Prod.mk.inj (Option.some.inj heq)).1.symm
    · rw [h.distinct.unique hw (List.mem_of_getElem? hi)]
  | fill hs hi =>
    exact ⟨rounds, h.put hi (fun _ _ heq => absurd heq.symm (Option.some_ne_none _))
      (not_stores_of_not_mem hs)⟩
  | decr hs hfull => exact ⟨rounds + 1, h.decr hs hfull⟩

omit [LawfulBEq K] in
/-- The rounds are few. -/
theorem Frequent.rounds_le (h : Frequent t stream rounds) :
    (t.length + 1) * rounds ≤ stream.length := h.total ▸ Nat.le_add_left _ _

end Frequent

end HM4.SlotTable
