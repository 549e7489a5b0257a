import HM4.TieredMemoryManager
import Mathlib.Data.List.Nodup
import Mathlib.Logic.Function.Basic
import Mathlib.Order.Lattice
import Mathlib.Tactic.IntervalCases
import Mathlib.Tactic.SplitIfs

/-!
# No block is lost or shared

Beside the memory runs a pool that only says which blocks are free and who holds
which. Every operation of the manager is one or two steps of the pool, so the
partition of the blocks is kept through every run.
-/

namespace HM4.TieredMemoryManager

open Bytes FreeList

/-! ## Tiers -/

theorem SIZES_length : SIZES.length = 8 := rfl

theorem capacity2tier_sizeOf {t : ℕ} (h : t < 8) : capacity2tier (sizeOf t) = t := by
  interval_cases t <;> decide

theorem width_lt_sizeOf {t : ℕ} (h : t < 8) : pointer.width < sizeOf t := by
  interval_cases t <;> decide

theorem sizeOf_mono {t t' : ℕ} (h : t ≤ t') (h' : t' < 8) : sizeOf t ≤ sizeOf t' := by
  interval_cases t' <;> interval_cases t <;> decide

/-- A block of a tier that `findTier_` does not pass by is large enough. -/
theorem le_sizeOf {needed t : ℕ} (ht : t < 8) (h : findTier needed ≤ t) : needed ≤ sizeOf t := by
  have hlt : findTier needed < SIZES.length := lt_of_le_of_lt h ht
  have hfit := List.findIdx_getElem (w := hlt)
  have hget : sizeOf (findTier needed) = SIZES[findTier needed] := by
    rw [sizeOf, List.getD_eq_getElem]
  have hneeded : needed ≤ sizeOf (findTier needed) := by
    rw [hget]
    exact of_decide_eq_true hfit
  exact hneeded.trans (sizeOf_mono h ht)

/-! ## The blocks -/

section Blocks

variable {counts : ℕ → ℕ} {maxClients : ℕ} (r : Resource counts maxClients)

theorem offset_mono {t t' : ℕ} (h : t ≤ t') :
    offset counts maxClients t ≤ offset counts maxClients t' := by
  induction t', h using Nat.le_induction with
  | base => exact le_rfl
  | succ n _ ih => exact ih.trans (Nat.le_add_right _ _)

/-- A block lies in the part of its tier. -/
theorem inside {t a : ℕ} (h : a ∈ r.blocks t) :
    t < 8 ∧ r.cPtr t ≤ a ∧ a + sizeOf t ≤ r.cPtr t + cSize counts maxClients t := by
  unfold Resource.blocks at h
  split_ifs at h with ht
  · exact ⟨ht, blocks_inside h⟩
  · exact absurd h List.not_mem_nil

theorem cPtr_add {t t' : ℕ} (h : t < t') :
    r.cPtr t + cSize counts maxClients t ≤ r.cPtr t' := by
  have hmono : offset counts maxClients (t + 1) ≤ offset counts maxClients t' :=
    offset_mono (Nat.succ_le_of_lt h)
  rw [offset] at hmono
  unfold Resource.cPtr
  omega

/-- No two blocks overlap. -/
theorem apart {t t' a a' : ℕ} (h : a ∈ r.blocks t) (h' : a' ∈ r.blocks t')
    (hne : (t, a) ≠ (t', a')) : a + sizeOf t ≤ a' ∨ a' + sizeOf t' ≤ a := by
  obtain ⟨ht, hlo, hhi⟩ := inside r h
  obtain ⟨ht', hlo', hhi'⟩ := inside r h'
  rcases Nat.lt_trichotomy t t' with hlt | rfl | hlt
  · have := cPtr_add r hlt
    exact Or.inl (by omega)
  · unfold Resource.blocks at h h'
    rw [if_pos ht] at h h'
    exact blocks_apart h h' fun heq => hne (Prod.ext rfl heq)
  · have := cPtr_add r hlt
    exact Or.inr (by omega)

/-- A block has an address that is no null pointer. -/
theorem address {t a : ℕ} (h : a ∈ r.blocks t) : a ≠ 0 ∧ a < pointer.bound := by
  obtain ⟨ht, hlo, hhi⟩ := inside r h
  have hsize := width_lt_sizeOf ht
  have htop : offset counts maxClients (t + 1) ≤ offset counts maxClients 8 :=
    offset_mono (Nat.succ_le_of_lt ht)
  have hfits := r.fits
  rw [offset] at htop
  unfold Resource.cPtr at hlo hhi
  have hpos := r.data_pos (by omega)
  have hbound : pointer.bound = 2 ^ 64 := rfl
  omega

end Blocks

/-! ## The pool beside the memory -/

section Layout

variable {counts : ℕ → ℕ} {maxClients : ℕ} {r : Resource counts maxClients}
variable {C : Type*} [DecidableEq C]

/-- The blocks are parted as the pool says, and each slab's list has the free ones of its tier. -/
structure Layout (r : Resource counts maxClients) (m : Mem) (slabs : ℕ → Slab)
    (p : Pool ℕ ℕ C) : Prop where
  partition : p.Partition r.blocks
  buffer : ∀ t < 8, (slabs t).data = r.cPtr t ∧ (slabs t).size = cSize counts maxClients t
  chain : ∀ t < 8, Chain pointer m (slabs t).freeList (p.free t)

variable {m m' : Mem} {slabs : ℕ → Slab} {p : Pool ℕ ℕ C}

omit [DecidableEq C] in
/-- A list of other blocks does not see what changes inside a block. -/
theorem chain_of_outside {t a t' head : ℕ} {bs : List ℕ} (ha : a ∈ r.blocks t)
    (hm : ∀ x, x < a ∨ a + sizeOf t ≤ x → m' x = m x)
    (hbs : ∀ b ∈ bs, b ∈ r.blocks t' ∧ (t', b) ≠ (t, a)) (hc : Chain pointer m head bs) :
    Chain pointer m' head bs := by
  refine hc.frame fun b hb x hx hxw => hm x ?_
  obtain ⟨hmem, hne⟩ := hbs b hb
  have hsize := width_lt_sizeOf (inside r hmem).1
  have hap := apart r hmem ha hne
  omega

omit [DecidableEq C] in
/-- What changes inside a held block does not matter to the lists. -/
theorem Layout.write (h : Layout r m slabs p) {c : C} {t a : ℕ} (hc : p.held c = some (t, a))
    (hm : ∀ x, x < a ∨ a + sizeOf t ≤ x → m' x = m x) : Layout r m' slabs p where
  partition := h.partition
  buffer := h.buffer
  chain t' ht' := by
    have ha := (h.partition.covers t a).mpr (Or.inr ⟨c, hc⟩)
    refine chain_of_outside ha hm (fun b hb => ⟨h.partition.mem_of_free hb, ?_⟩) (h.chain t' ht')
    intro heq
    obtain ⟨rfl, rfl⟩ := Prod.ext_iff.mp heq
    exact h.partition.apart _ _ c hc hb

/-- The first free block of a tier goes to a client that has none. -/
theorem Layout.take (h : Layout r m slabs p) {c : C} (hc : p.held c = none) {t a : ℕ}
    {rest : List ℕ} (hf : p.free t = a :: rest) :
    Layout r m (Function.update slabs t { slabs t with freeList := load pointer m a })
      (p.take c t) where
  partition := h.partition.take hc t
  buffer t' ht' := by
    by_cases heq : t' = t
    · subst heq
      rw [Function.update_self]
      exact h.buffer t' ht'
    · rw [Function.update_of_ne heq]
      exact h.buffer t' ht'
  chain t' ht' := by
    rw [Pool.take_of_cons c hf]
    have hold := h.chain t' ht'
    by_cases heq : t' = t
    · subst heq
      rw [hf] at hold
      simpa using hold.2.2
    · simpa [Function.update_of_ne heq] using hold

/-- A block goes back to the front of its tier's list. -/
theorem Layout.give (h : Layout r m slabs p) {c : C} {t a : ℕ} (hc : p.held c = some (t, a)) :
    Layout r (store pointer m a (slabs t).freeList)
      (Function.update slabs t { slabs t with freeList := a }) (p.give c) where
  partition := h.partition.give c
  buffer t' ht' := by
    by_cases heq : t' = t
    · subst heq
      rw [Function.update_self]
      exact h.buffer t' ht'
    · rw [Function.update_of_ne heq]
      exact h.buffer t' ht'
  chain t' ht' := by
    have ha := (h.partition.covers t a).mpr (Or.inr ⟨c, hc⟩)
    have ht := (inside r ha).1
    have hsize := width_lt_sizeOf ht
    have hother : ∀ t'', ∀ b ∈ p.free t'', b ∈ r.blocks t'' ∧ (t'', b) ≠ (t, a) := by
      intro t'' b hb
      refine ⟨h.partition.mem_of_free hb, fun heq => ?_⟩
      obtain ⟨rfl, rfl⟩ := Prod.ext_iff.mp heq
      exact h.partition.apart _ _ c hc hb
    rw [Pool.give_of_some hc]
    by_cases heq : t' = t
    · subst heq
      simp only [Function.update_self]
      refine (h.chain t' ht').push (address r ha).1 ?_ ?_
      · rcases (h.chain t' ht').head_mem with h0 | hmem
        · rw [h0]
          exact Nat.two_pow_pos 64
        · exact (address r (h.partition.mem_of_free hmem)).2
      · intro b hb
        obtain ⟨hmem, hne⟩ := hother t' b hb
        have hap := apart r hmem ha hne
        omega
    · simp only [Function.update_of_ne heq]
      refine chain_of_outside ha (fun x hx => write_outside ?_) (hother t') (h.chain t' ht')
      rw [pointer.length_encode]
      omega

theorem Layout.swap (h : Layout r m slabs p) (c d : C) : Layout r m slabs (p.swap c d) where
  partition := h.partition.swap c d
  buffer := h.buffer
  chain := h.chain

end Layout

/-! ## The state shows a pool -/

section Shows

variable {counts : ℕ → ℕ} {maxClients : ℕ} {r : Resource counts maxClients}
variable {C : Type*}

/-- A context shows what its client holds, and has no more octets than room. -/
def Context.Shows (x : Context) : Option (ℕ × ℕ) → Prop
  | none => x = Context.clear
  | some (tier, a) => x.data = a ∧ x.capacity = sizeOf tier ∧ x.size ≤ x.capacity

/-- The state shows a pool. -/
structure Shows (r : Resource counts maxClients) (s : State C) (p : Pool ℕ ℕ C) : Prop where
  layout : Layout r s.mem s.slabs p
  context : ∀ c, (s.context c).Shows (p.held c)

variable {s : State C} {p : Pool ℕ ℕ C}

theorem Context.Shows.none_of_zero {x : Context} {o : Option (ℕ × ℕ)} (h : x.Shows o)
    (ho : ∀ t a, o = some (t, a) → a ≠ 0) (h0 : x.data = 0) : o = none := by
  cases o with
  | none => rfl
  | some y => exact absurd (h.1.symm.trans h0) (ho y.1 y.2 rfl)

/-- A client has no block exactly if its pointer is null. -/
theorem Shows.held_eq_none_iff (h : Shows r s p) (c : C) :
    p.held c = none ↔ (s.context c).data = 0 := by
  constructor
  · intro hc
    have hx := h.context c
    rw [hc] at hx
    rw [show s.context c = Context.clear from hx]
    rfl
  · refine (h.context c).none_of_zero fun t a hta => ?_
    exact (address r ((h.layout.partition.covers t a).mpr (Or.inr ⟨c, hta⟩))).1

/-- What the client holds, read off its context. -/
theorem Shows.held (h : Shows r s p) {c : C} (hc : (s.context c).data ≠ 0) :
    ∃ t < 8, p.held c = some (t, (s.context c).data) ∧ (s.context c).data ∈ r.blocks t ∧
      (s.context c).capacity = sizeOf t ∧ (s.context c).size ≤ sizeOf t := by
  cases hp : p.held c with
  | none => exact absurd ((h.held_eq_none_iff c).mp hp) hc
  | some y =>
    obtain ⟨t, a⟩ := y
    have hx := h.context c
    rw [hp] at hx
    obtain ⟨hdata, hcap, hsize⟩ := hx
    have hmem := (h.layout.partition.covers t a).mpr (Or.inr ⟨c, hp⟩)
    refine ⟨t, (inside r hmem).1, ?_, ?_, hcap, hcap ▸ hsize⟩
    · rw [hdata]
    · rwa [hdata]

variable [DecidableEq C]

/-- One client's part changes in the pool and in its context. -/
theorem Shows.update (h : Shows r s p) {p' : Pool ℕ ℕ C} {m : Mem} {slabs : ℕ → Slab} {c : C}
    {x : Context} (hl : Layout r m slabs p') (hx : x.Shows (p'.held c))
    (hother : ∀ d, d ≠ c → p'.held d = p.held d) :
    Shows r ⟨m, slabs, Function.update s.context c x⟩ p' where
  layout := hl
  context d := by
    by_cases hd : d = c
    · subst hd
      simpa using hx
    · simpa [Function.update_of_ne hd, hother d hd] using h.context d

end Shows

/-! ## The operations -/

section Operations

variable {counts : ℕ → ℕ} {maxClients : ℕ} {r : Resource counts maxClients}
variable {C : Type*} [DecidableEq C] {s : State C} {p : Pool ℕ ℕ C}

omit [DecidableEq C] in
/-- The loop finds no block and changes nothing, or takes the first one of a tier it reached. -/
theorem firstFree_spec {m : Mem} {slabs : ℕ → Slab} (h : Layout r m slabs p) (n tier : ℕ)
    (hn : n + tier = 8) :
    firstFree m slabs n tier = (0, 8, slabs) ∨
      ∃ t a rest, tier ≤ t ∧ t < 8 ∧ p.free t = a :: rest ∧ a ≠ 0 ∧
        firstFree m slabs n tier =
          (a, t, Function.update slabs t { slabs t with freeList := load pointer m a }) := by
  induction n generalizing tier with
  | zero =>
    rw [Nat.zero_add] at hn
    rw [hn]
    exact Or.inl rfl
  | succ n ih =>
    have hc := h.chain tier (by omega)
    rw [firstFree, allocateFrom, xallocate]
    by_cases h0 : (slabs tier).freeList = 0
    · simp only [if_pos h0, Function.update_eq_self, ne_eq, not_true_eq_false, if_false]
      rcases ih (tier + 1) (by omega) with hnone | ⟨t, a, rest, hle, hsome⟩
      · exact Or.inl hnone
      · exact Or.inr ⟨t, a, rest, Nat.le_of_succ_le hle, hsome⟩
    · rw [if_neg h0]
      dsimp only
      rw [if_pos h0]
      cases hf : p.free tier with
      | nil => exact absurd (hc.head_eq_zero_iff.mpr hf) h0
      | cons a rest =>
        rw [hf] at hc
        refine Or.inr ⟨tier, a, rest, le_rfl, by omega, hf, hc.2.1, ?_⟩
        rw [hc.1]

/-- A block of a tier is its slab's own. -/
theorem deallocateTo_eq (m : Mem) {slabs : ℕ → Slab} {t a : ℕ} (ha : a ∈ r.blocks t)
    (hb : (slabs t).data = r.cPtr t ∧ (slabs t).size = cSize counts maxClients t) :
    deallocateTo m slabs t a = (store pointer m a (slabs t).freeList,
      Function.update slabs t { slabs t with freeList := a }) := by
  obtain ⟨ht, hlo, hhi⟩ := inside r ha
  have hsize := width_lt_sizeOf ht
  have howns : owns (slabs t) a = true := by
    rw [owns, hb.1, hb.2]
    simp only [Bool.and_eq_true, decide_eq_true_eq]
    omega
  rw [deallocateTo, xdeallocate, if_pos howns]

/-- Giving a block back is a step of the pool. -/
theorem deallocate_shows (h : Shows r s p) (c : C) : Shows r (deallocate s c) (p.give c) := by
  unfold deallocate
  by_cases hc : (s.context c).data = 0
  · have hp := (h.held_eq_none_iff c).mpr hc
    rw [Pool.give_of_none hp]
    simp only [hc, ne_eq, not_true_eq_false, if_false]
    refine h.update h.layout ?_ fun d _ => rfl
    rw [hp]
    rfl
  · obtain ⟨t, ht, hp, hmem, hcap, -⟩ := h.held hc
    simp only [ne_eq, hc, not_false_eq_true, if_true]
    rw [hcap, capacity2tier_sizeOf ht, deallocateTo_eq s.mem hmem (h.layout.buffer t ht)]
    refine h.update (h.layout.give hp) ?_ fun d hd => ?_
    · rw [p.give_held c]
      rfl
    · exact p.give_held_of_ne hd

theorem swap_shows (h : Shows r s p) (c d : C) : Shows r (swap s c d) (p.swap c d) where
  layout := h.layout.swap c d
  context e := by
    by_cases hd : e = d
    · subst hd
      simpa [swap, Pool.swap] using h.context c
    · by_cases hc : e = c
      · subst hc
        simpa [swap, Pool.swap, Function.update_of_ne hd] using h.context d
      · simpa [swap, Pool.swap, Function.update_of_ne hd, Function.update_of_ne hc]
          using h.context e

omit [DecidableEq C] in
/-- A client's own octets are no one else's. -/
theorem fill_shows (h : Shows r s p) (c : C) (pos : ℕ) (octets : List Byte) :
    Shows r (fill s c pos octets) p := by
  unfold fill
  split_ifs with hfit
  · refine ⟨?_, h.context⟩
    by_cases hc : (s.context c).data = 0
    · have hclear := h.context c
      rw [(h.held_eq_none_iff c).mpr hc] at hclear
      rw [show s.context c = Context.clear from hclear] at hfit
      have hnil : octets = [] := List.length_eq_zero_iff.mp (by
        have : pos + octets.length ≤ 0 := hfit
        omega)
      rw [hnil, write_nil]
      exact h.layout
    · obtain ⟨t, -, hp, -, hcap, -⟩ := h.held hc
      refine h.layout.write hp fun x hx => write_outside ?_
      rw [hcap] at hfit
      omega
  · exact h

theorem resize_shows (h : Shows r s p) (c : C) (size : ℕ) :
    Shows r (resize s c size) p := by
  unfold resize
  split_ifs with hfit
  · refine h.update h.layout ?_ fun d _ => rfl
    have hx := h.context c
    cases hp : p.held c with
    | none =>
      rw [hp] at hx
      rw [show s.context c = Context.clear from hx] at hfit ⊢
      rw [show size = 0 from Nat.le_zero.mp hfit]
      rfl
    | some y =>
      rw [hp] at hx
      exact ⟨hx.1, hx.2.1, hfit⟩
  · exact h

omit [DecidableEq C] in
/-- A free block and a held one do not overlap. -/
theorem Layout.free_apart {m : Mem} {slabs : ℕ → Slab} (h : Layout r m slabs p) {c : C}
    {t a t' b : ℕ} (hc : p.held c = some (t, a)) (hb : b ∈ p.free t') :
    b + sizeOf t' ≤ a ∨ a + sizeOf t ≤ b := by
  refine apart r (h.partition.mem_of_free hb)
    ((h.partition.covers t a).mpr (Or.inr ⟨c, hc⟩)) fun heq => ?_
  obtain ⟨rfl, rfl⟩ := Prod.ext_iff.mp heq
  exact h.partition.apart _ _ c hc hb

/-- The copy to a new block and the return of the old one are steps of the pool. -/
theorem migrate (h : Layout r s.mem s.slabs p) {c : C} {t a t' b n : ℕ} {rest : List ℕ}
    (hc : p.held c = some (t, a)) (hf : p.free t' = b :: rest) (ht : t < t') (hn : n ≤ sizeOf t) :
    let slabs := Function.update s.slabs t' { s.slabs t' with freeList := load pointer s.mem b }
    let old := deallocateTo (memcpy s.mem b a n) slabs t a
    Layout r old.1 old.2 ((p.give c).take c t') ∧ read old.1 b n = read s.mem a n := by
  intro slabs old
  have hne : t' ≠ t := ht.ne'
  have ha : a ∈ r.blocks t := (h.partition.covers t a).mpr (Or.inr ⟨c, hc⟩)
  have hb : b ∈ p.free t' := hf ▸ List.mem_cons_self
  have ht' := (inside r (h.partition.mem_of_free hb)).1
  have hw := width_lt_sizeOf (inside r ha).1
  have hw' := width_lt_sizeOf ht'
  have hroom := sizeOf_mono ht.le ht'
  have hap := h.free_apart hc hb
  have hlen : (read s.mem a n).length = n := read_length _ _ _
  have henc : (pointer.encode (s.slabs t).freeList).length = pointer.width :=
    pointer.length_encode _
  -- the old block goes back first, then the new one is taken and filled
  have hgive := h.give hc
  have hgive_none : (p.give c).held c = none := p.give_held c
  have hgive_free : (p.give c).free t' = b :: rest := by
    rw [Pool.give_free_of_ne hc hne, hf]
  have htake := hgive.take hgive_none hgive_free
  have hheld : ((p.give c).take c t').held c = some (t', b) := Pool.take_held c hgive_free
  rw [Function.update_of_ne hne] at htake
  have hload : load pointer (store pointer s.mem a (s.slabs t).freeList) b =
      load pointer s.mem b := load_write_apart pointer (by omega)
  rw [hload] at htake
  have hslab : slabs t = s.slabs t := Function.update_of_ne hne.symm _ _
  have hold : old = (write (store pointer s.mem a (s.slabs t).freeList) b (read s.mem a n),
      Function.update slabs t { s.slabs t with freeList := a }) := by
    have hbuf : (slabs t).data = r.cPtr t ∧ (slabs t).size = cSize counts maxClients t := by
      rw [hslab]
      exact h.buffer t (inside r ha).1
    have hback := deallocateTo_eq (memcpy s.mem b a n) ha hbuf
    rw [hslab] at hback
    refine hback.trans (Prod.ext ?_ rfl)
    exact write_comm (by omega)
  rw [hold]
  constructor
  · have hcomm : Function.update slabs t { s.slabs t with freeList := a } =
        Function.update (Function.update s.slabs t { s.slabs t with freeList := a }) t'
          { s.slabs t' with freeList := load pointer s.mem b } :=
      (Function.update_comm hne.symm _ _ _).symm
    rw [hcomm]
    refine htake.write hheld fun x hx => write_outside ?_
    omega
  · have hread := read_write (store pointer s.mem a (s.slabs t).freeList) b (read s.mem a n)
    rwa [hlen] at hread

/-- What a granted request does to the context. -/
structure Granted (s s' : State C) (c : C) (needed : ℕ) : Prop where
  room : needed ≤ (s'.context c).capacity
  size : (s'.context c).size = (s.context c).size
  octets : read s'.mem (s'.context c).data (s'.context c).size =
    read s.mem (s.context c).data (s.context c).size

/-- A request is refused and changes nothing, or is granted and is some steps of the pool. -/
theorem allocate_spec (h : Shows r s p) (c : C) (needed : ℕ) :
    (allocate s c needed).1 = false ∧ (allocate s c needed).2 = s ∨
      (allocate s c needed).1 = true ∧ (∃ p', Shows r (allocate s c needed).2 p') ∧
        Granted s (allocate s c needed).2 c needed := by
  have hlen := SIZES_length
  unfold allocate
  dsimp only
  by_cases hbig : (s.context c).data ≠ 0 ∧
      capacity2tier (s.context c).capacity ≥ findTier needed
  · obtain ⟨t, ht, -, -, hcap, -⟩ := h.held hbig.1
    have hle : findTier needed ≤ t := by
      have := hbig.2
      rwa [hcap, capacity2tier_sizeOf ht] at this
    rw [if_pos hbig]
    exact Or.inr ⟨rfl, ⟨p, h⟩, by rw [hcap]; exact le_sizeOf ht hle, rfl, rfl⟩
  · rw [if_neg hbig]
    by_cases hlarge : findTier needed ≥ SIZES.length
    · rw [if_pos hlarge]
      exact Or.inl ⟨rfl, rfl⟩
    · rw [if_neg hlarge]
      rcases firstFree_spec h.layout (SIZES.length - findTier needed) (findTier needed)
        (by omega) with hnone | ⟨t, b, rest, hle, ht, hf, hb, hsome⟩
      · rw [hnone]
        exact Or.inl ⟨rfl, rfl⟩
      · rw [hsome]
        dsimp only
        rw [if_neg hb]
        by_cases hc : (s.context c).data = 0
        · have hp := (h.held_eq_none_iff c).mpr hc
          have hx := h.context c
          rw [hp] at hx
          have hclear : s.context c = Context.clear := hx
          have hcopy : ¬ ((s.context c).data ≠ 0 ∧ (s.context c).size ≠ 0) := fun h' => h'.1 hc
          rw [if_neg hcopy, if_neg (not_not_intro hc)]
          refine Or.inr ⟨rfl, ⟨p.take c t, h.update (h.layout.take hp hf) ?_ fun d hd => ?_⟩, ?_⟩
          · rw [Pool.take_held c hf, hclear]
            exact ⟨rfl, rfl, Nat.zero_le _⟩
          · exact p.take_held_of_ne t hd
          · constructor <;> simp only [Function.update_self]
            · exact le_sizeOf ht hle
            · rw [hclear]
              rfl
        · obtain ⟨t₀, ht₀, hp, hmem, hcap, hsize⟩ := h.held hc
          have hlt : t₀ < t := by
            have hsmall : ¬ t₀ ≥ findTier needed := fun hge =>
              hbig ⟨hc, by rwa [hcap, capacity2tier_sizeOf ht₀]⟩
            omega
          have hcopy : (if (s.context c).data ≠ 0 ∧ (s.context c).size ≠ 0 then
              memcpy s.mem b (s.context c).data (s.context c).size else s.mem) =
              memcpy s.mem b (s.context c).data (s.context c).size := by
            by_cases h0 : (s.context c).size = 0
            · have hnone : ¬ ((s.context c).data ≠ 0 ∧ (s.context c).size ≠ 0) :=
                fun h' => h'.2 h0
              rw [if_neg hnone, h0]
              exact (write_nil _ _).symm
            · exact if_pos ⟨hc, h0⟩
          obtain ⟨hlayout, hread⟩ := migrate h.layout hp hf hlt hsize
          rw [hcopy, if_pos hc, hcap, capacity2tier_sizeOf ht₀]
          refine Or.inr ⟨rfl, ⟨(p.give c).take c t, h.update hlayout ?_ fun d hd => ?_⟩, ?_⟩
          · have hf' : (p.give c).free t = b :: rest := by
              rw [Pool.give_free_of_ne hp hlt.ne', hf]
            rw [Pool.take_held c hf']
            exact ⟨rfl, rfl, hsize.trans (sizeOf_mono hlt.le ht)⟩
          · rw [Pool.take_held_of_ne _ t hd, p.give_held_of_ne hd]
          · constructor <;> simp only [Function.update_self]
            · exact le_sizeOf ht hle
            · exact hread

/-- One request is some steps of the pool. -/
theorem step_shows (h : Shows r s p) (request : Request C) :
    ∃ p', Shows r (step s request) p' := by
  cases request with
  | allocate c needed =>
    rcases allocate_spec h c needed with ⟨-, hsame⟩ | ⟨-, hp, -⟩
    · exact ⟨p, by rw [step, hsame]; exact h⟩
    · exact hp
  | deallocate c => exact ⟨p.give c, deallocate_shows h c⟩
  | swap c d => exact ⟨p.swap c d, swap_shows h c d⟩
  | fill c pos octets => exact ⟨p, fill_shows h c pos octets⟩
  | resize c size => exact ⟨p, resize_shows h c size⟩

/-- Every state reached shows a pool. -/
theorem run_shows (h : Shows r s p) (requests : List (Request C)) :
    ∃ p', Shows r (run s requests) p' := by
  induction requests generalizing s p with
  | nil => exact ⟨p, h⟩
  | cons request rest ih =>
    obtain ⟨p', h'⟩ := step_shows h request
    exact ih h'

end Operations

/-! ## Construction -/

section Start

variable {counts : ℕ → ℕ} {maxClients : ℕ} (r : Resource counts maxClients)

theorem blocks_nodup_of (t : ℕ) : (r.blocks t).Nodup := by
  unfold Resource.blocks
  split_ifs with ht
  · exact blocks_nodup (Nat.zero_lt_of_lt (width_lt_sizeOf ht))
  · exact List.nodup_nil

/-- Linking the blocks from the last to the first makes them the list, and touches no other part. -/
theorem createFreeList_spec {t : ℕ} (ht : t < 8) (m : Mem) (head : ℕ) {i : ℕ}
    (hi : i ≤ cSize counts maxClients t / sizeOf t)
    (hc : Chain pointer m head ((r.blocks t).drop i)) :
    let out := createFreeList (sizeOf t) (r.cPtr t) i (m, head)
    Chain pointer out.1 out.2 (r.blocks t) ∧
      ∀ x, x < r.cPtr t ∨ r.cPtr t + cSize counts maxClients t ≤ x → out.1 x = m x := by
  induction i generalizing m head with
  | zero => exact ⟨hc, fun _ _ => rfl⟩
  | succ i ih =>
    have hdrop : (r.blocks t).drop i =
        (r.cPtr t + i * sizeOf t) :: (r.blocks t).drop (i + 1) := by
      rw [Resource.blocks, if_pos ht]
      exact drop_blocks hi
    have hmem : r.cPtr t + i * sizeOf t ∈ r.blocks t :=
      List.mem_of_mem_drop (hdrop ▸ List.mem_cons_self)
    have hnd : ((r.blocks t).drop i).Nodup := (blocks_nodup_of r t).sublist (List.drop_sublist _ _)
    have hsize := width_lt_sizeOf ht
    have hin := inside r hmem
    have hpush := hc.push (p := r.cPtr t + i * sizeOf t) (address r hmem).1 ?_ ?_
    · rw [← hdrop] at hpush
      obtain ⟨hchain, hout⟩ := ih _ _ (Nat.le_of_succ_le hi) hpush
      refine ⟨hchain, fun x hx => (hout x hx).trans (write_outside ?_)⟩
      rw [pointer.length_encode]
      omega
    · rcases hc.head_mem with h0 | hhead
      · rw [h0]
        exact Nat.two_pow_pos 64
      · exact (address r (List.mem_of_mem_drop hhead)).2
    · intro b hb
      rw [hdrop] at hnd
      have hne : (t, b) ≠ (t, r.cPtr t + i * sizeOf t) := by
        intro heq
        have hbe : b = r.cPtr t + i * sizeOf t := (Prod.ext_iff.mp heq).2
        exact (List.nodup_cons.mp hnd).1 (hbe ▸ hb)
      have hap := apart r (List.mem_of_mem_drop hb) hmem hne
      omega

/-- The slabs constructed so far have all their blocks on their lists. -/
theorem slabs_spec (n : ℕ) (hn : n ≤ 8) :
    ∀ t < n, (((r.slabs n).2 t).data = r.cPtr t ∧
        ((r.slabs n).2 t).size = cSize counts maxClients t) ∧
      Chain pointer (r.slabs n).1 ((r.slabs n).2 t).freeList (r.blocks t) := by
  induction n with
  | zero => exact fun t ht => absurd ht (Nat.not_lt_zero t)
  | succ n ih =>
    have hblocks : (r.blocks n).drop (cSize counts maxClients n / sizeOf n) = [] := by
      rw [List.drop_eq_nil_iff, Resource.blocks, if_pos (Nat.lt_of_succ_le hn), FreeList.blocks,
        List.length_map, List.length_range]
    obtain ⟨hchain, hout⟩ := createFreeList_spec r (Nat.lt_of_succ_le hn) (r.slabs n).1 0 le_rfl
      (by rw [hblocks]; rfl)
    intro t ht
    rw [Resource.slabs]
    by_cases heq : t = n
    · subst heq
      dsimp only
      rw [Function.update_self]
      exact ⟨⟨rfl, rfl⟩, hchain⟩
    · have hlt : t < n := by omega
      obtain ⟨hbuf, hold⟩ := ih (by omega) t hlt
      simp only [Function.update_of_ne heq]
      refine ⟨hbuf, hold.frame fun b hb x hx hxw => hout x (Or.inl ?_)⟩
      obtain ⟨ht8, -, hhi⟩ := inside r hb
      have hsize := width_lt_sizeOf ht8
      have hnext := cPtr_add r hlt
      omega

/-- At first every block is free. -/
theorem start_shows (C : Type*) :
    Shows r (r.start C) ⟨r.blocks, fun _ => none⟩ where
  layout := {
    partition := {
      nodup := blocks_nodup_of r
      covers := fun t a => by simp
      apart := fun t a c hc => absurd hc (Option.some_ne_none _).symm
      one := fun c d x hc _ => absurd hc (Option.some_ne_none _).symm }
    buffer := fun t ht => (slabs_spec r 8 le_rfl t ht).1
    chain := fun t ht => (slabs_spec r 8 le_rfl t ht).2 }
  context _ := rfl

/-- After every run the blocks that clients hold and the blocks on the eight free lists are
exactly the blocks created, each in its tier and none twice, and no two of them overlap. A request
that is granted leaves enough room and the octets as they were; one that is refused leaves
everything as it was. -/
theorem blocks_partitioned {C : Type*} [DecidableEq C] (requests : List (Request C)) :
    (∀ t t' a a', a ∈ r.blocks t → a' ∈ r.blocks t' → (t, a) ≠ (t', a') →
      a + sizeOf t ≤ a' ∨ a' + sizeOf t' ≤ a) ∧
    (∃ p : Pool ℕ ℕ C, Shows r (run (r.start C) requests) p) ∧
    ∀ c needed,
      ((allocate (run (r.start C) requests) c needed).1 = true →
        Granted (run (r.start C) requests)
          (allocate (run (r.start C) requests) c needed).2 c needed) ∧
      ((allocate (run (r.start C) requests) c needed).1 = false →
        (allocate (run (r.start C) requests) c needed).2 = run (r.start C) requests) := by
  obtain ⟨p, hp⟩ := run_shows (start_shows r C) requests
  refine ⟨fun t t' a a' => apart r, ⟨p, hp⟩, fun c needed => ?_⟩
  rcases allocate_spec hp c needed with ⟨hfalse, hsame⟩ | ⟨htrue, -, hgranted⟩
  · exact ⟨fun h => absurd (hfalse.symm.trans h) Bool.false_ne_true, fun _ => hsame⟩
  · exact ⟨fun _ => hgranted, fun h => absurd (h.symm.trans htrue) Bool.false_ne_true⟩

end Start

end HM4.TieredMemoryManager
