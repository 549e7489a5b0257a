import Mathlib.Data.List.Basic
import Mathlib.Data.List.Nodup
import Mathlib.Data.List.Range
import Mathlib.Logic.Function.Basic
import Mathlib.Tactic.SplitIfs

/-!
# Free lists threaded through their own blocks

A memory has a cell at every address. A free list keeps the address of the next
free block in the first cells of each free block, so only the address of its
first block is held elsewhere. A pool says what such lists are for: every block
is free or has exactly one holder.
-/

namespace HM4.FreeList

section Memory

variable {β : Type*}

/-- A cell at every address. -/
abbrev Memory (β : Type*) := ℕ → β

/-- The `n` cells from an address on. -/
def read (m : Memory β) (a n : ℕ) : List β := (List.range n).map fun i => m (a + i)

/-- Some cells written from an address on. -/
def write (m : Memory β) (a : ℕ) (s : List β) : Memory β := fun x =>
  if x < a then m x else (s[x - a]?).getD (m x)

@[simp] theorem read_length (m : Memory β) (a n : ℕ) : (read m a n).length = n := by
  rw [read, List.length_map, List.length_range]

/-- A write leaves the cells outside it. -/
theorem write_outside {m : Memory β} {a x : ℕ} {s : List β} (h : x < a ∨ a + s.length ≤ x) :
    write m a s x = m x := by
  unfold write
  split_ifs with hx
  · rfl
  · have hle : s.length ≤ x - a := by omega
    rw [List.getElem?_eq_none hle, Option.getD_none]

theorem write_inside {m : Memory β} {a i : ℕ} {s : List β} (h : i < s.length) :
    write m a s (a + i) = s[i] := by
  unfold write
  rw [if_neg (by omega), Nat.add_sub_cancel_left, List.getElem?_eq_getElem h, Option.getD_some]

theorem write_nil (m : Memory β) (a : ℕ) : write m a [] = m := by
  funext x
  refine write_outside ?_
  rw [List.length_nil]
  omega

/-- Memories that agree on some cells read the same there. -/
theorem read_congr {m m' : Memory β} {a n : ℕ} (h : ∀ x, a ≤ x → x < a + n → m' x = m x) :
    read m' a n = read m a n := by
  refine List.map_congr_left fun i hi => h _ (Nat.le_add_right _ _) ?_
  exact Nat.add_lt_add_left (List.mem_range.mp hi) a

/-- What was written is read back. -/
theorem read_write (m : Memory β) (a : ℕ) (s : List β) : read (write m a s) a s.length = s := by
  apply List.ext_getElem
  · exact read_length _ _ _
  · intro i hi hs
    simp only [read, List.getElem_map, List.getElem_range]
    exact write_inside hs

/-- A write elsewhere does not change what is read. -/
theorem read_write_apart {m : Memory β} {a b n : ℕ} {s : List β}
    (h : b + n ≤ a ∨ a + s.length ≤ b) : read (write m a s) b n = read m b n :=
  read_congr fun x hx hn => write_outside (by omega)

/-- Writes to cells apart may be done in either order. -/
theorem write_comm {m : Memory β} {a b : ℕ} {s u : List β}
    (h : a + s.length ≤ b ∨ b + u.length ≤ a) :
    write (write m a s) b u = write (write m b u) a s := by
  funext x
  by_cases ha : x < a ∨ a + s.length ≤ x
  · rw [write_outside ha]
    by_cases hb : x < b ∨ b + u.length ≤ x
    · rw [write_outside hb, write_outside hb, write_outside ha]
    · obtain ⟨i, rfl⟩ : ∃ i, x = b + i := ⟨x - b, by omega⟩
      rw [write_inside (by omega), write_inside (by omega)]
  · obtain ⟨i, rfl⟩ : ∃ i, x = a + i := ⟨x - a, by omega⟩
    rw [write_outside (by omega), write_inside (by omega), write_inside (by omega)]

end Memory

section Chain

variable {β : Type*}

/-- How an address is kept in cells. -/
structure Word (β : Type*) where
  /-- The number of cells. -/
  width : ℕ
  /-- Every address is below it. -/
  bound : ℕ
  /-- The cells of an address. -/
  encode : ℕ → List β
  /-- The address in some cells. -/
  decode : List β → ℕ
  length_encode : ∀ x, (encode x).length = width
  decode_encode : ∀ x < bound, decode (encode x) = x

variable (W : Word β)

/-- The address kept at an address. -/
def load (m : Memory β) (a : ℕ) : ℕ := W.decode (read m a W.width)

/-- An address put down at an address. -/
def store (m : Memory β) (a x : ℕ) : Memory β := write m a (W.encode x)

theorem load_store (m : Memory β) (a : ℕ) {x : ℕ} (h : x < W.bound) :
    load W (store W m a x) a = x := by
  have hread := read_write m a (W.encode x)
  rw [W.length_encode] at hread
  rw [load, store, hread, W.decode_encode x h]

theorem load_write_apart {m : Memory β} {a b : ℕ} {s : List β}
    (h : b + W.width ≤ a ∨ a + s.length ≤ b) : load W (write m a s) b = load W m b := by
  rw [load, load, read_write_apart h]

/-- The free list with this head has these blocks; `0` ends it. -/
def Chain (m : Memory β) : ℕ → List ℕ → Prop
  | head, [] => head = 0
  | head, b :: bs => head = b ∧ b ≠ 0 ∧ Chain m (load W m b) bs

variable {W}

/-- Only the links of the blocks on the list matter. -/
theorem Chain.frame {m m' : Memory β} {head : ℕ} {bs : List ℕ} (hc : Chain W m head bs)
    (h : ∀ b ∈ bs, ∀ x, b ≤ x → x < b + W.width → m' x = m x) : Chain W m' head bs := by
  induction bs generalizing head with
  | nil => exact hc
  | cons b bs ih =>
    obtain ⟨hb, h0, hrest⟩ := hc
    refine ⟨hb, h0, ?_⟩
    have hload : load W m' b = load W m b := by
      rw [load, load, read_congr (h b List.mem_cons_self)]
    rw [hload]
    exact ih hrest fun d hd => h d (List.mem_cons_of_mem _ hd)

/-- A block linked to the head becomes the first block. -/
theorem Chain.push {m : Memory β} {head p : ℕ} {bs : List ℕ} (hc : Chain W m head bs)
    (hp : p ≠ 0) (hhead : head < W.bound)
    (hapart : ∀ b ∈ bs, b + W.width ≤ p ∨ p + W.width ≤ b) :
    Chain W (store W m p head) p (p :: bs) := by
  refine ⟨rfl, hp, ?_⟩
  rw [load_store W m p hhead]
  refine hc.frame fun b hb x hbx hx => write_outside ?_
  rw [W.length_encode]
  have h := hapart b hb
  omega

theorem Chain.head_eq_zero_iff {m : Memory β} {head : ℕ} {bs : List ℕ} (hc : Chain W m head bs) :
    head = 0 ↔ bs = [] := by
  cases bs with
  | nil => exact ⟨fun _ => rfl, fun _ => hc⟩
  | cons b bs =>
    obtain ⟨rfl, h0, -⟩ := hc
    exact ⟨fun h => absurd h h0, fun h => absurd h (List.cons_ne_nil _ _)⟩

/-- The head is no address or that of a block on the list. -/
theorem Chain.head_mem {m : Memory β} {head : ℕ} {bs : List ℕ} (hc : Chain W m head bs) :
    head = 0 ∨ head ∈ bs := by
  cases bs with
  | nil => exact Or.inl hc
  | cons b bs => exact Or.inr (hc.1 ▸ List.mem_cons_self)

end Chain

section Blocks

/-- The `n` blocks of one size from an address on. -/
def blocks (base size n : ℕ) : List ℕ := (List.range n).map fun i => base + i * size

theorem mem_blocks {base size n p : ℕ} :
    p ∈ blocks base size n ↔ ∃ i < n, p = base + i * size := by
  simp only [blocks, List.mem_map, List.mem_range, eq_comm]

/-- Blocks of one size at different addresses do not overlap. -/
theorem blocks_apart {base size n p q : ℕ} (hp : p ∈ blocks base size n)
    (hq : q ∈ blocks base size n) (hne : p ≠ q) : p + size ≤ q ∨ q + size ≤ p := by
  obtain ⟨i, -, rfl⟩ := mem_blocks.mp hp
  obtain ⟨j, -, rfl⟩ := mem_blocks.mp hq
  rcases Nat.lt_trichotomy i j with h | h | h
  · have hm := Nat.mul_le_mul_right size h
    rw [Nat.succ_mul] at hm
    exact Or.inl (by omega)
  · exact absurd (congrArg (fun k => base + k * size) h) hne
  · have hm := Nat.mul_le_mul_right size h
    rw [Nat.succ_mul] at hm
    exact Or.inr (by omega)

/-- Every block lies inside the room. -/
theorem blocks_inside {base size room p : ℕ} (hp : p ∈ blocks base size (room / size)) :
    base ≤ p ∧ p + size ≤ base + room := by
  obtain ⟨i, hi, rfl⟩ := mem_blocks.mp hp
  have hm := Nat.mul_le_mul_right size (Nat.succ_le_of_lt hi)
  have hroom := Nat.div_mul_le_self room size
  rw [Nat.succ_mul] at hm
  omega

theorem blocks_nodup {base size n : ℕ} (hsize : 0 < size) : (blocks base size n).Nodup := by
  refine List.Nodup.map_on (fun i _ j _ h => ?_) List.nodup_range
  exact Nat.eq_of_mul_eq_mul_right hsize (Nat.add_left_cancel h)

/-- The blocks from the `i`-th on. -/
theorem drop_blocks {base size n i : ℕ} (h : i < n) :
    (blocks base size n).drop i = (base + i * size) :: (blocks base size n).drop (i + 1) := by
  have hlen : i < (blocks base size n).length := by
    rwa [blocks, List.length_map, List.length_range]
  rw [List.drop_eq_getElem_cons hlen]
  simp only [blocks, List.getElem_map, List.getElem_range]

end Blocks

section Pool

variable {τ α C : Type*} [DecidableEq τ] [DecidableEq C]

/-- Free blocks by kind, and the block of each holder. -/
structure Pool (τ α C : Type*) where
  /-- The free blocks of a kind, first to last. -/
  free : τ → List α
  /-- The block of a holder, with its kind. -/
  held : C → Option (τ × α)

/-- A holder without a block takes the first free one of a kind. -/
def Pool.take (p : Pool τ α C) (c : C) (t : τ) : Pool τ α C :=
  match p.free t with
  | [] => p
  | a :: rest =>
    ⟨Function.update p.free t rest, Function.update p.held c (some (t, a))⟩

/-- A holder gives its block back. -/
def Pool.give (p : Pool τ α C) (c : C) : Pool τ α C :=
  match p.held c with
  | none => p
  | some (t, a) =>
    ⟨Function.update p.free t (a :: p.free t), Function.update p.held c none⟩

/-- Two holders exchange what they hold. -/
def Pool.swap (p : Pool τ α C) (c d : C) : Pool τ α C :=
  ⟨p.free, Function.update (Function.update p.held c (p.held d)) d (p.held c)⟩

/-- Every block is free or has one holder, and there are no others. -/
structure Pool.Partition (all : τ → List α) (p : Pool τ α C) : Prop where
  nodup : ∀ t, (p.free t).Nodup
  covers : ∀ t a, a ∈ all t ↔ a ∈ p.free t ∨ ∃ c, p.held c = some (t, a)
  apart : ∀ t a c, p.held c = some (t, a) → a ∉ p.free t
  one : ∀ c d x, p.held c = some x → p.held d = some x → c = d

variable {all : τ → List α} {p : Pool τ α C}

theorem Pool.take_of_nil (c : C) {t : τ} (h : p.free t = []) : p.take c t = p := by
  rw [Pool.take, h]

theorem Pool.take_of_cons (c : C) {t : τ} {a : α} {rest : List α} (h : p.free t = a :: rest) :
    p.take c t = ⟨Function.update p.free t rest, Function.update p.held c (some (t, a))⟩ := by
  rw [Pool.take, h]

theorem Pool.give_of_none {c : C} (h : p.held c = none) : p.give c = p := by
  rw [Pool.give, h]

theorem Pool.give_of_some {c : C} {t : τ} {a : α} (h : p.held c = some (t, a)) :
    p.give c = ⟨Function.update p.free t (a :: p.free t), Function.update p.held c none⟩ := by
  rw [Pool.give, h]

theorem Pool.give_held (p : Pool τ α C) (c : C) : (p.give c).held c = none := by
  cases h : p.held c with
  | none => rwa [Pool.give_of_none h]
  | some x =>
    rw [Pool.give_of_some h]
    exact Function.update_self _ _ _

theorem Pool.give_held_of_ne (p : Pool τ α C) {c d : C} (hd : d ≠ c) :
    (p.give c).held d = p.held d := by
  cases h : p.held c with
  | none => rw [Pool.give_of_none h]
  | some x =>
    rw [Pool.give_of_some h]
    exact Function.update_of_ne hd _ _

theorem Pool.take_held (c : C) {t : τ} {a : α} {rest : List α} (h : p.free t = a :: rest) :
    (p.take c t).held c = some (t, a) := by
  rw [Pool.take_of_cons c h]
  exact Function.update_self _ _ _

theorem Pool.take_held_of_ne (p : Pool τ α C) {c d : C} (t : τ) (hd : d ≠ c) :
    (p.take c t).held d = p.held d := by
  cases h : p.free t with
  | nil => rw [Pool.take_of_nil c h]
  | cons a rest =>
    rw [Pool.take_of_cons c h]
    exact Function.update_of_ne hd _ _

/-- Giving a block back leaves the lists of the other kinds. -/
theorem Pool.give_free_of_ne {c : C} {t t' : τ} {a : α} (h : p.held c = some (t, a))
    (ht : t' ≠ t) : (p.give c).free t' = p.free t' := by
  rw [Pool.give_of_some h]
  exact Function.update_of_ne ht _ _

omit [DecidableEq τ] [DecidableEq C] in
/-- A free block is a block. -/
theorem Pool.Partition.mem_of_free (h : p.Partition all) {t : τ} {a : α} (ha : a ∈ p.free t) :
    a ∈ all t := (h.covers t a).mpr (Or.inl ha)

/-- Taking a block keeps the partition. -/
theorem Pool.Partition.take (h : p.Partition all) {c : C} (hc : p.held c = none) (t : τ) :
    (p.take c t).Partition all := by
  cases hf : p.free t with
  | nil => rwa [Pool.take_of_nil c hf]
  | cons a rest =>
    have hnd := h.nodup t
    rw [hf] at hnd
    obtain ⟨hnot, hrest⟩ := List.nodup_cons.mp hnd
    have ha : a ∈ p.free t := hf ▸ List.mem_cons_self
    have hheld : ∀ d x, Function.update p.held c (some (t, a)) d = some x ↔
        d = c ∧ x = (t, a) ∨ p.held d = some x := by
      intro d x
      by_cases hd : d = c
      · rw [hd, Function.update_self, hc]
        simp [eq_comm]
      · rw [Function.update_of_ne hd]
        simp [hd]
    rw [Pool.take_of_cons c hf]
    constructor
    · intro t'
      by_cases ht : t' = t
      · subst ht
        simpa using hrest
      · simpa [Function.update_of_ne ht] using h.nodup t'
    · intro t' b
      simp only [hheld]
      rw [h.covers t' b]
      by_cases ht : t' = t
      · subst ht
        rw [hf, Function.update_self, List.mem_cons]
        constructor
        · rintro ((rfl | hb) | ⟨d, hd⟩)
          · exact Or.inr ⟨c, Or.inl ⟨rfl, rfl⟩⟩
          · exact Or.inl hb
          · exact Or.inr ⟨d, Or.inr hd⟩
        · rintro (hb | ⟨d, ⟨-, hx⟩ | hd⟩)
          · exact Or.inl (Or.inr hb)
          · exact Or.inl (Or.inl (Prod.ext_iff.mp hx).2)
          · exact Or.inr ⟨d, hd⟩
      · rw [Function.update_of_ne ht]
        simp [ht]
    · intro t' b d hd
      rcases (hheld d _).mp hd with ⟨-, hx⟩ | hd
      · obtain ⟨rfl, rfl⟩ := Prod.ext_iff.mp hx
        simpa using hnot
      · have hb := h.apart t' b d hd
        by_cases ht : t' = t
        · subst ht
          rw [hf] at hb
          simpa using fun hm => hb (List.mem_cons_of_mem _ hm)
        · simpa [Function.update_of_ne ht] using hb
    · intro d e x hd he
      have hfree : ∀ f, p.held f ≠ some (t, a) := fun f hf' => h.apart t a f hf' ha
      rcases (hheld d x).mp hd with ⟨rfl, rfl⟩ | hd
      · rcases (hheld e _).mp he with ⟨rfl, -⟩ | he
        · rfl
        · exact absurd he (hfree e)
      · rcases (hheld e x).mp he with ⟨-, rfl⟩ | he
        · exact absurd hd (hfree d)
        · exact h.one d e x hd he

/-- Giving a block back keeps the partition. -/
theorem Pool.Partition.give (h : p.Partition all) (c : C) : (p.give c).Partition all := by
  cases hc : p.held c with
  | none => rwa [Pool.give_of_none hc]
  | some x =>
    obtain ⟨t, a⟩ := x
    have hheld : ∀ d x, Function.update p.held c none d = some x ↔
        d ≠ c ∧ p.held d = some x := by
      intro d x
      by_cases hd : d = c
      · simp [hd]
      · simp [hd]
    have hother : ∀ d, d ≠ c → p.held d ≠ some (t, a) :=
      fun d hd hx => hd (h.one d c _ hx hc)
    rw [Pool.give_of_some hc]
    constructor
    · intro t'
      by_cases ht : t' = t
      · subst ht
        simpa using ⟨h.apart t' a c hc, h.nodup t'⟩
      · simpa [Function.update_of_ne ht] using h.nodup t'
    · intro t' b
      simp only [hheld]
      rw [h.covers t' b]
      by_cases ht : t' = t
      · subst ht
        rw [Function.update_self, List.mem_cons]
        constructor
        · rintro (hb | ⟨d, hd⟩)
          · exact Or.inl (Or.inr hb)
          · by_cases hdc : d = c
            · subst hdc
              rw [hc] at hd
              exact Or.inl (Or.inl (Prod.ext_iff.mp (Option.some.inj hd)).2.symm)
            · exact Or.inr ⟨d, hdc, hd⟩
        · rintro ((rfl | hb) | ⟨d, -, hd⟩)
          · exact Or.inr ⟨c, hc⟩
          · exact Or.inl hb
          · exact Or.inr ⟨d, hd⟩
      · rw [Function.update_of_ne ht]
        have hne : ∀ d, p.held d = some (t', b) → d ≠ c := by
          rintro d hd rfl
          rw [hc] at hd
          exact ht (Prod.ext_iff.mp (Option.some.inj hd)).1.symm
        exact or_congr_right (exists_congr fun d => ⟨fun hd => ⟨hne d hd, hd⟩, fun hd => hd.2⟩)
    · intro t' b d hd
      obtain ⟨hdc, hold⟩ := (hheld d _).mp hd
      have hb := h.apart t' b d hold
      by_cases ht : t' = t
      · subst ht
        simp only [Function.update_self, List.mem_cons]
        rintro (rfl | hm)
        · exact hother d hdc hold
        · exact hb hm
      · simpa [Function.update_of_ne ht] using hb
    · intro d e x hd he
      exact h.one d e x ((hheld d x).mp hd).2 ((hheld e x).mp he).2

omit [DecidableEq τ] in
/-- Holders that exchange their blocks keep the partition. -/
theorem Pool.Partition.swap (h : p.Partition all) (c d : C) : (p.swap c d).Partition all := by
  let f : C → C := fun e => if e = d then c else if e = c then d else e
  have hf : ∀ e, f (f e) = e := by
    intro e
    simp only [f]
    split_ifs <;> simp_all
  have hheld : ∀ e, (p.swap c d).held e = p.held (f e) := by
    intro e
    simp only [Pool.swap, f]
    by_cases hd : e = d
    · rw [hd, Function.update_self, if_pos rfl]
    · rw [Function.update_of_ne hd, if_neg hd]
      by_cases hc : e = c
      · rw [hc, Function.update_self, if_pos rfl]
      · rw [Function.update_of_ne hc, if_neg hc]
  constructor
  · exact h.nodup
  · intro t a
    rw [h.covers t a]
    refine or_congr_right ⟨?_, ?_⟩
    · rintro ⟨e, he⟩
      exact ⟨f e, by rw [hheld, hf, he]⟩
    · rintro ⟨e, he⟩
      exact ⟨f e, by rw [← hheld, he]⟩
  · intro t a e he
    exact h.apart t a (f e) (by rw [← hheld, he])
  · intro e e' x he he'
    have hfe := h.one (f e) (f e') x (by rw [← hheld, he]) (by rw [← hheld, he'])
    rw [← hf e, hfe, hf]

end Pool

end HM4.FreeList
