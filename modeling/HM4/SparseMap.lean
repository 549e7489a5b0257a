import HM4.Bytes
import Mathlib.Data.Finmap

/-!
# The sparse array

Entries lie side by side in a dense array, and a sparse array tells for each key at which place. A
removal moves the last entry into the place that gets free. The array is a map from keys below its
domain with no more entries than its capacity, but it refuses every insert when it is full, also one
over an entry that is there.
-/

namespace HM4.SparseMap

variable {w : ℕ} {M T V : Type}

/-! ## The code -/

/-- `Controller`: what an entry has as key and as value, and how one is made from a key and the
other arguments of `insert`. -/
structure Controller (w : ℕ) (M T V : Type) where
  getKey : M → BitVec w
  getVal : M → V
  make : BitVec w → T → M
  getKey_make : ∀ key ts, getKey (make key ts) = key

/-- `SparseMapController`. -/
def easyMap (w : ℕ) (V : Type) : Controller w (BitVec w × V) V V where
  getKey := Prod.fst
  getVal := Prod.snd
  make := Prod.mk
  getKey_make _ _ := rfl

/-- `SparseSetController`. -/
def easySet (w : ℕ) : Controller w (BitVec w) Unit (BitVec w) where
  getKey := id
  getVal := id
  make key _ := key
  getKey_make _ _ := rfl

/-- `SparseArray`; `K` has `w` bits. -/
structure SparseArray (w : ℕ) (M : Type) where
  sparse_ : Array (BitVec w)
  dense_ : Array M
  capacity_ : BitVec w

/-- A write to a place that is there. -/
def write {α : Type} (xs : Array α) (i : ℕ) (x : α) : Option (Array α) :=
  if h : i < xs.size then some (xs.set i x) else none

namespace SparseArray

/-- `MAX_SIZE`. -/
def MAX_SIZE (w : ℕ) : BitVec w := BitVec.allOnes w

/-- The constructor. -/
def create (M : Type) (size capacity : BitVec w) : SparseArray w M where
  sparse_ := Array.replicate size.toNat (MAX_SIZE w)
  dense_ := #[]
  capacity_ := if capacity ≠ 0#w then capacity else size

variable (a : SparseArray w M)

/-- `domain`. -/
def domain : BitVec w := BitVec.ofNat w a.sparse_.size

/-- `capacity`. -/
def capacity : BitVec w := a.capacity_

/-- `size`. -/
def size : BitVec w := BitVec.ofNat w a.dense_.size

/-- `exists`. -/
def exists_ (key : BitVec w) : Option Bool :=
  if a.domain ≤ key then some false
  else do
    let index ← a.sparse_[key.toNat]?
    return decide (index < a.size)

/-- `find`. -/
def find (c : Controller w M T V) (key : BitVec w) : Option (Option V) := do
  if ¬(← a.exists_ key) then return none
  let index ← a.sparse_[key.toNat]?
  let value ← a.dense_[index.toNat]?
  return some (c.getVal value)

/-- What `insertT_` and `insertF_` do with an entry and its key. -/
def insertAt (key : BitVec w) (value : M) : Option (Bool × SparseArray w M) :=
  if a.capacity ≤ a.size then some (false, a)
  else if a.domain ≤ key then some (false, a)
  else do
    let index ← a.sparse_[key.toNat]?
    if index < a.size then
      let dense ← write a.dense_ index.toNat value
      return (true, { a with dense_ := dense })
    else
      let sparse ← write a.sparse_ key.toNat a.size
      return (true, { a with sparse_ := sparse, dense_ := a.dense_.push value })

/-- `insertT_`. -/
def insertT (c : Controller w M T V) (key : BitVec w) (ts : T) : Option (Bool × SparseArray w M) :=
  a.insertAt key (c.make key ts)

/-- `insertF_`. -/
def insertF (c : Controller w M T V) (value : M) : Option (Bool × SparseArray w M) :=
  a.insertAt (c.getKey value) value

/-- The last entry is moved to a place, and its key leads there. -/
def moveLast (c : Controller w M T V) (index : BitVec w) : Option (SparseArray w M) := do
  let last ← a.dense_.back?
  let dense ← write a.dense_ index.toNat last
  let sparse ← write a.sparse_ (c.getKey last).toNat index
  return { a with sparse_ := sparse, dense_ := dense }

/-- `remove`. -/
def remove (c : Controller w M T V) (key : BitVec w) : Option (Bool × SparseArray w M) := do
  if ¬(← a.exists_ key) then return (false, a)
  let index ← a.sparse_[key.toNat]?
  let a ← if index ≠ a.size - 1 then a.moveLast c index else some a
  let sparse ← write a.sparse_ key.toNat (MAX_SIZE w)
  return (true, { a with sparse_ := sparse, dense_ := a.dense_.pop })

end SparseArray

/-- The calls that change an array. The overloads of `insert` take a key and the rest of an entry,
an entry, or an entry that is moved. -/
inductive Op (w : ℕ) (M T : Type)
  | insertKey (key : BitVec w) (ts : T)
  | insertCopy (value : M)
  | insertMove (value : M)
  | remove (key : BitVec w)

/-- One call: its answer and the array. -/
def step (c : Controller w M T V) (a : SparseArray w M) : Op w M T → Option (Bool × SparseArray w M)
  | .insertKey key ts => a.insertT c key ts
  | .insertCopy value => a.insertF c value
  | .insertMove value => a.insertF c value
  | .remove key => a.remove c key

/-- Some calls, one after another. -/
def run (c : Controller w M T V) : SparseArray w M → List (Op w M T) →
    Option (List Bool × SparseArray w M)
  | a, [] => some ([], a)
  | a, op :: ops => do
    let (r, a) ← step c a op
    let (rs, a) ← run c a ops
    return (r :: rs, a)

/-! ## A finite map with a capacity -/

/-- A finite map with keys below a bound and no more entries than another. -/
structure Bounds where
  domain : ℕ
  capacity : ℕ

namespace Bounds

variable (b : Bounds) (m : Finmap fun _ : BitVec w => M)

/-- An insert fails for a key that is too large, or if it needs room and there is none. -/
def insert (key : BitVec w) (value : M) : Bool × Finmap fun _ : BitVec w => M :=
  if b.domain ≤ key.toNat ∨ key ∉ m ∧ b.capacity ≤ m.keys.card then (false, m)
  else (true, m.insert key value)

/-- A removal fails for a key without an entry. -/
def remove (key : BitVec w) : Bool × Finmap fun _ : BitVec w => M :=
  if key ∈ m then (true, m.erase key) else (false, m)

/-- One call. -/
def step (c : Controller w M T V) : Op w M T → Bool × Finmap fun _ : BitVec w => M
  | .insertKey key ts => b.insert m key (c.make key ts)
  | .insertCopy value => b.insert m (c.getKey value) value
  | .insertMove value => b.insert m (c.getKey value) value
  | .remove key => remove m key

/-- Some calls, one after another. -/
def run (b : Bounds) (c : Controller w M T V) : (Finmap fun _ : BitVec w => M) → List (Op w M T) →
    List Bool × Finmap fun _ : BitVec w => M
  | m, [] => ([], m)
  | m, op :: ops =>
    let (r, m) := b.step m c op
    let (rs, m) := run b c m ops
    (r :: rs, m)

end Bounds

/-! ## The two arrays -/

/-- The two arrays fit together: a slot that is in use leads to the entry of its key, and each entry
is where the slot of its key leads. -/
structure Good (c : Controller w M T V) (a : SparseArray w M) : Prop where
  slot : ∀ k index, a.sparse_[k]? = some index → index = SparseArray.MAX_SIZE w ∨
    ∃ x, a.dense_[index.toNat]? = some x ∧ (c.getKey x).toNat = k
  here : ∀ i x, a.dense_[i]? = some x → a.sparse_[(c.getKey x).toNat]? = some (BitVec.ofNat w i)
  domain_lt : a.sparse_.size < 2 ^ w
  size_le : a.dense_.size ≤ a.capacity_.toNat

/-- The entry of a key. -/
def SparseArray.entry (a : SparseArray w M) (key : BitVec w) : Option M :=
  (a.sparse_[key.toNat]?).bind fun index => a.dense_[index.toNat]?

theorem write_eq {α : Type} {xs : Array α} {i : ℕ} (x : α) (h : i < xs.size) :
    write xs i x = some (xs.set i x) := dif_pos h

theorem good_create (c : Controller w M T V) (size capacity : BitVec w) :
    Good c (SparseArray.create M size capacity) where
  slot k index hk := by
    left
    have hget : (Array.replicate size.toNat (SparseArray.MAX_SIZE w))[k]? = some index := hk
    rw [Array.getElem?_replicate] at hget
    split at hget
    · exact (Option.some.inj hget).symm
    · exact nomatch hget
  here i x hx := by
    have hget : (#[] : Array M)[i]? = some x := hx
    simp at hget
  domain_lt := by
    have hsize : (SparseArray.create M size capacity).sparse_.size = size.toNat :=
      Array.size_replicate
    rw [hsize]
    exact size.isLt
  size_le := Nat.zero_le _

theorem entry_create (size capacity key : BitVec w) :
    (SparseArray.create M size capacity).entry key = none := by
  have hnone (index : BitVec w) : (#[] : Array M)[index.toNat]? = none := by simp
  unfold SparseArray.entry SparseArray.create
  simp only [hnone]
  exact Option.bind_eq_none_iff.mpr fun _ _ => rfl

theorem lt_of_get {xs : Array M} {i : ℕ} {x : M} (hx : xs[i]? = some x) : i < xs.size :=
  (Array.getElem?_eq_some_iff.mp hx).1

/-- The slot of a key below the domain. -/
theorem exists_slot {a : SparseArray w M} {key : BitVec w} (hkey : key.toNat < a.sparse_.size) :
    ∃ index, a.sparse_[key.toNat]? = some index ∧ a.entry key = a.dense_[index.toNat]? := by
  have hget := Array.getElem?_eq_getElem hkey
  refine ⟨_, hget, ?_⟩
  rw [SparseArray.entry, hget, Option.bind_some]

theorem entry_of_le {a : SparseArray w M} {key : BitVec w} (hkey : a.sparse_.size ≤ key.toNat) :
    a.entry key = none := by
  rw [SparseArray.entry, Array.getElem?_eq_none hkey, Option.bind_none]

namespace Good

variable {c : Controller w M T V} {a : SparseArray w M} (h : Good c a)

include h

theorem size_lt : a.dense_.size < 2 ^ w := lt_of_le_of_lt h.size_le a.capacity_.isLt

theorem toNat_size : a.size.toNat = a.dense_.size := by
  rw [SparseArray.size, BitVec.toNat_ofNat, Nat.mod_eq_of_lt h.size_lt]

theorem toNat_domain : a.domain.toNat = a.sparse_.size := by
  rw [SparseArray.domain, BitVec.toNat_ofNat, Nat.mod_eq_of_lt h.domain_lt]

theorem lt_size_iff (index : BitVec w) : index < a.size ↔ index.toNat < a.dense_.size := by
  rw [BitVec.lt_def, h.toNat_size]

theorem domain_le_iff (key : BitVec w) : a.domain ≤ key ↔ a.sparse_.size ≤ key.toNat := by
  rw [BitVec.le_def, h.toNat_domain]

theorem capacity_le_iff : a.capacity ≤ a.size ↔ a.capacity_.toNat ≤ a.dense_.size := by
  rw [BitVec.le_def, h.toNat_size, SparseArray.capacity]

/-- A slot that is not in use leads nowhere. -/
theorem max_size : a.dense_[(SparseArray.MAX_SIZE w).toNat]? = none := by
  have hlt := h.size_lt
  refine Array.getElem?_eq_none ?_
  rw [SparseArray.MAX_SIZE, BitVec.toNat_allOnes]
  omega

theorem key_of_entry {key : BitVec w} {x : M} (hx : a.entry key = some x) : c.getKey x = key := by
  obtain ⟨index, hindex, hget⟩ := Option.bind_eq_some_iff.mp hx
  rcases h.slot _ _ hindex with rfl | ⟨x', hx', hkey⟩
  · rw [h.max_size] at hget
    exact nomatch hget
  · obtain rfl := Option.some.inj (hget.symm.trans hx')
    exact BitVec.eq_of_toNat_eq hkey

theorem toNat_place {i : ℕ} (hi : i < a.dense_.size) : (BitVec.ofNat w i).toNat = i := by
  have hlt := h.size_lt
  rw [BitVec.toNat_ofNat, Nat.mod_eq_of_lt (by omega)]

theorem entry_of_get {i : ℕ} {x : M} (hx : a.dense_[i]? = some x) :
    a.entry (c.getKey x) = some x := by
  rw [SparseArray.entry, h.here i x hx, Option.bind_some, h.toNat_place (lt_of_get hx), hx]

/-- Two places do not have one key. -/
theorem place_unique {i j : ℕ} {x y : M} (hx : a.dense_[i]? = some x) (hy : a.dense_[j]? = some y)
    (hkey : c.getKey x = c.getKey y) : i = j := by
  have hi := h.here i x hx
  rw [hkey, h.here j y hy] at hi
  have htoNat := congrArg BitVec.toNat (Option.some.inj hi)
  rwa [h.toNat_place (lt_of_get hy), h.toNat_place (lt_of_get hx), eq_comm] at htoNat

/-- An index is in use if and only if there is an entry. -/
theorem lt_size_iff_isSome (index : BitVec w) :
    index < a.size ↔ (a.dense_[index.toNat]?).isSome = true := by
  rw [h.lt_size_iff]
  simp

theorem exists_eq (key : BitVec w) : a.exists_ key = some (a.entry key).isSome := by
  unfold SparseArray.exists_
  by_cases hkey : a.domain ≤ key
  · rw [if_pos hkey, entry_of_le ((h.domain_le_iff key).mp hkey)]
    rfl
  · have hlt := Nat.lt_of_not_le fun hle => hkey ((h.domain_le_iff key).mpr hle)
    obtain ⟨index, hslot, hentry⟩ := exists_slot hlt
    rw [if_neg hkey, hslot, hentry]
    simp only [Option.bind_eq_bind, Option.bind_some, Option.pure_def, h.lt_size_iff_isSome,
      Bool.decide_eq_true]

theorem find_eq (key : BitVec w) : a.find c key = some ((a.entry key).map c.getVal) := by
  unfold SparseArray.find
  rw [h.exists_eq]
  cases hentry : a.entry key with
  | none => rfl
  | some x =>
    obtain ⟨index, hindex, hget⟩ := Option.bind_eq_some_iff.mp hentry
    simp [hindex, hget]

/-- An entry is put over the one of its key. -/
theorem set {index : BitVec w} {x old : M} (hold : a.dense_[index.toNat]? = some old)
    (hkey : c.getKey x = c.getKey old) :
    Good c { a with dense_ := a.dense_.set index.toNat x (lt_of_get hold) } ∧
      ∀ k, SparseArray.entry { a with dense_ := a.dense_.set index.toNat x (lt_of_get hold) } k =
        if k = c.getKey x then some x else a.entry k := by
  have hget (i : ℕ) : (a.dense_.set index.toNat x (lt_of_get hold))[i]? =
      if index.toNat = i then some x else a.dense_[i]? := Array.getElem?_set _
  constructor
  · refine ⟨fun k slot hslot => ?_, fun i y hy => ?_, h.domain_lt, ?_⟩
    · refine (h.slot k slot hslot).imp_right fun hused => ?_
      obtain ⟨y, hy, hk⟩ := hused
      rw [hget]
      by_cases heq : index.toNat = slot.toNat
      · rw [← heq, hold] at hy
        obtain rfl := Option.some.inj hy
        rw [if_pos heq]
        exact ⟨x, rfl, by rw [hkey, hk]⟩
      · rw [if_neg heq]
        exact ⟨y, hy, hk⟩
    · dsimp only at hy
      rw [hget] at hy
      split at hy
      · next heq =>
        subst heq
        obtain rfl := Option.some.inj hy
        rw [hkey]
        exact h.here _ old hold
      · exact h.here i y hy
    · rw [Array.size_set]
      exact h.size_le
  · intro k
    by_cases hk : k = c.getKey x
    · rw [if_pos hk, SparseArray.entry, hk, hkey, h.here _ old hold, Option.bind_some,
        h.toNat_place (lt_of_get hold)]
      exact (hget _).trans (if_pos rfl)
    · rw [if_neg hk, SparseArray.entry, SparseArray.entry]
      refine Option.bind_congr fun slot hslot => ?_
      rw [hget]
      by_cases heq : index.toNat = slot.toNat
      · -- the slot of another key does not lead to this place
        rw [if_pos heq]
        have hentry : a.entry k = some old := by
          rw [SparseArray.entry, hslot, Option.bind_some, ← heq, hold]
        exact absurd ((hkey.trans (h.key_of_entry hentry)).symm) hk
      · rw [if_neg heq]

/-- An entry of a new key is put behind all others. -/
theorem push {key : BitVec w} {x : M} (hdomain : key.toNat < a.sparse_.size)
    (hroom : a.dense_.size < a.capacity_.toNat) (hnone : a.entry key = none)
    (hkey : c.getKey x = key) :
    Good c { a with
      sparse_ := a.sparse_.set key.toNat a.size hdomain, dense_ := a.dense_.push x } ∧
    ∀ k, SparseArray.entry { a with
        sparse_ := a.sparse_.set key.toNat a.size hdomain, dense_ := a.dense_.push x } k =
      if k = key then some x else a.entry k := by
  have hslots (k : ℕ) : (a.sparse_.set key.toNat a.size hdomain)[k]? =
      if key.toNat = k then some a.size else a.sparse_[k]? := Array.getElem?_set _
  have hget (i : ℕ) : (a.dense_.push x)[i]? =
      if i = a.dense_.size then some x else a.dense_[i]? := Array.getElem?_push
  have hcapacity := a.capacity_.isLt
  have hmax : (SparseArray.MAX_SIZE w).toNat ≠ a.dense_.size := by
    rw [SparseArray.MAX_SIZE, BitVec.toNat_allOnes]
    omega
  have hold {i : ℕ} {y : M} (hy : a.dense_[i]? = some y) : (a.dense_.push x)[i]? = some y := by
    rw [hget, if_neg (lt_of_get hy).ne, hy]
  constructor
  · refine ⟨fun k slot hslot => ?_, fun i y hy => ?_, ?_, ?_⟩
    · dsimp only at hslot ⊢
      rw [hslots] at hslot
      split at hslot
      · next heq =>
        obtain rfl := Option.some.inj hslot
        right
        refine ⟨x, ?_, by rw [hkey, heq]⟩
        rw [hget, h.toNat_size, if_pos rfl]
      · refine (h.slot k slot hslot).imp_right fun hused => ?_
        obtain ⟨y, hy, hk⟩ := hused
        exact ⟨y, hold hy, hk⟩
    · dsimp only at hy ⊢
      rw [hget] at hy
      rw [hslots]
      split at hy
      · next heq =>
        obtain rfl := Option.some.inj hy
        rw [hkey, if_pos rfl, heq, SparseArray.size]
      · have hne : key.toNat ≠ (c.getKey y).toNat := by
          intro heq
          have hentry := h.entry_of_get hy
          rw [← BitVec.eq_of_toNat_eq heq, hnone] at hentry
          exact nomatch hentry
        rw [if_neg hne]
        exact h.here i y hy
    · rw [Array.size_set]
      exact h.domain_lt
    · rw [Array.size_push]
      exact hroom
  · intro k
    by_cases hk : k = key
    · subst hk
      rw [if_pos rfl, SparseArray.entry, hslots, if_pos rfl, Option.bind_some, hget, h.toNat_size,
        if_pos rfl]
    · have hne : key.toNat ≠ k.toNat := fun heq => hk (BitVec.eq_of_toNat_eq heq).symm
      rw [if_neg hk, SparseArray.entry, SparseArray.entry, hslots, if_neg hne]
      refine Option.bind_congr fun slot hslot => ?_
      rcases h.slot _ _ hslot with rfl | ⟨y, hy, -⟩
      · rw [hget, if_neg hmax]
      · rw [hold hy, hy]

/-- The last entry goes to the place of an entry that is removed, whose slot gets free. -/
theorem drop {key : BitVec w} {x last : M} {index : BitVec w} {sparse : Array (BitVec w)}
    {dense : Array M} (hindex : a.sparse_[key.toNat]? = some index)
    (hx : a.dense_[index.toNat]? = some x) (hlast : a.dense_[a.dense_.size - 1]? = some last)
    (hsize : sparse.size = a.sparse_.size) (hlen : dense.size = a.dense_.size - 1)
    (hslots : ∀ k, sparse[k]? = if k = key.toNat then some (SparseArray.MAX_SIZE w)
      else if k = (c.getKey last).toNat then some index else a.sparse_[k]?)
    (hget : ∀ i, dense[i]? = if i < a.dense_.size - 1 then
      (if i = index.toNat then some last else a.dense_[i]?) else none) :
    Good c { a with sparse_ := sparse, dense_ := dense } ∧
      ∀ k, SparseArray.entry { a with sparse_ := sparse, dense_ := dense } k =
        if k = key then none else a.entry k := by
  have hlt := lt_of_get hx
  have hkey : c.getKey x = key := by
    refine h.key_of_entry ?_
    rw [SparseArray.entry, hindex, Option.bind_some, hx]
  have hslotLast := h.here _ last hlast
  -- the last entry has the key only if it is the one that is removed
  have hsame : (c.getKey last).toNat = key.toNat ↔ index.toNat = a.dense_.size - 1 := by
    constructor
    · intro heq
      exact h.place_unique hx hlast (hkey.trans (BitVec.eq_of_toNat_eq heq).symm)
    · intro heq
      rw [heq, hlast] at hx
      rw [Option.some.inj hx, hkey]
  have hmoved (hne : (c.getKey last).toNat ≠ key.toNat) : dense[index.toNat]? = some last := by
    have hnot : index.toNat ≠ a.dense_.size - 1 := fun heq => hne (hsame.mpr heq)
    rw [hget, if_pos (by omega), if_pos rfl]
  -- the slots of other keys lead to their entries
  have hother {k : ℕ} {slot : BitVec w} {y : M} (hk : k ≠ key.toNat)
      (hne : k ≠ (c.getKey last).toNat) (hslot : a.sparse_[k]? = some slot)
      (hy : a.dense_[slot.toNat]? = some y) (hyk : (c.getKey y).toNat = k) :
      dense[slot.toNat]? = some y := by
    have hplace := lt_of_get hy
    have hfirst : slot.toNat ≠ index.toNat := by
      intro heq
      rw [heq, hx] at hy
      rw [← Option.some.inj hy, hkey] at hyk
      exact hk hyk.symm
    have hbehind : slot.toNat ≠ a.dense_.size - 1 := by
      intro heq
      rw [heq, hlast] at hy
      rw [← Option.some.inj hy] at hyk
      exact hne hyk.symm
    rw [hget, if_pos (by omega), if_neg hfirst, hy]
  constructor
  · refine ⟨fun k slot hslot => ?_, fun i y hy => ?_, ?_, ?_⟩
    · dsimp only at hslot ⊢
      rw [hslots] at hslot
      split at hslot
      · exact .inl (Option.some.inj hslot).symm
      · next hk =>
        split at hslot
        · next heq =>
          obtain rfl := Option.some.inj hslot
          exact .inr ⟨last, hmoved (heq ▸ hk), heq.symm⟩
        · next hne =>
          refine (h.slot k slot hslot).imp_right fun hused => ?_
          obtain ⟨y, hy, hyk⟩ := hused
          exact ⟨y, hother hk hne hslot hy hyk, hyk⟩
    · dsimp only at hy ⊢
      have hi := lt_of_get hy
      rw [hget, if_pos (by omega)] at hy
      rw [hslots]
      split at hy
      · next heq =>
        obtain rfl := Option.some.inj hy
        have hne : (c.getKey last).toNat ≠ key.toNat := fun hc => by
          have := hsame.mp hc
          omega
        rw [if_neg hne, if_pos rfl, heq, BitVec.ofNat_toNat, BitVec.setWidth_eq]
      · next hfirst =>
        have hne : (c.getKey y).toNat ≠ key.toNat := fun heq =>
          hfirst (h.place_unique hy hx ((BitVec.eq_of_toNat_eq heq).trans hkey.symm))
        have hne' : (c.getKey y).toNat ≠ (c.getKey last).toNat := fun heq => by
          have := h.place_unique hy hlast (BitVec.eq_of_toNat_eq heq)
          omega
        rw [if_neg hne, if_neg hne']
        exact h.here i y hy
    · exact hsize ▸ h.domain_lt
    · have hle := h.size_le
      dsimp only
      omega
  · intro k
    rw [SparseArray.entry, hslots]
    by_cases hk : k = key
    · rw [if_pos hk, if_pos (congrArg BitVec.toNat hk), Option.bind_some, hget]
      have hmax := h.max_size
      rw [Array.getElem?_eq_none_iff] at hmax
      exact if_neg (by omega)
    · have hkne : k.toNat ≠ key.toNat := fun heq => hk (BitVec.eq_of_toNat_eq heq)
      rw [if_neg hk, if_neg hkne]
      split
      · next heq =>
        have hentry := h.entry_of_get hlast
        rw [← BitVec.eq_of_toNat_eq heq] at hentry
        rw [hentry, Option.bind_some]
        exact hmoved (heq ▸ hkne)
      · next hne =>
        rw [SparseArray.entry]
        refine Option.bind_congr fun slot hslot => ?_
        rcases h.slot _ _ hslot with rfl | ⟨y, hy, hyk⟩
        · have hmax := h.max_size
          rw [h.max_size]
          rw [Array.getElem?_eq_none_iff] at hmax
          rw [hget, if_neg (by omega)]
        · rw [hy]
          exact hother hkne hne hslot hy hyk

end Good

/-! ## One call -/

/-- What a call has to give: it changes the entry of one key, or it is refused for a reason and
changes nothing. -/
structure Gives (c : Controller w M T V) (a : SparseArray w M) (key : BitVec w) (x : Option M)
    (refused : Prop) (res : Option (Bool × SparseArray w M)) : Prop where
  exists_eq : ∃ r a', res = some (r, a') ∧ Good c a' ∧ a'.capacity_ = a.capacity_ ∧
    a'.sparse_.size = a.sparse_.size ∧ (r = true ↔ ¬refused) ∧
    ∀ k, a'.entry k = if r = true ∧ k = key then x else a.entry k

section Calls

variable {c : Controller w M T V} {a : SparseArray w M} (h : Good c a)

include h

/-- A call that is refused. -/
theorem gives_refused {key : BitVec w} {x : Option M} {refused : Prop} (hrefused : refused) :
    Gives c a key x refused (some (false, a)) :=
  ⟨false, a, rfl, h, rfl, rfl, iff_of_false Bool.false_ne_true (not_not.mpr hrefused), fun k => by
    simp⟩

/-- An insert is refused when the array is full, or if the key is too large. -/
theorem insertAt_spec {key : BitVec w} {x : M} (hkey : c.getKey x = key) :
    Gives c a key (some x) (a.capacity_.toNat ≤ a.dense_.size ∨ a.sparse_.size ≤ key.toNat)
      (a.insertAt key x) := by
  unfold SparseArray.insertAt
  by_cases hfull : a.capacity ≤ a.size
  · rw [if_pos hfull]
    exact gives_refused h (.inl (h.capacity_le_iff.mp hfull))
  by_cases hlarge : a.domain ≤ key
  · rw [if_neg hfull, if_pos hlarge]
    exact gives_refused h (.inr ((h.domain_le_iff key).mp hlarge))
  have hroom : a.dense_.size < a.capacity_.toNat :=
    Nat.lt_of_not_le fun hle => hfull (h.capacity_le_iff.mpr hle)
  have hdomain : key.toNat < a.sparse_.size :=
    Nat.lt_of_not_le fun hle => hlarge ((h.domain_le_iff key).mpr hle)
  have hnot : ¬(a.capacity_.toNat ≤ a.dense_.size ∨ a.sparse_.size ≤ key.toNat) := by omega
  obtain ⟨index, hslot, hentry⟩ := exists_slot hdomain
  rw [if_neg hfull, if_neg hlarge, hslot, Option.bind_eq_bind, Option.bind_some]
  by_cases hused : index < a.size
  · have hlt := (h.lt_size_iff index).mp hused
    have hold := Array.getElem?_eq_getElem hlt
    have hkeys : c.getKey x = c.getKey a.dense_[index.toNat] := by
      rw [hkey, h.key_of_entry (hentry.trans hold)]
    obtain ⟨hgood, hview⟩ := h.set hold hkeys
    rw [if_pos hused, write_eq x hlt]
    refine ⟨true, _, rfl, hgood, rfl, rfl, iff_of_true rfl hnot, fun k => ?_⟩
    rw [hview k, hkey]
    simp
  · have hnone : a.entry key = none := by
      rw [hentry, Array.getElem?_eq_none_iff]
      exact Nat.le_of_not_lt fun hlt => hused ((h.lt_size_iff index).mpr hlt)
    obtain ⟨hgood, hview⟩ := h.push hdomain hroom hnone hkey
    rw [if_neg hused, write_eq a.size hdomain]
    refine ⟨true, _, rfl, hgood, rfl, Array.size_set hdomain, iff_of_true rfl hnot, fun k => ?_⟩
    rw [hview k]
    simp

/-- A removal is refused if there is no entry. -/
theorem remove_spec (key : BitVec w) :
    Gives c a key none (a.entry key = none) (a.remove c key) := by
  unfold SparseArray.remove
  rw [h.exists_eq]
  cases hentry : a.entry key with
  | none => exact gives_refused h rfl
  | some x =>
    obtain ⟨index, hindex, hx⟩ := Option.bind_eq_some_iff.mp hentry
    have hlt := lt_of_get hx
    obtain ⟨last, hlast⟩ : ∃ last, a.dense_[a.dense_.size - 1]? = some last :=
      ⟨_, Array.getElem?_eq_getElem (by omega)⟩
    have hdomain : key.toNat < a.sparse_.size := (Array.getElem?_eq_some_iff.mp hindex).1
    have hone : (a.size - 1#w).toNat = a.dense_.size - 1 := by
      have hsize := h.toNat_size
      have hsizelt := h.size_lt
      rw [BitVec.toNat_sub_of_le, hsize, BitVec.toNat_ofNat, Nat.mod_eq_of_lt]
      · omega
      · rw [BitVec.le_def, hsize, BitVec.toNat_ofNat]
        exact (Nat.mod_le _ _).trans (by omega)
    simp only [Option.isSome_some, not_true_eq_false, if_false, hindex, Option.bind_eq_bind,
      Option.bind_some, Option.pure_def]
    have hfinish {sparse : Array (BitVec w)} {dense : Array M}
        (hg : Good c { a with sparse_ := sparse, dense_ := dense } ∧
          ∀ k, SparseArray.entry { a with sparse_ := sparse, dense_ := dense } k =
            if k = key then none else a.entry k) (hsize : sparse.size = a.sparse_.size) :
        Gives c a key none (some x = none)
          (some (true, { a with sparse_ := sparse, dense_ := dense })) := by
      refine ⟨true, _, rfl, hg.1, rfl, hsize, iff_of_true rfl (Option.some_ne_none x), fun k => ?_⟩
      rw [hg.2 k]
      simp
    by_cases hmove : index = a.size - 1
    · have hplace : index.toNat = a.dense_.size - 1 := hmove ▸ hone
      have hkeys : c.getKey last = key := by
        rw [hplace, hlast] at hx
        rw [Option.some.inj hx]
        exact h.key_of_entry hentry
      rw [if_neg (not_not.mpr hmove), write_eq _ hdomain, Option.bind_some]
      refine hfinish (h.drop hindex hx hlast (Array.size_set _) Array.size_pop (fun k => ?_)
        fun i => ?_) (Array.size_set _)
      · rw [Array.getElem?_set, hkeys]
        by_cases hk : key.toNat = k
        · rw [if_pos hk, if_pos hk.symm]
        · rw [if_neg hk, if_neg (Ne.symm hk), if_neg (Ne.symm hk)]
      · rw [Array.getElem?_pop]
        split
        · rw [if_neg (by omega)]
        · rfl
    · have hlastlt : (c.getKey last).toNat < a.sparse_.size :=
        (Array.getElem?_eq_some_iff.mp (h.here _ last hlast)).1
      have hback : a.dense_.back? = some last := by rw [Array.back?_eq_getElem?, hlast]
      rw [if_pos hmove, SparseArray.moveLast, hback]
      simp only [Option.bind_eq_bind, Option.bind_some, Option.pure_def, write_eq _ hlt,
        write_eq _ hlastlt]
      rw [write_eq _ (by rw [Array.size_set]; exact hdomain), Option.bind_some]
      refine hfinish (h.drop hindex hx hlast ?_ ?_ (fun k => ?_) fun i => ?_) ?_
      · rw [Array.size_set, Array.size_set]
      · rw [Array.size_pop, Array.size_set]
      · rw [Array.getElem?_set, Array.getElem?_set]
        by_cases hk : key.toNat = k
        · rw [if_pos hk, if_pos hk.symm]
        · rw [if_neg hk, if_neg (Ne.symm hk)]
          by_cases hl : (c.getKey last).toNat = k
          · rw [if_pos hl, if_pos hl.symm]
          · rw [if_neg hl, if_neg (Ne.symm hl)]
      · rw [Array.getElem?_pop, Array.size_set, Array.getElem?_set]
        split
        · by_cases hi : index.toNat = i
          · rw [if_pos hi, if_pos hi.symm]
          · rw [if_neg hi, if_neg (Ne.symm hi)]
        · rfl
      · rw [Array.size_set, Array.size_set]

end Calls

/-! ## Arrays and maps -/

/-- An array has the entries of a map. -/
def Represents (a : SparseArray w M) (m : Finmap fun _ : BitVec w => M) : Prop :=
  ∀ key, m.lookup key = a.entry key

section Represents

variable {c : Controller w M T V} {a : SparseArray w M} (h : Good c a)
  {m : Finmap fun _ : BitVec w => M} (hm : Represents a m)

include h in
theorem nodup_tagged :
    (a.dense_.toList.map fun x => (⟨c.getKey x, x⟩ : Σ _ : BitVec w, M)).Nodup := by
  rw [List.nodup_iff_getElem?_ne_getElem?]
  intro i j hij hj heq
  rw [List.length_map, Array.length_toList] at hj
  simp only [List.getElem?_map, Array.getElem?_toList] at heq
  have hi := Array.getElem?_eq_getElem (hij.trans hj)
  have hj' := Array.getElem?_eq_getElem hj
  rw [hi, hj', Option.map_some, Option.map_some] at heq
  have hkeys := congrArg Sigma.fst (Option.some.inj heq)
  exact hij.ne (h.place_unique hi hj' hkeys)

include h hm

theorem mem_iff {key : BitVec w} {x : M} :
    m.lookup key = some x ↔ x ∈ a.dense_ ∧ c.getKey x = key := by
  rw [hm key]
  constructor
  · intro hx
    obtain ⟨index, -, hget⟩ := Option.bind_eq_some_iff.mp hx
    exact ⟨Array.mem_of_getElem? hget, h.key_of_entry hx⟩
  · intro hx
    obtain ⟨i, hget⟩ := Array.getElem?_of_mem hx.1
    rw [← hx.2]
    exact h.entry_of_get hget

/-- The entries that an iteration shows are those of the map. -/
theorem entries_eq : m.entries =
    ((a.dense_.toList.map fun x => (⟨c.getKey x, x⟩ : Σ _ : BitVec w, M)) : Multiset _) := by
  refine (Multiset.Nodup.ext m.nodup_entries (Multiset.coe_nodup.mpr (nodup_tagged h))).mpr ?_
  intro e
  obtain ⟨key, x⟩ := e
  rw [← Finmap.lookup_eq_some_iff, mem_iff h hm, Multiset.mem_coe, List.mem_map]
  constructor
  · intro hx
    obtain ⟨hx, rfl⟩ := hx
    exact ⟨x, Array.mem_toList_iff.mpr hx, rfl⟩
  · intro hx
    obtain ⟨y, hy, heq⟩ := hx
    obtain ⟨hkey, hxy⟩ := Sigma.mk.inj heq
    obtain rfl := eq_of_heq hxy
    exact ⟨Array.mem_toList_iff.mp hy, hkey⟩

theorem card_keys : m.keys.card = a.dense_.size := by
  have hcard : m.keys.card = Multiset.card m.entries := Multiset.card_map Sigma.fst m.entries
  rw [hcard, entries_eq h hm, Multiset.coe_card, List.length_map, Array.length_toList]

end Represents

/-- What can be seen of an array is what a map has. -/
structure Agrees (c : Controller w M T V) (a : SparseArray w M)
    (m : Finmap fun _ : BitVec w => M) : Prop where
  find : ∀ key, a.find c key = some ((m.lookup key).map c.getVal)
  exists_eq : ∀ key, a.exists_ key = some (decide (key ∈ m))
  size : a.size.toNat = m.keys.card
  iteration : m.entries =
    ((a.dense_.toList.map fun x => (⟨c.getKey x, x⟩ : Σ _ : BitVec w, M)) : Multiset _)

/-- The slots in use and the entries belong together. -/
def Linked (c : Controller w M T V) (a : SparseArray w M) : Prop :=
  ∀ key index : BitVec w, a.sparse_[key.toNat]? = some index ∧ index < a.size ↔
    ∃ x, a.dense_[index.toNat]? = some x ∧ c.getKey x = key

theorem Good.linked {c : Controller w M T V} {a : SparseArray w M} (h : Good c a) :
    Linked c a := by
  intro key index
  constructor
  · intro hused
    obtain ⟨hslot, hlt⟩ := hused
    have hx := Array.getElem?_eq_getElem ((h.lt_size_iff index).mp hlt)
    refine ⟨_, hx, h.key_of_entry ?_⟩
    rw [SparseArray.entry, hslot, Option.bind_some, hx]
  · intro hx
    obtain ⟨x, hx, rfl⟩ := hx
    refine ⟨?_, (h.lt_size_iff index).mpr (lt_of_get hx)⟩
    rw [h.here _ x hx, BitVec.ofNat_toNat, BitVec.setWidth_eq]

theorem Good.agrees {c : Controller w M T V} {a : SparseArray w M} (h : Good c a)
    {m : Finmap fun _ : BitVec w => M} (hm : Represents a m) : Agrees c a m where
  find key := by rw [h.find_eq, hm key]
  exists_eq key := by
    rw [h.exists_eq, ← hm key, Option.some_inj, Bool.eq_iff_iff, decide_eq_true_iff]
    exact Finmap.lookup_isSome
  size := by rw [h.toNat_size, card_keys h hm]
  iteration := entries_eq h hm

/-! ## Runs -/

/-- An insert over an entry finds the array not full. -/
def Spare (c : Controller w M T V) (a : SparseArray w M) : Op w M T → Prop
  | .insertKey key _ => a.exists_ key = some true → a.size < a.capacity
  | .insertCopy value => a.exists_ (c.getKey value) = some true → a.size < a.capacity
  | .insertMove value => a.exists_ (c.getKey value) = some true → a.size < a.capacity
  | .remove _ => True

/-- No call of a run inserts over an entry of a full array. -/
def AllSpare (c : Controller w M T V) : SparseArray w M → List (Op w M T) → Prop
  | _, [] => True
  | a, op :: ops => Spare c a op ∧ ∀ r a', step c a op = some (r, a') → AllSpare c a' ops

/-- A call beside the map. -/
structure Keeps (c : Controller w M T V) (b : Bounds) (a : SparseArray w M)
    (m : Finmap fun _ : BitVec w => M) (spare : Prop) (res : Option (Bool × SparseArray w M))
    (expected : Bool × Finmap fun _ : BitVec w => M) : Prop where
  exists_eq : ∃ r a', res = some (r, a') ∧ Good c a' ∧ a'.sparse_.size = b.domain ∧
    a'.capacity_.toNat = b.capacity ∧ (spare → ∃ m', expected = (r, m') ∧ Represents a' m') ∧
    (¬spare → r = false ∧ expected.1 = true)

section Keeps

variable {c : Controller w M T V} {b : Bounds} {a : SparseArray w M} (h : Good c a)
  {m : Finmap fun _ : BitVec w => M} (hm : Represents a m) (hdomain : a.sparse_.size = b.domain)
  (hcapacity : a.capacity_.toNat = b.capacity)

include h hm hdomain hcapacity

theorem keeps_insert {key : BitVec w} {x : M} (hkey : c.getKey x = key) :
    Keeps c b a m (a.exists_ key = some true → a.size < a.capacity) (a.insertAt key x)
      (b.insert m key x) := by
  obtain ⟨r, a', hres, hgood, hcap, hsize, hr, hview⟩ := (insertAt_spec h hkey).exists_eq
  have hin : a.exists_ key = some true ↔ key ∈ m := by
    rw [(h.agrees hm).exists_eq key, Option.some_inj, decide_eq_true_iff]
  have hspare : (a.exists_ key = some true → a.size < a.capacity) ↔
      (key ∈ m → a.dense_.size < a.capacity_.toNat) := by
    rw [hin, BitVec.lt_def, h.toNat_size, SparseArray.capacity]
  have hlarge : a.sparse_.size ≤ key.toNat → key ∉ m := by
    intro hle
    rw [← Finmap.lookup_eq_none, hm key, entry_of_le hle]
  refine ⟨r, a', hres, hgood, hsize.trans hdomain, ?_, fun hs => ?_, fun hs => ?_⟩
  · rw [hcap, hcapacity]
  · rw [hspare] at hs
    unfold Bounds.insert
    rw [← hdomain, ← hcapacity, card_keys h hm]
    cases r with
    | false =>
      have hrefused := not_not.mp fun hnot => Bool.false_ne_true (hr.mpr hnot)
      have hcase : a.sparse_.size ≤ key.toNat ∨ key ∉ m ∧ a.capacity_.toNat ≤ a.dense_.size := by
        rcases hrefused with hfull | hle
        · exact .inr ⟨fun hmem => absurd (hs hmem) (Nat.not_lt.mpr hfull), hfull⟩
        · exact .inl hle
      rw [if_pos hcase]
      refine ⟨m, rfl, fun k => ?_⟩
      rw [hm k, hview k]
      simp
    | true =>
      have hnot := hr.mp rfl
      have hcase : ¬(a.sparse_.size ≤ key.toNat ∨ key ∉ m ∧ a.capacity_.toNat ≤ a.dense_.size) :=
        fun hc => hnot (hc.elim .inr fun hc => .inl hc.2)
      rw [if_neg hcase]
      refine ⟨m.insert key x, rfl, fun k => ?_⟩
      rw [hview k]
      by_cases hk : k = key
      · subst hk
        rw [if_pos ⟨rfl, rfl⟩, Finmap.lookup_insert]
      · rw [if_neg fun hc => hk hc.2, Finmap.lookup_insert_of_ne m hk, hm k]
  · rw [hspare, Classical.not_imp] at hs
    obtain ⟨hmem, hfull⟩ := hs
    have hle := Nat.le_of_not_lt hfull
    constructor
    · refine Bool.eq_false_of_not_eq_true fun htrue => ?_
      exact (hr.mp htrue) (.inl hle)
    · unfold Bounds.insert
      rw [if_neg]
      rintro (hbound | hnone)
      · rw [← hdomain] at hbound
        exact hlarge hbound hmem
      · exact hnone.1 hmem

theorem keeps_remove (key : BitVec w) :
    Keeps c b a m True (a.remove c key) (Bounds.remove m key) := by
  obtain ⟨r, a', hres, hgood, hcap, hsize, hr, hview⟩ := (remove_spec h key).exists_eq
  have hnone : a.entry key = none ↔ key ∉ m := by rw [← hm key, Finmap.lookup_eq_none]
  refine ⟨r, a', hres, hgood, hsize.trans hdomain, ?_, fun _ => ?_, fun hs => absurd trivial hs⟩
  · rw [hcap, hcapacity]
  · unfold Bounds.remove
    rw [hnone, not_not] at hr
    cases r with
    | false =>
      rw [if_neg fun hmem => Bool.false_ne_true (hr.mpr hmem)]
      refine ⟨m, rfl, fun k => ?_⟩
      rw [hm k, hview k]
      simp
    | true =>
      rw [if_pos (hr.mp rfl)]
      refine ⟨m.erase key, rfl, fun k => ?_⟩
      rw [hview k]
      by_cases hk : k = key
      · subst hk
        rw [if_pos ⟨rfl, rfl⟩, Finmap.lookup_erase]
      · rw [if_neg fun hc => hk hc.2, Finmap.lookup_erase_ne hk, hm k]

theorem keeps_step (op : Op w M T) : Keeps c b a m (Spare c a op) (step c a op) (b.step m c op) := by
  cases op with
  | insertKey key ts => exact keeps_insert h hm hdomain hcapacity (c.getKey_make key ts)
  | insertCopy value => exact keeps_insert h hm hdomain hcapacity rfl
  | insertMove value => exact keeps_insert h hm hdomain hcapacity rfl
  | remove key => exact keeps_remove h hm hdomain hcapacity key

end Keeps

/-- No call reads or writes a place that is not there. -/
theorem step_total {c : Controller w M T V} {a : SparseArray w M} (h : Good c a) (op : Op w M T) :
    ∃ r a', step c a op = some (r, a') ∧ Good c a' := by
  cases op with
  | insertKey key ts =>
    obtain ⟨r, a', hres, hgood, -⟩ := (insertAt_spec h (c.getKey_make key ts)).exists_eq
    exact ⟨r, a', hres, hgood⟩
  | insertCopy value =>
    obtain ⟨r, a', hres, hgood, -⟩ := (insertAt_spec h (x := value) rfl).exists_eq
    exact ⟨r, a', hres, hgood⟩
  | insertMove value =>
    obtain ⟨r, a', hres, hgood, -⟩ := (insertAt_spec h (x := value) rfl).exists_eq
    exact ⟨r, a', hres, hgood⟩
  | remove key =>
    obtain ⟨r, a', hres, hgood, -⟩ := (remove_spec h key).exists_eq
    exact ⟨r, a', hres, hgood⟩

theorem run_total {c : Controller w M T V} {a : SparseArray w M} (h : Good c a)
    (ops : List (Op w M T)) : ∃ rs a', run c a ops = some (rs, a') ∧ Good c a' := by
  induction ops generalizing a with
  | nil => exact ⟨[], a, rfl, h⟩
  | cons op ops ih =>
    obtain ⟨r, a1, hstep, h1⟩ := step_total h op
    obtain ⟨rs, a', hrun, h'⟩ := ih h1
    refine ⟨r :: rs, a', ?_, h'⟩
    simp only [run, hstep, hrun, Option.bind_eq_bind, Option.bind_some, Option.pure_def]

/-- A run beside the map. -/
theorem run_iff {c : Controller w M T V} {b : Bounds} {a : SparseArray w M} (h : Good c a)
    {m : Finmap fun _ : BitVec w => M} (hm : Represents a m) (hdomain : a.sparse_.size = b.domain)
    (hcapacity : a.capacity_.toNat = b.capacity) {ops : List (Op w M T)} {rs : List Bool}
    {a' : SparseArray w M} (hrun : run c a ops = some (rs, a')) :
    ((b.run c m ops).1 = rs ∧ Agrees c a' (b.run c m ops).2) ↔ AllSpare c a ops := by
  induction ops generalizing a m rs with
  | nil =>
    obtain ⟨rfl, rfl⟩ := Prod.mk.inj (Option.some.inj hrun)
    exact iff_of_true ⟨rfl, h.agrees hm⟩ trivial
  | cons op ops ih =>
    obtain ⟨r, a1, hstep, h1, hdomain1, hcapacity1, hspare, hfull⟩ :=
      (keeps_step h hm hdomain hcapacity op).exists_eq
    obtain ⟨rs', a2, hrest, -⟩ := run_total h1 ops
    have hboth : run c a (op :: ops) = some (r :: rs', a2) := by
      simp only [run, hstep, hrest, Option.bind_eq_bind, Option.bind_some, Option.pure_def]
    obtain ⟨rfl, rfl⟩ := Prod.mk.inj (Option.some.inj (hboth.symm.trans hrun))
    have hlater : AllSpare c a (op :: ops) ↔ Spare c a op ∧ AllSpare c a1 ops := by
      constructor
      · intro hall
        exact ⟨hall.1, hall.2 r a1 hstep⟩
      · intro hall
        refine ⟨hall.1, fun r' a'' heq => ?_⟩
        obtain ⟨-, rfl⟩ := Prod.mk.inj (Option.some.inj (hstep.symm.trans heq))
        exact hall.2
    rw [hlater]
    by_cases hs : Spare c a op
    · obtain ⟨m', hexpected, hm'⟩ := hspare hs
      have hspec : b.run c m (op :: ops) = (r :: (b.run c m' ops).1, (b.run c m' ops).2) := by
        rw [Bounds.run, hexpected]
      rw [hspec, List.cons.injEq, ← ih h1 hm' hdomain1 hcapacity1 hrest]
      simp only [true_and, hs]
    · obtain ⟨hfalse, htrue⟩ := hfull hs
      have hspec : (b.run c m (op :: ops)).1 = true :: (b.run c (b.step m c op).2 ops).1 := by
        rw [← htrue]
        rfl
      rw [hspec, hfalse]
      refine iff_of_false (fun hc => ?_) fun hc => hs hc.1
      exact Bool.false_ne_true (List.cons.inj hc.1).1.symm

/-- For every kind of entries, domain, capacity and calls: no place is read or written that is not
there, the slots in use and the entries belong together, and all answers and all that can be seen
are those of a finite map with a capacity if and only if no call inserts over an entry while the
array is full. -/
theorem run_agrees_iff (c : Controller w M T V) (size capacity : BitVec w)
    (ops : List (Op w M T)) :
    ∃ rs a, run c (SparseArray.create M size capacity) ops = some (rs, a) ∧ Linked c a ∧
      let b : Bounds := ⟨size.toNat, (if capacity ≠ 0#w then capacity else size).toNat⟩
      ((b.run c ∅ ops).1 = rs ∧ Agrees c a (b.run c ∅ ops).2 ↔
        AllSpare c (SparseArray.create M size capacity) ops) := by
  have hgood := good_create c size capacity
  obtain ⟨rs, a, hrun, h⟩ := run_total hgood ops
  have hempty : Represents (SparseArray.create M size capacity) ∅ := fun key => by
    rw [Finmap.lookup_empty, entry_create]
  have hdomain : (SparseArray.create M size capacity).sparse_.size = size.toNat :=
    Array.size_replicate
  exact ⟨rs, a, hrun, h.linked,
    run_iff (b := ⟨size.toNat, (if capacity ≠ 0#w then capacity else size).toNat⟩) hgood hempty
      hdomain rfl hrun⟩

/-- A value over the one entry of an array with room for one is refused. -/
theorem update_refused : ¬∀ ops : List (Op 8 (BitVec 8 × ℕ) ℕ),
    ∃ rs a, run (easyMap 8 ℕ) (SparseArray.create _ 4#8 1#8) ops = some (rs, a) ∧
      (Bounds.run ⟨4, 1⟩ (easyMap 8 ℕ) ∅ ops).1 = rs := by
  intro hall
  obtain ⟨rs, a, hrun, hsame⟩ := hall [.insertKey 2#8 10, .insertKey 2#8 20]
  have hrefused : (run (easyMap 8 ℕ) (SparseArray.create _ 4#8 1#8)
      [.insertKey 2#8 10, .insertKey 2#8 20]).map Prod.fst = some [true, false] := by decide +kernel
  have hstored : (Bounds.run ⟨4, 1⟩ (easyMap 8 ℕ) ∅
      [.insertKey 2#8 10, .insertKey 2#8 20]).1 = [true, true] := by decide +kernel
  rw [hrun, Option.map_some, ← hsame, hstored] at hrefused
  exact absurd hrefused (by decide)

end HM4.SparseMap
