import HM4.Bytes
import HM4.General.JoinSketch

/-!
# HyperLogLog and MinHash

Both sketches are tables of registers. Some bits of the hash of an item choose a register, and
other bits give a number that the register takes if it is larger than its own. A merge takes the
larger number of each register.
-/

namespace HM4.RegisterSketches

open Bytes JoinSketch

/-! ## HyperLogLog -/

/-- `HyperLogLogRaw`. -/
structure HyperLogLogRaw where
  bits : ℕ
  lt_bits : 4 < bits
  bits_lt : bits < 30

/-- `getLeadingBits`. -/
def getLeadingBits (hash : UInt64) (bits : ℕ) : ℕ := (hash.toNat >>> (64 - bits)) % 2 ^ 32

/-- `__builtin_clzll` of a number that is not zero. -/
def clzll (x : ℕ) : ℕ := 63 - Nat.log2 x

/-- `countLeadingZeros`. -/
def countLeadingZeros (hash : UInt64) (bits : ℕ) : ℕ :=
  let mask := (1 <<< bits) - 1
  let x := (hash.toNat <<< bits) % 2 ^ 64 ||| mask
  clzll x % 256

theorem getLeadingBits_lt (hash : UInt64) {bits : ℕ} (h : bits < 30) :
    getLeadingBits hash bits < 2 ^ bits := by
  have hlt : hash.toNat < 2 ^ bits * 2 ^ (64 - bits) := by
    rw [← Nat.pow_add, Nat.add_sub_cancel' (by omega)]
    exact hash.toNat_lt
  unfold getLeadingBits
  rw [Nat.shiftRight_eq_div_pow]
  exact (Nat.mod_le _ _).trans_lt ((Nat.div_lt_iff_lt_mul (Nat.two_pow_pos _)).mpr hlt)

theorem countLeadingZeros_add_lt (hash : UInt64) (bits : ℕ) :
    (countLeadingZeros hash bits + 1) % 256 < 256 := Nat.mod_lt _ (Nat.two_pow_pos 8)

namespace HyperLogLogRaw

variable (hll : HyperLogLogRaw)

/-- `m`. -/
def m : ℕ := 1 <<< hll.bits

/-- The registers `M`. -/
abbrev Registers := Vector Byte hll.m

/-- `clear`. -/
def clear : hll.Registers := Vector.replicate hll.m 0

theorem index_lt (hash : UInt64) : getLeadingBits hash hll.bits < hll.m := by
  rw [m, Nat.one_shiftLeft]
  exact getLeadingBits_lt hash hll.bits_lt

/-- `calcAdd`: the index and the rank of a hash. -/
def calcAdd (hash : UInt64) : Fin hll.m × Byte :=
  (⟨getLeadingBits hash hll.bits, hll.index_lt hash⟩,
    ⟨(countLeadingZeros hash hll.bits + 1) % 256, countLeadingZeros_add_lt hash hll.bits⟩)

/-- `add`: whether a register was changed, and the registers. -/
def add (murmur_hash64a : Key → UInt64) (M : hll.Registers) (s : Key) : Bool × hll.Registers :=
  let (index, rank) := hll.calcAdd (murmur_hash64a s)
  if M[index] ≥ rank then (false, M) else (true, M.set index rank index.isLt)

/-- `merge`. -/
def merge (M OM : hll.Registers) : hll.Registers := forEach (fun i x => max x OM[i]) M

/-- The sketch of a sequence of items. -/
def sketch (murmur_hash64a : Key → UInt64) (items : List Key) : hll.Registers :=
  items.foldl (fun M s => (hll.add murmur_hash64a M s).2) hll.clear

/-- The registers of a union before their number is estimated: `load` of the first and `merge` of
the others. -/
def union (first : hll.Registers) (rest : List hll.Registers) : hll.Registers :=
  rest.foldl hll.merge first

/-- The registers as a function. -/
def view (M : hll.Registers) : Fin hll.m → Byte := fun i => M[i]

theorem view_injective : Function.Injective hll.view := by
  intro M M' h
  ext i hi
  exact congrArg Fin.val (congrFun h ⟨i, hi⟩)

theorem view_merge (M OM : hll.Registers) :
    hll.view (hll.merge M OM) = hll.view M ⊔ hll.view OM := by
  funext i
  exact forEach_getElem _ M i

/-- What an item stands for. -/
def single (murmur_hash64a : Key → UInt64) (s : Key) : Fin hll.m → Byte :=
  Function.update ⊥ (hll.calcAdd (murmur_hash64a s)).1 (hll.calcAdd (murmur_hash64a s)).2

theorem view_add (murmur_hash64a : Key → UInt64) (M : hll.Registers) (s : Key) :
    hll.view (hll.add murmur_hash64a M s).2 = hll.view M ⊔ hll.single murmur_hash64a s := by
  unfold add single
  generalize hll.calcAdd (murmur_hash64a s) = r
  obtain ⟨index, rank⟩ := r
  dsimp only
  by_cases h : M[index] ≥ rank
  · have hle : rank ≤ hll.view M index := h
    rw [if_pos h, sup_update_bot_of_le hle]
  · have hle : hll.view M index ≤ rank := (not_le.mp h).le
    rw [if_neg h, sup_update_bot_of_ge hle]
    funext j
    by_cases hj : j = index
    · subst hj
      simp [view]
    · have hne : index.val ≠ j.val := fun h => hj (Fin.ext h.symm)
      simp [view, hj, hne]

theorem view_clear : hll.view hll.clear = ⊥ := by
  funext i
  simp only [view, clear, Fin.getElem_fin, Vector.getElem_replicate]
  rfl

theorem view_sketch (murmur_hash64a : Key → UInt64) (items : List Key) :
    hll.view (hll.sketch murmur_hash64a items) = joinAll (hll.single murmur_hash64a) items :=
  view_foldl _ (hll.view_add murmur_hash64a) hll.view_clear items

end HyperLogLogRaw

/-! ## MinHash -/

theorem byteswap_lt (n x : ℕ) : byteswap n x < 256 ^ n := by
  have hlen : (leBytes n x).length = n := leBytes_length n x
  have h := beValue_lt (leBytes n x)
  rwa [← leValue_reverse, hlen] at h

theorem byteswap_byteswap {n x : ℕ} (h : x < 256 ^ n) : byteswap n (byteswap n x) = x := by
  have hlen : (leBytes n x).reverse.length = n := by
    rw [List.length_reverse, leBytes_length]
  unfold byteswap
  rw [leBytes_leValue hlen, List.reverse_reverse, leValue_leBytes h]

/-- `MinHash<Bits, MHT>`. -/
structure MinHash where
  Bits : ℕ
  bits_le : Bits ≤ 16
  /-- `sizeof(MHT)`. -/
  sizeofT : ℕ
  sizeofT_mem : sizeofT = 1 ∨ sizeofT = 2 ∨ sizeofT = 4

namespace MinHash

variable (mh : MinHash)

/-- `Size`. -/
def Size : ℕ := 1 <<< mh.Bits

instance : NeZero (256 ^ mh.sizeofT) := ⟨(Nat.pow_pos (Nat.two_pow_pos 8)).ne'⟩

/-- `MHT`. -/
def MHT := Fin (256 ^ mh.sizeofT)

instance : LinearOrder mh.MHT := Fin.instLinearOrder

instance : BoundedOrder mh.MHT := Fin.instBoundedOrder

/-- The table, with the high octet of each register first. -/
abbrev Table := Vector mh.MHT mh.Size

/-- `betoh` and `htobe` of a register. -/
def swap (x : mh.MHT) : mh.MHT := ⟨byteswap mh.sizeofT x.val, byteswap_lt mh.sizeofT x.val⟩

/-- `clear`. -/
def clear : mh.Table := Vector.replicate mh.Size ⊥

theorem id_lt (mix : ℕ) : mix &&& mh.Size - 1 < mh.Size := by
  have hpos : 0 < mh.Size := by
    rw [Size, Nat.one_shiftLeft]
    exact Nat.two_pow_pos mh.Bits
  have hle : mix &&& mh.Size - 1 ≤ mh.Size - 1 := Nat.and_le_right
  omega

/-- The place and the number of a hash. -/
def calcAdd (hash : UInt64) : Fin mh.Size × mh.MHT :=
  let mix := hash.toNat % 2 ^ 16
  (⟨mix &&& mh.Size - 1, mh.id_lt mix⟩, Fin.ofNat _ (hash.toNat >>> 32))

/-- `add`: whether a register was changed, and the table. -/
def add (murmur_hash64a : Key → UInt64) (table : mh.Table) (s : Key) : Bool × mh.Table :=
  let (id, val) := mh.calcAdd (murmur_hash64a s)
  if mh.swap table[id] ≥ val then (false, table) else (true, table.set id (mh.swap val) id.isLt)

/-- `merge`. -/
def merge (result table : mh.Table) : mh.Table :=
  forEach (fun i x => if mh.swap x < mh.swap table[i] then table[i] else x) result

/-- The sketch of a sequence of items. -/
def sketch (murmur_hash64a : Key → UInt64) (items : List Key) : mh.Table :=
  items.foldl (fun table s => (mh.add murmur_hash64a table s).2) mh.clear

/-- The numbers of the registers. -/
def view (table : mh.Table) : Fin mh.Size → mh.MHT := fun i => mh.swap table[i]

theorem swap_swap (x : mh.MHT) : mh.swap (mh.swap x) = x := Fin.ext (byteswap_byteswap x.isLt)

theorem swap_bot : mh.swap ⊥ = ⊥ := by
  have hbytes : ∀ n, leBytes n 0 = List.replicate n 0 := fun n => by
    induction n with
    | zero => rfl
    | succ n ih => rw [leBytes, List.replicate_succ, Nat.zero_div, ih]; rfl
  have hvalue : ∀ n, leValue (List.replicate n 0) = 0 := fun n => by
    induction n with
    | zero => rfl
    | succ n ih => simp [List.replicate_succ, leValue, ih]
  refine Fin.ext ?_
  show byteswap mh.sizeofT 0 = 0
  rw [byteswap, hbytes, List.reverse_replicate, hvalue]

theorem view_injective : Function.Injective mh.view := by
  intro T T' h
  have hget : ∀ i : Fin mh.Size, T[i] = T'[i] := fun i => by
    have hi := congrArg mh.swap (congrFun h i)
    rwa [view, view, swap_swap, swap_swap] at hi
  ext i hi
  exact hget ⟨i, hi⟩

theorem view_merge (T T' : mh.Table) : mh.view (mh.merge T T') = mh.view T ⊔ mh.view T' := by
  funext i
  have hget : (mh.merge T T')[i] = if mh.swap T[i] < mh.swap T'[i] then T'[i] else T[i] :=
    forEach_getElem _ T i
  simp only [view, Pi.sup_apply, hget]
  split
  · next h => exact (sup_eq_right.mpr h.le).symm
  · next h => exact (sup_eq_left.mpr (not_lt.mp h)).symm

/-- What an item stands for. -/
def single (murmur_hash64a : Key → UInt64) (s : Key) : Fin mh.Size → mh.MHT :=
  Function.update ⊥ (mh.calcAdd (murmur_hash64a s)).1 (mh.calcAdd (murmur_hash64a s)).2

theorem view_add (murmur_hash64a : Key → UInt64) (T : mh.Table) (s : Key) :
    mh.view (mh.add murmur_hash64a T s).2 = mh.view T ⊔ mh.single murmur_hash64a s := by
  unfold add single
  generalize mh.calcAdd (murmur_hash64a s) = r
  obtain ⟨id, val⟩ := r
  dsimp only
  by_cases h : mh.swap T[id] ≥ val
  · have hle : val ≤ mh.view T id := h
    rw [if_pos h, sup_update_bot_of_le hle]
  · have hle : mh.view T id ≤ val := (not_le.mp h).le
    rw [if_neg h, sup_update_bot_of_ge hle]
    funext j
    by_cases hj : j = id
    · subst hj
      simp [view, swap_swap]
    · have hne : id.val ≠ j.val := fun h => hj (Fin.ext h.symm)
      simp [view, hj, hne]

theorem view_clear : mh.view mh.clear = ⊥ := by
  funext i
  simp only [view, clear, Fin.getElem_fin, Vector.getElem_replicate, swap_bot]
  rfl

theorem view_sketch (murmur_hash64a : Key → UInt64) (items : List Key) :
    mh.view (mh.sketch murmur_hash64a items) = joinAll (mh.single murmur_hash64a) items :=
  view_foldl _ (mh.view_add murmur_hash64a) mh.view_clear items

end MinHash

/-- Whatever the hash and the size of the table: the sketch of two sequences is the merge of their
sketches, merges are associative, commutative and idempotent on all contents of the registers, and
sequences with the same items have the same sketch. -/
theorem sketches_mergeable (murmur_hash64a : Key → UInt64) :
    (∀ hll : HyperLogLogRaw, Mergeable (hll.sketch murmur_hash64a) hll.merge) ∧
      ∀ mh : MinHash, Mergeable (mh.sketch murmur_hash64a) mh.merge :=
  ⟨fun hll => .of_view _ hll.view_injective (hll.view_sketch murmur_hash64a) hll.view_merge,
    fun mh => .of_view _ mh.view_injective (mh.view_sketch murmur_hash64a) mh.view_merge⟩

end HM4.RegisterSketches
