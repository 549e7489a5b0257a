import HM4.Sketch
import Mathlib.Data.List.Nodup

/-!
# Runs of additions to a sketch

As long as no increment is cast to a smaller number, a table covers what was added to each item
and the reported count is never too small. An item whose places in a counting Bloom filter
coincide is counted more than once, and the count on the way may be less than the one in the end.
-/

namespace HM4.SketchRuns

open LexPrefix Bytes Pairs PairFactory MemList KeyedList Database VFactory CountSketch Sketch

/-! ## Counters of a value -/

/-- The largest number of a counter. -/
def maxCount (sizeofT : ℕ) : ℕ := 2 ^ (8 * sizeofT) - 1

/-- All counters of a value, with zeros behind it. -/
def counters (sizeofT : ℕ) (data : Key) (k : ℕ) : ℕ := (getCell sizeofT data k).getD 0

theorem pow_bytes (n : ℕ) : 256 ^ n = 2 ^ (8 * n) := by
  rw [Nat.pow_mul]

section Cells

variable {n : ℕ} {data : Key}

theorem getCell_of_le {k : ℕ} (h : k * n + n ≤ data.length) :
    getCell n data k = some (counters n data k) := by
  unfold counters getCell
  rw [if_pos h]
  rfl

theorem counters_le (n : ℕ) (data : Key) (k : ℕ) : counters n data k ≤ maxCount n := by
  unfold counters getCell
  split
  · next h =>
    have hlen : ((data.drop (k * n)).take n).length = n := by
      rw [List.length_take, List.length_drop]
      omega
    have hlt := beValue_lt ((data.drop (k * n)).take n)
    rw [hlen, pow_bytes] at hlt
    rw [Option.getD_some, loadBE, betoh_leValue hlen, maxCount]
    omega
  · exact Nat.zero_le _

theorem getElem?_writeAt {s t : Key} {pos : ℕ} (h : pos + t.length ≤ s.length) (i : ℕ) :
    (writeAt s pos t)[i]? =
      if pos ≤ i ∧ i < pos + t.length then t[i - pos]? else s[i]? := by
  have htake : (s.take pos).length = pos := List.length_take_of_le (by omega)
  unfold writeAt
  rw [List.append_assoc]
  by_cases hlo : i < pos
  · rw [if_neg (by omega), List.getElem?_append_left (by omega), List.getElem?_take_of_lt hlo]
  rw [List.getElem?_append_right (by omega), htake]
  by_cases hhi : i < pos + t.length
  · rw [if_pos ⟨Nat.not_lt.mp hlo, hhi⟩, List.getElem?_append_left (by omega)]
  · rw [if_neg fun h => hhi h.2, List.getElem?_append_right (by omega), List.getElem?_drop]
    congr 1
    omega

/-- A counter that is written is read back, and no other one changes. -/
theorem counters_setCell {k v : ℕ} (h : k * n + n ≤ data.length) (hv : v ≤ maxCount n) (j : ℕ) :
    counters n (setCell n data k v) j = if j = k then v else counters n data j := by
  have hpos := Nat.two_pow_pos (8 * n)
  have hv' : v < 256 ^ n := by
    rw [pow_bytes]
    rw [maxCount] at hv
    omega
  have hfit : k * n + (storeBE n v).length ≤ data.length := by
    rw [storeBE_length]
    exact h
  unfold counters getCell
  rw [length_setCell h]
  by_cases hjk : j = k
  · subst hjk
    have hslice : ((setCell n data j v).drop (j * n)).take n = storeBE n v := by
      refine List.ext_getElem? fun i => ?_
      by_cases hi : i < n
      · rw [List.getElem?_take_of_lt hi, List.getElem?_drop, setCell, getElem?_writeAt hfit,
          storeBE_length, if_pos (by omega), Nat.add_sub_cancel_left]
      · rw [List.getElem?_eq_none (by rw [List.length_take]; omega),
          List.getElem?_eq_none (by rw [storeBE_length]; omega)]
    rw [if_pos h, if_pos rfl, hslice, loadBE_storeBE hv', Option.getD_some]
  · rw [if_neg hjk]
    by_cases hj : j * n + n ≤ data.length
    · have hslice : ((setCell n data k v).drop (j * n)).take n = (data.drop (j * n)).take n := by
        refine List.ext_getElem? fun i => ?_
        by_cases hi : i < n
        · -- Counters of different places have no octet in common.
          have hout : ¬(k * n ≤ j * n + i ∧ j * n + i < k * n + n) := by
            rintro ⟨h1, h2⟩
            have hlo : k < j + 1 := Nat.lt_of_mul_lt_mul_right (a := n) (by
              rw [Nat.succ_mul]
              omega)
            have hhi : j < k + 1 := Nat.lt_of_mul_lt_mul_right (a := n) (by
              rw [Nat.succ_mul]
              omega)
            omega
          rw [List.getElem?_take_of_lt hi, List.getElem?_take_of_lt hi, List.getElem?_drop,
            List.getElem?_drop, setCell, getElem?_writeAt hfit, storeBE_length, if_neg hout]
        · rw [List.getElem?_eq_none (by rw [List.length_take]; omega),
            List.getElem?_eq_none (by rw [List.length_take]; omega)]
      rw [if_pos hj, if_pos hj, hslice]
    · rw [if_neg hj, if_neg hj]

/-- An increment that is not cast to a smaller number stops at the largest one. -/
theorem incr_eq {a x : ℕ} (ha : a ≤ maxCount n) (hx : x ≤ maxCount n) :
    incr (8 * n) a x = bump (maxCount n) x a := by
  have hpos := Nat.two_pow_pos (8 * n)
  unfold maxCount at *
  have hmod : x % 2 ^ (8 * n) = x := Nat.mod_eq_of_lt (by omega)
  unfold incr safeIncr bump
  rw [hmod]
  split <;> omega

theorem counters_incrCell {k x : ℕ} (h : k * n + n ≤ data.length) (hx : x ≤ maxCount n) :
    counters n (incrCell n data k x) =
      Function.update (counters n data) k (bump (maxCount n) x (counters n data k)) := by
  funext j
  have hle := counters_le n data k
  unfold incrCell
  rw [getCell_of_le h]
  dsimp only
  rw [incr_eq hle hx, counters_setCell h (bump_le x _), Function.update_apply]

/-- A table that was filled with zeros. -/
theorem counters_replicate (n m k : ℕ) : counters n (List.replicate m FILL) k = 0 := by
  have hzero : ∀ j : ℕ, beValue (List.replicate j FILL) = 0 := fun j => by
    induction j with
    | zero => rfl
    | succ j ih =>
      rw [List.replicate_succ, beValue, ih]
      exact Nat.zero_mul _
  unfold counters getCell
  split
  · next h =>
    rw [List.length_replicate] at h
    rw [Option.getD_some, List.drop_replicate, List.take_replicate,
      Nat.min_eq_left (by omega), loadBE, betoh_leValue List.length_replicate, hzero]
  · rfl

end Cells

/-! ## Operations on a table -/

/-- A table is large enough for all its places. -/
def Fits (s : Table) : Prop := ∀ h, ∀ i < s.rows, s.place h i * s.sizeofT + s.sizeofT ≤ s.bytes

theorem places_ne_nil {s : Table} (hrows : 0 < s.rows) (hash : Hash) (item : Key) :
    places s hash item ≠ [] := by
  refine List.ne_nil_of_length_pos ?_
  rw [places, List.length_map, List.length_range]
  exact hrows

section Table

variable {s : Table} (hfits : Fits s) {hash : Hash} {data : Key} (hlen : data.length = s.bytes)

include hfits hlen

theorem place_le (item : Key) {k : ℕ} (hk : k ∈ places s hash item) :
    k * s.sizeofT + s.sizeofT ≤ data.length := by
  obtain ⟨i, hi, rfl⟩ := List.mem_map.mp hk
  rw [hlen]
  exact hfits _ i (List.mem_range.mp hi)

/-- `add` adds at the places of the item. -/
theorem counters_addItem (item : Key) {x : ℕ} (hx : x ≤ maxCount s.sizeofT) :
    counters s.sizeofT (addItem s hash data item x) =
      CountSketch.add (maxCount s.sizeofT) x (places s hash item) (counters s.sizeofT data) := by
  have hplaces : ∀ k ∈ places s hash item, k * s.sizeofT + s.sizeofT ≤ data.length :=
    fun k hk => place_le hfits hlen item hk
  unfold addItem CountSketch.add
  clear hlen
  generalize places s hash item = ks at hplaces ⊢
  induction ks generalizing data with
  | nil => rfl
  | cons k ks ih =>
    obtain ⟨hk, hks⟩ := List.forall_mem_cons.mp hplaces
    rw [List.foldl_cons, List.foldl_cons, ih, counters_incrCell hk hx]
    intro j hj
    rw [length_incrCell]
    exact hks j hj

/-- `count` gives the least counter. -/
theorem count_eq (item : Key) :
    count s hash data item =
      some (least (counters s.sizeofT data) (places s hash item) (2 ^ 64 - 1)) := by
  have hplaces : ∀ k ∈ places s hash item, k * s.sizeofT + s.sizeofT ≤ data.length :=
    fun k hk => place_le hfits hlen item hk
  unfold count least
  generalize 2 ^ 64 - 1 = m
  generalize places s hash item = ks at hplaces ⊢
  induction ks generalizing m with
  | nil => rfl
  | cons k ks ih =>
    obtain ⟨hk, hks⟩ := List.forall_mem_cons.mp hplaces
    rw [List.foldl_cons, List.foldl_cons, getCell_of_le hk, Option.bind_some, Option.map_some]
    exact ih _ hks

/-- `add_count` gives the least number met on the way. -/
theorem addCount_fst (item : Key) {x : ℕ} (hx : x ≤ maxCount s.sizeofT) :
    (addCount s hash data item x).1 =
      some (leastAdded (maxCount s.sizeofT) x (places s hash item) (counters s.sizeofT data)
        (2 ^ 64 - 1)) := by
  have hplaces : ∀ k ∈ places s hash item, k * s.sizeofT + s.sizeofT ≤ data.length :=
    fun k hk => place_le hfits hlen item hk
  unfold addCount
  generalize 2 ^ 64 - 1 = m
  clear hlen
  generalize places s hash item = ks at hplaces ⊢
  induction ks generalizing data m with
  | nil => rfl
  | cons k ks ih =>
    obtain ⟨hk, hks⟩ := List.forall_mem_cons.mp hplaces
    have hk' : k * s.sizeofT + s.sizeofT ≤ (incrCell s.sizeofT data k x).length := by
      rw [length_incrCell]
      exact hk
    rw [List.foldl_cons, leastAdded]
    dsimp only
    rw [getCell_of_le hk', Option.bind_some, Option.map_some, ih, counters_incrCell hk hx,
      Function.update_self]
    intro j hj
    rw [length_incrCell]
    exact hks j hj

end Table

/-! ## Shapes -/

/-- The size of a table as a number, which is not that of its value if it has more than 64
bits. -/
def size : Kind → ℕ → ℕ → ℕ → ℕ
  | .cms, w, d, sizeofT => w * d * sizeofT
  | .cbf, w, _, sizeofT => w * sizeofT

/-- The table of some parameters, if the commands accept them. -/
def shape (kind : Kind) (key w d t : Key) : Option Table :=
  if ¬isKeyValid key ∨ fromString 64 w 0 = 0 ∨ fromString 64 d 0 = 0 then none
  else
    ((typeDispatch (fromString 8 t 0)).map
      (kind.table (fromString 64 w 0) (fromString 64 d 0))).filter fun s => s.bytes ≤ maxValSize

/-- The size of the table of some parameters, as a number. -/
def shapeSize (kind : Kind) (w d t : Key) : ℕ :=
  size kind (fromString 64 w 0) (fromString 64 d 0) (fromString 8 t 0 / 8)

theorem typeDispatch_eq_some {t n : ℕ} (h : typeDispatch t = some n) :
    0 < n ∧ n ≤ 8 ∧ n = t / 8 := by
  unfold typeDispatch at h
  split_ifs at h with h1 h2 h3 h4
  all_goals
    cases h
    omega

section Tables

variable {w d n : ℕ} (hw : 0 < w) (hn : 0 < n)

include hw hn

/-- The place of a hash in a row of a count-min sketch. -/
theorem place_CMS (hsize : w * d * n < 2 ^ 64) (h : UInt64) {i : ℕ} (hi : i < d) :
    (CMS w d n).place h i = h.toNat % w + i * w ∧ h.toNat % w + i * w < w * d := by
  have hlt := Nat.mod_lt h.toNat hw
  have hmul : (i + 1) * w ≤ d * w := Nat.mul_le_mul_right w hi
  have hself := Nat.le_mul_of_pos_right (w * d) hn
  rw [Nat.succ_mul] at hmul
  rw [Nat.mul_comm w d] at hself ⊢
  rw [Nat.mul_comm w d] at hsize
  exact ⟨Nat.mod_eq_of_lt (by omega), by omega⟩

theorem fits_CMS (hsize : w * d * n < 2 ^ 64) : Fits (CMS w d n) := by
  intro h i hi
  obtain ⟨hplace, hlt⟩ := place_CMS hw hn hsize h hi
  have hbytes : (CMS w d n).bytes = w * d * n := Nat.mod_eq_of_lt hsize
  have hn' : (CMS w d n).sizeofT = n := rfl
  rw [hplace, hbytes, hn', ← Nat.succ_mul]
  exact Nat.mul_le_mul_right n hlt

omit hn in
theorem fits_CBF (hsize : w * n < 2 ^ 64) : Fits (CBF w d n) := by
  intro h i _
  have hplace : (CBF w d n).place h i = h.toNat % w := rfl
  have hbytes : (CBF w d n).bytes = w * n := Nat.mod_eq_of_lt hsize
  have hn' : (CBF w d n).sizeofT = n := rfl
  rw [hplace, hbytes, hn', ← Nat.succ_mul]
  exact Nat.mul_le_mul_right n (Nat.mod_lt _ hw)

/-- In a count-min sketch no two places of an item coincide. -/
theorem nodup_places_CMS (hsize : w * d * n < 2 ^ 64) (hash : Hash) (item : Key) :
    (places (CMS w d n) hash item).Nodup := by
  refine List.Nodup.map_on (fun i hi j hj heq => ?_) List.nodup_range
  have hi' := (place_CMS hw hn hsize (hash item i) (List.mem_range.mp hi)).1
  have hj' := (place_CMS hw hn hsize (hash item j) (List.mem_range.mp hj)).1
  rw [hi', hj'] at heq
  have hdiv : ∀ (x : UInt64) (k : ℕ), (x.toNat % w + k * w) / w = k := fun x k => by
    rw [Nat.add_mul_div_right _ _ hw, Nat.div_eq_of_lt (Nat.mod_lt _ hw), Nat.zero_add]
  rw [← hdiv (hash item i) i, heq, hdiv]

end Tables

section Shape

variable {kind : Kind} {key w d t : Key} {s : Table}

/-- What the commands check. -/
theorem shape_eq_some (h : shape kind key w d t = some s) :
    isKeyValid key ∧ 0 < fromString 64 w 0 ∧ 0 < fromString 64 d 0 ∧
      typeDispatch (fromString 8 t 0) = some s.sizeofT ∧
      s = kind.table (fromString 64 w 0) (fromString 64 d 0) s.sizeofT ∧ s.bytes ≤ maxValSize := by
  unfold shape at h
  split_ifs at h with hbad
  obtain ⟨hkey, hwd⟩ := not_or.mp hbad
  obtain ⟨hw, hd⟩ := not_or.mp hwd
  obtain ⟨hmap, hle⟩ := Option.filter_eq_some_iff.mp h
  obtain ⟨n, hn, hs⟩ := Option.map_eq_some_iff.mp hmap
  have hsize : s.sizeofT = n := by
    rw [← hs]
    cases kind <;> rfl
  rw [hsize]
  exact ⟨not_not.mp hkey, Nat.pos_of_ne_zero hw, Nat.pos_of_ne_zero hd, hn, hs.symm,
    of_decide_eq_true hle⟩

/-- A table whose size has no more than 64 bits has room for all its counters. -/
theorem shape_fits (h : shape kind key w d t = some s) (hsize : shapeSize kind w d t < 2 ^ 64) :
    Fits s ∧ 0 < s.rows ∧ 0 < s.bytes ∧ s.sizeofT ≤ 8 := by
  obtain ⟨_, hw, hd, ht, hs, _⟩ := shape_eq_some h
  obtain ⟨hpos, hle, hdiv⟩ := typeDispatch_eq_some ht
  unfold shapeSize at hsize
  rw [← hdiv] at hsize
  rw [hs]
  cases kind with
  | cms =>
    have hbytes : (CMS (fromString 64 w 0) (fromString 64 d 0) s.sizeofT).bytes =
      fromString 64 w 0 * fromString 64 d 0 * s.sizeofT := Nat.mod_eq_of_lt hsize
    exact ⟨fits_CMS hw hpos hsize, hd, hbytes ▸ Nat.mul_pos (Nat.mul_pos hw hd) hpos, hle⟩
  | cbf =>
    have hbytes : (CBF (fromString 64 w 0) (fromString 64 d 0) s.sizeofT).bytes =
      fromString 64 w 0 * s.sizeofT := Nat.mod_eq_of_lt hsize
    exact ⟨fits_CBF hw hsize, hd, hbytes ▸ Nat.mul_pos hw hpos, hle⟩

/-- In a count-min sketch each place of an item occurs once. -/
theorem count_places_cms (h : shape .cms key w d t = some s)
    (hsize : shapeSize .cms w d t < 2 ^ 64) (hash : Hash) {item : Key} {k : ℕ}
    (hk : k ∈ places s hash item) : (places s hash item).count k = 1 := by
  obtain ⟨_, hw, _, ht, hs, _⟩ := shape_eq_some h
  obtain ⟨hpos, _, hdiv⟩ := typeDispatch_eq_some ht
  unfold shapeSize at hsize
  rw [← hdiv] at hsize
  refine List.count_eq_one_of_mem ?_ hk
  rw [hs]
  exact nodup_places_CMS hw hpos hsize hash item

end Shape

/-! ## The state of a key -/

/-- At any time a key shows the same pair, which holds a table of the right size. -/
def Holds (key : Key) (s : Table) (db : Db) (c : ℕ → ℕ) : Prop :=
  ∃ o : Option Pair, (∀ now, getPairPtr now key db = o) ∧ (∀ p ∈ o, p.val.length = s.bytes) ∧
    counters s.sizeofT (copyPair s.bytes o) = c

section Steps

variable {key : Key} (hk : isKeyValid key) {s : Table} (hpos : 0 < s.bytes)
  (hmax : s.bytes ≤ maxValSize)

theorem getPairPtrWithSize_eq {size : ℕ} {db : Db} {o : Option Pair}
    (ho : ∀ now, getPairPtr now key db = o) (hlen : ∀ p ∈ o, p.val.length = size)
    (now : UInt64) : getPairPtrWithSize now key size db = o := by
  unfold getPairPtrWithSize
  rw [ho now]
  cases o with
  | none => rfl
  | some p => exact (Option.filter_some).trans (if_pos (decide_eq_true (hlen p rfl)))

include hk hpos hmax

/-- A factory writes the table after its action. -/
theorem holds_insert (env : Env) (action : Action) {db : Db} {o : Option Pair}
    (ho : ∀ now, getPairPtr now key db = o) :
    Holds key s
      (insertHintVFactory env.owned o (iFactoryActionSame action key s.bytes o) env.write db)
      (counters s.sizeofT (action.run (copyPair s.bytes o))) := by
  have hv : (iFactoryActionSame action key s.bytes o).valid = true := decide_eq_true ⟨hk, hmax⟩
  have hget : ∀ old, get key db = some old → isOK env.write old = true → o = some old :=
    fun old hold hok => by
      rw [← ho env.write, getPairPtr, hold, Option.filter_some, if_pos hok]
  have hput := @insertHintVFactory_eq_of_get _ env.write env.owned hv rfl db
    (fun old hold => createHintSame_eq hv env.write (lookup_key hold) fun hok _ =>
      hget old hold hok) o
    (fun p hp => Option.eq_some_of_filter_eq_some ((ho 0).trans hp))
  rw [hput]
  have hlen := action.value_length s.bytes o
  refine ⟨some ((iFactoryActionSame action key s.bytes o).create hv env.write), fun now => ?_,
    fun p hp => ?_, ?_⟩
  · have hnew : get key (put Pair.key
        ((iFactoryActionSame action key s.bytes o).create hv env.write) db) = some _ :=
      lookup_put_self Pair.key ((iFactoryActionSame action key s.bytes o).create hv env.write) db
    have hne : action.value s.bytes o ≠ [] := List.ne_nil_of_length_pos (hpos.trans_eq hlen.symm)
    unfold getPairPtr
    rw [hnew, Option.filter_some, if_pos (isOK_of_forever hne rfl now)]
  · cases Option.some.inj hp
    exact hlen
  · have hcopy : copyPair s.bytes
        (some ((iFactoryActionSame action key s.bytes o).create hv env.write)) =
        action.value s.bytes o := by
      have hval : ((iFactoryActionSame action key s.bytes o).create hv env.write).val =
        action.value s.bytes o := rfl
      rw [copyPair, hval, smartMemcpy, if_pos hlen.le, hlen, Nat.sub_self, List.replicate_zero,
        List.append_nil]
    rw [hcopy]
    rfl

end Steps

/-! ## Requests -/

/-- What a client sends to add to items of a key, with the surroundings and the name of the
command. -/
inductive Request
  | add (env : Env) (cmd : Key) (args : List Key)
  | addCount (env : Env) (cmd item n : Key)

/-- What the reply to a request leaves of the list. -/
def Request.step (kind : Kind) (hash : Hash) (key w d t : Key) (db : Db) : Request → Db
  | .add env cmd args => (mutate kind hash env (cmd :: key :: w :: d :: t :: args) db).2
  | .addCount env cmd item n => (mutateCount kind hash env [cmd, key, w, d, t, item, n] db).2

/-- The additions of a request, if it is accepted. -/
def Request.additions (kind : Kind) (s : Table) : Request → List (Key × ℕ)
  | .add _ _ args =>
    if args.length < 2 ∨ args.length % 2 ≠ 0 ∨ ∃ x ∈ items args, x.1 = [] then [] else items args
  | .addCount _ _ item n =>
    if fromString (8 * s.sizeofT) n 0 = 0 ∨ kind = .cms ∧ item = [] then []
    else [(item, fromString (8 * s.sizeofT) n 0)]

/-- Requests one after the other. -/
def run (kind : Kind) (hash : Hash) (key w d t : Key) (requests : List Request) (db : Db) : Db :=
  requests.foldl (Request.step kind hash key w d t) db

/-- All additions of some requests. -/
def additions (kind : Kind) (s : Table) (requests : List Request) : List (Key × ℕ) :=
  requests.flatMap (Request.additions kind s)

/-- What was added to an item. -/
def total (xs : List (Key × ℕ)) (item : Key) : ℕ := ((xs.filter fun x => x.1 = item).map Prod.snd).sum

/-- The counters after some additions. -/
def addAll (s : Table) (hash : Hash) (xs : List (Key × ℕ)) (c : ℕ → ℕ) : ℕ → ℕ :=
  xs.foldl (fun c x => CountSketch.add (maxCount s.sizeofT) x.2 (places s hash x.1) c) c

theorem counters_foldl_addItem {s : Table} (hfits : Fits s) (hash : Hash) {data : Key}
    (hlen : data.length = s.bytes) {xs : List (Key × ℕ)}
    (hxs : ∀ x ∈ xs, x.2 ≤ maxCount s.sizeofT) :
    counters s.sizeofT (xs.foldl (fun data x => addItem s hash data x.1 x.2) data) =
      addAll s hash xs (counters s.sizeofT data) := by
  unfold addAll
  induction xs generalizing data with
  | nil => rfl
  | cons x xs ih =>
    obtain ⟨hx, hxs'⟩ := List.forall_mem_cons.mp hxs
    rw [List.foldl_cons, List.foldl_cons, ih ((length_addItem _ _ _ _ _).trans hlen) hxs',
      counters_addItem hfits hlen x.1 hx]

/-- The counters cover what was added. -/
theorem covers_addAll {s : Table} (hash : Hash) {c : ℕ → ℕ} (xs ys : List (Key × ℕ))
    (h : Covers (maxCount s.sizeofT) (places s hash) (total ys) c) :
    Covers (maxCount s.sizeofT) (places s hash) (total (ys ++ xs)) (addAll s hash xs c) := by
  induction xs generalizing ys c with
  | nil =>
    rw [List.append_nil]
    exact h
  | cons x xs ih =>
    have htotal : total (ys ++ [x]) = Function.update (total ys) x.1 (total ys x.1 + x.2) := by
      funext item
      unfold total
      rw [List.filter_append, List.map_append, List.sum_append, Function.update_apply]
      by_cases hx : x.1 = item
      · subst hx
        rw [if_pos rfl]
        simp
      · rw [if_neg (Ne.symm hx)]
        simp [hx]
    have hstep := h.add x.1 x.2
    rw [← htotal] at hstep
    have hrest := ih (ys ++ [x]) hstep
    rw [List.append_assoc] at hrest
    exact hrest

/-! ## Runs -/

section Runs

variable {kind : Kind} (hash : Hash) {key w d t : Key} {s : Table}
  (hs : shape kind key w d t = some s) (hsize : shapeSize kind w d t < 2 ^ 64)

include hs hsize

/-- What a request leaves, if none of its increments is too large for a counter. -/
theorem holds_step {r : Request} {db : Db} {c : ℕ → ℕ} (h : Holds key s db c)
    (hr : ∀ x ∈ r.additions kind s, x.2 ≤ maxCount s.sizeofT) :
    Holds key s (r.step kind hash key w d t db) (addAll s hash (r.additions kind s) c) := by
  obtain ⟨hkey, hw, hd, ht, htable, hmax⟩ := shape_eq_some hs
  obtain ⟨hfits, _, hpos, _⟩ := shape_fits hs hsize
  obtain ⟨o, ho, hlen, hc⟩ := id h
  have hdata := copyPair_length s.bytes o
  cases r with
  | add env cmd args =>
    unfold Request.additions at hr ⊢
    unfold Request.step mutate
    dsimp only at hr ⊢
    have hcount : (cmd :: key :: w :: d :: t :: args).length < 7 ∨
        ((cmd :: key :: w :: d :: t :: args).length - 5) % 2 ≠ 0 ↔
          args.length < 2 ∨ args.length % 2 ≠ 0 := by
      simp only [List.length_cons]
      omega
    by_cases hargs : args.length < 2 ∨ args.length % 2 ≠ 0
    · rw [if_pos (hcount.mpr hargs), if_pos (hargs.imp_right .inl)]
      exact h
    rw [if_neg (fun hc => hargs (hcount.mp hc)), if_neg (not_not.mpr hkey),
      if_neg (not_or.mpr ⟨hw.ne', hd.ne'⟩)]
    by_cases hitems : ∃ x ∈ items args, x.1 = []
    · have hbad : args.length < 2 ∨ args.length % 2 ≠ 0 ∨ ∃ x ∈ items args, x.1 = [] :=
        .inr (.inr hitems)
      rw [if_pos hbad]
      cases kind with
      | cms =>
        rw [if_neg (fun hc => nomatch hc.1), ht]
        dsimp only
        rw [← htable, if_neg (Nat.not_lt.mpr hmax), if_pos ⟨rfl, hitems⟩]
        exact h
      | cbf =>
        rw [if_pos ⟨rfl, hitems⟩]
        exact h
    · have hbad : ¬(args.length < 2 ∨ args.length % 2 ≠ 0 ∨ ∃ x ∈ items args, x.1 = []) :=
        fun hc => hc.elim (fun h => hargs (.inl h)) fun h => h.elim (fun h => hargs (.inr h)) hitems
      rw [if_neg hbad] at hr ⊢
      rw [if_neg (fun hc => hitems hc.2), ht]
      dsimp only
      rw [← htable, if_neg (Nat.not_lt.mpr hmax), if_neg (fun hc => hitems hc.2),
        getPairPtrWithSize_eq ho hlen]
      have hnew := holds_insert hkey hpos hmax env (addAction s hash (items args)) ho
      have hall := counters_foldl_addItem hfits hash hdata hr
      rw [hc] at hall
      rw [← hall]
      exact hnew
  | addCount env cmd item n =>
    unfold Request.additions at hr ⊢
    unfold Request.step mutateCount
    dsimp only at hr ⊢
    rw [if_neg (not_not.mpr hkey)]
    by_cases hitem : kind = .cms ∧ item = []
    · rw [if_pos (.inr (.inr hitem)), if_pos (.inr hitem)]
      exact h
    rw [if_neg (not_or.mpr ⟨hw.ne', not_or.mpr ⟨hd.ne', hitem⟩⟩), ht]
    dsimp only
    rw [← htable]
    by_cases hn : fromString (8 * s.sizeofT) n 0 = 0
    · rw [if_pos hn, if_pos (.inl hn)]
      exact h
    have hbad : ¬(fromString (8 * s.sizeofT) n 0 = 0 ∨ kind = .cms ∧ item = []) :=
      not_or.mpr ⟨hn, hitem⟩
    rw [if_neg hbad] at hr ⊢
    rw [if_neg hn, if_neg (Nat.not_lt.mpr hmax), getPairPtrWithSize_eq ho hlen]
    have hnew := holds_insert hkey hpos hmax env
      (addCountAction s hash item (fromString (8 * s.sizeofT) n 0)) ho
    have hall : counters s.sizeofT ((addCountAction s hash item
        (fromString (8 * s.sizeofT) n 0)).run (copyPair s.bytes o)) =
        addAll s hash [(item, fromString (8 * s.sizeofT) n 0)] c := by
      unfold addCountAction
      dsimp only
      rw [addCount_snd, counters_addItem hfits hdata item (hr _ List.mem_cons_self), hc]
      rfl
    rw [← hall]
    exact hnew

/-- Every run of requests. -/
theorem holds_run (requests : List Request) {db : Db} {c : ℕ → ℕ} (h : Holds key s db c)
    (hfit : ∀ x ∈ additions kind s requests, x.2 ≤ maxCount s.sizeofT) :
    Holds key s (run kind hash key w d t requests db)
      (addAll s hash (additions kind s requests) c) := by
  induction requests generalizing db c with
  | nil => exact h
  | cons r requests ih =>
    have hcons : additions kind s (r :: requests) =
      r.additions kind s ++ additions kind s requests := List.flatMap_cons
    rw [hcons] at hfit ⊢
    have hfirst := holds_step hash hs hsize h fun x hx =>
      hfit x (List.mem_append_left _ hx)
    have hrest := ih hfirst fun x hx => hfit x (List.mem_append_right _ hx)
    unfold addAll at hrest ⊢
    rw [List.foldl_append]
    exact hrest

omit hsize in
/-- What is counted of an item. -/
theorem countItem_eq (hfits : Fits s) {db : Db} {c : ℕ → ℕ} (h : Holds key s db c) (now : UInt64)
    (cmd item : Key) (hrows : 0 < s.rows) :
    countItem kind hash now [cmd, key, w, d, t, item] db =
      some (.number (least c (places s hash item) (2 ^ 64 - 1))) := by
  obtain ⟨hkey, hw, hd, ht, htable, _⟩ := shape_eq_some hs
  obtain ⟨o, ho, hlen, hc⟩ := h
  unfold countItem
  dsimp only
  rw [if_neg (not_not.mpr hkey), ht]
  dsimp only
  rw [Nat.max_eq_left hw, Nat.max_eq_left hd, ← htable, getPairPtrWithSize_eq ho hlen]
  cases o with
  | none =>
    have hzero : c = fun _ => 0 := hc.symm.trans (funext fun k => counters_replicate _ _ k)
    have hmem : s.place (hash item 0) 0 ∈ places s hash item :=
      List.mem_map_of_mem (List.mem_range.mpr hrows)
    have hleast : least c (places s hash item) (2 ^ 64 - 1) = 0 := by
      have hle := ((le_least_iff (places s hash item) (2 ^ 64 - 1)).mp (le_refl
        (least c (places s hash item) (2 ^ 64 - 1)))).2 _ hmem
      rw [hzero] at hle
      exact Nat.le_zero.mp (hzero ▸ hle)
    rw [hleast]
  | some p =>
    dsimp only
    have hcopy : copyPair s.bytes (some p) = p.val := by
      rw [copyPair, smartMemcpy, if_pos (hlen p rfl).le, hlen p rfl, Nat.sub_self,
        List.replicate_zero, List.append_nil]
    rw [count_eq hfits (hlen p rfl), ← hc, hcopy]
    rfl

/-- What is added and counted is what is counted afterwards exactly if, among the places of the
item with the least counter, one occurs once or is full afterwards. -/
theorem mutateCount_iff {db : Db} {c : ℕ → ℕ} (h : Holds key s db c) (env : Env)
    (cmd cmd' : Key) {item n : Key} (now : UInt64) (hn : fromString (8 * s.sizeofT) n 0 ≠ 0)
    (hitem : ¬(kind = .cms ∧ item = [])) :
    (mutateCount kind hash env [cmd, key, w, d, t, item, n] db).1 =
        countItem kind hash now [cmd', key, w, d, t, item]
          (mutateCount kind hash env [cmd, key, w, d, t, item, n] db).2 ↔
      ∃ k ∈ places s hash item, (∀ j ∈ places s hash item, c k ≤ c j) ∧
        ((places s hash item).count k = 1 ∨
          maxCount s.sizeofT ≤ c k + fromString (8 * s.sizeofT) n 0) := by
  obtain ⟨hkey, hw, hd, ht, htable, hmax⟩ := shape_eq_some hs
  obtain ⟨hfits, hrows, hpos, hle⟩ := shape_fits hs hsize
  have hlt : fromString (8 * s.sizeofT) n 0 ≤ maxCount s.sizeofT := by
    have hlt := @fromString_lt (8 * s.sizeofT) 0 n (Nat.two_pow_pos _)
    rw [maxCount]
    omega
  have hadd : (Request.addCount env cmd item n).additions kind s =
      [(item, fromString (8 * s.sizeofT) n 0)] := if_neg (not_or.mpr ⟨hn, hitem⟩)
  have hnew := holds_step hash hs hsize (r := .addCount env cmd item n) h (by
    rw [hadd]
    intro x hx
    rw [List.mem_singleton.mp hx]
    exact hlt)
  rw [hadd] at hnew
  have hafter := countItem_eq hash hs hfits hnew now cmd' item hrows
  obtain ⟨o, ho, hlen, hc⟩ := h
  have hreply : (mutateCount kind hash env [cmd, key, w, d, t, item, n] db).1 =
      some (.number (leastAdded (maxCount s.sizeofT) (fromString (8 * s.sizeofT) n 0)
        (places s hash item) c (2 ^ 64 - 1))) := by
    unfold mutateCount
    dsimp only
    rw [if_neg (not_not.mpr hkey), if_neg (not_or.mpr ⟨hw.ne', not_or.mpr ⟨hd.ne', hitem⟩⟩), ht]
    dsimp only
    rw [← htable, if_neg hn, if_neg (Nat.not_lt.mpr hmax), getPairPtrWithSize_eq ho hlen]
    dsimp only
    rw [addCount_fst hfits (copyPair_length s.bytes o) item hlt, hc]
    rfl
  have hne := places_ne_nil hrows hash item
  have hinit : maxCount s.sizeofT ≤ 2 ^ 64 - 1 :=
    Nat.sub_le_sub_right (Nat.pow_le_pow_right Nat.two_pos (by omega)) 1
  have hcle : ∀ k, c k ≤ maxCount s.sizeofT := fun k => hc ▸ counters_le _ _ k
  have hiff := leastAdded_eq_least_iff hcle (Nat.pos_of_ne_zero hn) hne hinit
  rw [hreply]
  rw [Request.step] at hafter
  rw [hafter, Option.some_inj, Reply.number.injEq]
  exact hiff

end Runs

/-- As long as no increment is larger than a counter can be, the count of every item is at least
what was added to it, or the largest number of a counter. What an addition reports is what is
counted afterwards in a count-min sketch; in a counting Bloom filter this holds exactly if, among
the places of the item with the least counter, one occurs once or is full afterwards. -/
theorem never_underestimates (kind : Kind) (hash : Hash) {key w d t : Key} {s : Table}
    (hs : shape kind key w d t = some s) (hsize : shapeSize kind w d t < 2 ^ 64) {db : Db}
    (hdb : ∀ now, getPairPtr now key db = none) (requests : List Request)
    (hfit : ∀ x ∈ additions kind s requests, x.2 ≤ maxCount s.sizeofT) :
    (∀ now cmd item, ∃ e,
      countItem kind hash now [cmd, key, w, d, t, item] (run kind hash key w d t requests db) =
          some (.number e) ∧
        min (total (additions kind s requests) item) (maxCount s.sizeofT) ≤ e) ∧
      ∀ env cmd cmd' item n now, fromString (8 * s.sizeofT) n 0 ≠ 0 →
        ¬(kind = .cms ∧ item = []) →
        ((mutateCount kind hash env [cmd, key, w, d, t, item, n]
            (run kind hash key w d t requests db)).1 =
          countItem kind hash now [cmd', key, w, d, t, item]
            (mutateCount kind hash env [cmd, key, w, d, t, item, n]
              (run kind hash key w d t requests db)).2 ↔
        kind = .cms ∨ ∃ k ∈ places s hash item,
          (∀ j ∈ places s hash item, addAll s hash (additions kind s requests) (fun _ => 0) k ≤
            addAll s hash (additions kind s requests) (fun _ => 0) j) ∧
          ((places s hash item).count k = 1 ∨ maxCount s.sizeofT ≤
            addAll s hash (additions kind s requests) (fun _ => 0) k +
              fromString (8 * s.sizeofT) n 0)) := by
  obtain ⟨hfits, hrows, _, hle⟩ := shape_fits hs hsize
  have hinit : Holds key s db fun _ => 0 :=
    ⟨none, hdb, fun _ hp => absurd hp.symm (Option.some_ne_none _), funext fun k => counters_replicate _ _ k⟩
  have hrun := holds_run hash hs hsize requests hinit hfit
  have hcovers := covers_addAll (s := s) hash (additions kind s requests) [] Covers.zero
  rw [List.nil_append] at hcovers
  have hmax : maxCount s.sizeofT ≤ 2 ^ 64 - 1 :=
    Nat.sub_le_sub_right (Nat.pow_le_pow_right Nat.two_pos (by omega)) 1
  refine ⟨fun now cmd item => ⟨_, countItem_eq hash hs hfits hrun now cmd item hrows,
    hcovers.le_least item hmax⟩, fun env cmd cmd' item n now hn hitem => ?_⟩
  have hiff := mutateCount_iff hash hs hsize hrun env cmd cmd' now hn hitem
  cases kind with
  | cbf => exact hiff.trans ⟨.inr, fun h => h.elim (fun h => nomatch h) id⟩
  | cms =>
    refine iff_of_true (hiff.mpr ?_) (.inl rfl)
    obtain ⟨k, hk, hmin⟩ := exists_least
      (addAll s hash (additions .cms s requests) fun _ => 0) (places_ne_nil hrows hash item)
    exact ⟨k, hk, hmin, .inl (count_places_cms hs hsize hash hk)⟩

/-- Two hundred and fifty-five is added to an item in a table of one octet. -/
theorem never_underestimates_full : ∃ e,
    countItem .cms (fun _ _ => 0) 0 [[], [107], [49], [49], [56], [105]]
        (run .cms (fun _ _ => 0) [107] [49] [49] [56]
          [.add ⟨true, 0, 0⟩ [] [[105], [50, 53, 53]]] []) = some (.number e) ∧
      min (total (additions .cms (CMS 1 1 1) [.add ⟨true, 0, 0⟩ [] [[105], [50, 53, 53]]]) [105])
        (maxCount 1) ≤ e :=
  have hshape : shape .cms [107] [49] [49] [56] = some (CMS 1 1 1) := rfl
  (never_underestimates .cms (fun _ _ => 0) hshape (by decide) (fun _ => rfl)
    [.add ⟨true, 0, 0⟩ [] [[105], [50, 53, 53]]] (by decide)).1 0 [] [105]

/-- One more is cast to nothing, and an item whose two places coincide is counted twice by an
addition that reports one. -/
theorem underestimates :
    (∃ e, countItem .cms (fun _ _ => 0) 0 [[], [107], [49], [49], [56], [105]]
        (run .cms (fun _ _ => 0) [107] [49] [49] [56]
          [.add ⟨true, 0, 0⟩ [] [[105], [50, 53, 54]]] []) = some (.number e) ∧
      e < min (total (additions .cms (CMS 1 1 1) [.add ⟨true, 0, 0⟩ [] [[105], [50, 53, 54]]])
        [105]) (maxCount 1)) ∧
    (mutateCount .cbf (fun _ _ => 0) ⟨true, 0, 0⟩ [[], [107], [49], [50], [56], [105], [49]] []).1 ≠
      countItem .cbf (fun _ _ => 0) 0 [[], [107], [49], [50], [56], [105]]
        (mutateCount .cbf (fun _ _ => 0) ⟨true, 0, 0⟩
          [[], [107], [49], [50], [56], [105], [49]] []).2 := by
  refine ⟨⟨0, ?_, ?_⟩, ?_⟩
  · decide +kernel
  · decide +kernel
  · decide +kernel

end HM4.SketchRuns
