import HM4.MemList
import HM4.HPairRank
import HM4.General.BoundedSearch

/-!
# What an insert and an erase do to a list

The lists other than `AVLList` keep pointers to pairs and change the pair of a key in
the same way. Whatever a list is made of, an insert and an erase change the entry of
the key and its counter only; the entries before it stand below the key and the
entries behind it above.
-/

namespace HM4.ListSteps

open Bytes Pairs PairFactory MemList KeyedList

/-- Octets that an allocator has handed out. -/
structure Block where
  /-- The address of the first one. -/
  addr : ℕ
  /-- How many were asked for. -/
  size : ℕ
  deriving DecidableEq

/-- A `Pair *`: the pair and the block in which it lies. -/
structure PairPtr where
  /-- The pair. -/
  data : Pair
  /-- Its block. -/
  block : Block

/-- What becomes of the pointer to the pair of the key. -/
inductive Change where
  | keep
  | inPlace (ptr : PairPtr)
  | replaced (ptr : PairPtr)

/-- The pointer after the change. -/
def Change.ptr (old : PairPtr) : Change → PairPtr
  | .keep => old
  | .inPlace ptr => ptr
  | .replaced ptr => ptr

section Code

variable {σ : Type} (allocator : Allocator σ) (s : σ) (factory : Factory)
  (h : factory.valid = true) (now : UInt64)

/-- `Pair::smart_ptr::create`. -/
def createPair : Option PairPtr × σ :=
  match allocator.xallocate factory.bytes s with
  | (none, s) => (none, s)
  | (some addr, s) => (some ⟨factory.create h now, ⟨addr, factory.bytes⟩⟩, s)

/-- The part of `insertF` for a key that is there. -/
def updatePair (lc : ListCounter) (old : PairPtr) : InsertResult × Change × ListCounter × σ :=
  if ¬isValidForReplace factory.getCreated old.data then
    (⟨.SKIP_INSERTED, none⟩, .keep, lc, s)
  else
    match tryUpdateInPlaceLC allocator s old.block.addr old.data factory h now lc with
    | some (data, lc) => (⟨.UPDATED_IN_PLACE, some data⟩, .inPlace ⟨data, old.block⟩, lc, s)
    | none =>
      match createPair allocator s factory h now with
      | (none, s) => (⟨.ERROR_NO_MEMORY, none⟩, .keep, lc, s)
      | (some ptr, s) => (⟨.REPLACED, some ptr.data⟩, .replaced ptr,
          lc.upd old.data.bytes ptr.data.bytes, allocator.xdeallocate old.block.addr s)

/-- What the allocator says of an address. -/
def Owns (b : Bool) : Prop := ∃ addr, allocator.owns addr s = b

/-- Of allocations of these sizes, one after another, one is refused. -/
def Refuses : List ℕ → σ → Prop
  | [], _ => False
  | size :: sizes, s =>
    (allocator.xallocate size s).1 = none ∨ Refuses sizes (allocator.xallocate size s).2

end Code

/-- A key that is erased is not empty. -/
def Keyed : Op → Prop
  | .erase key => key ≠ []
  | _ => True

/-! ## Steps -/

variable {α K : Type} [LinearOrder K] (rank : α → K) (data : α → Pair)

/-- What an insert gives and leaves: entries are ordered by a rank, and `k` is the rank of
the key. `owns` tells what the allocator may say of the pair, `fails` which errors there may be. -/
inductive Inserted (factory : Factory) (now : UInt64) (owns : Bool → Prop) (fails : Status → Prop)
    (k : K) : ListCounter → List α → InsertResult → ListCounter → List α → Prop
  | invalid {lc : ListCounter} {m : List α} (h : ¬factory.valid = true) :
      Inserted factory now owns fails k lc m ⟨.ERROR_INVALID, none⟩ lc m
  | failed {lc : ListCounter} {m : List α} (status : Status) (h : factory.valid = true)
      (hs : fails status) :
      Inserted factory now owns fails k lc m ⟨status, none⟩ lc m
  | new {lc : ListCounter} (l1 l2 : List α) (e : α) (h : factory.valid = true)
      (h1 : ∀ x ∈ l1, rank x < k) (h2 : ∀ x ∈ l2, k < rank x) (he : rank e = k)
      (hd : data e = factory.create h now) :
      Inserted factory now owns fails k lc (l1 ++ l2) ⟨.INSERTED, some (data e)⟩
        (lc.inc (data e).bytes) (l1 ++ e :: l2)
  | skip {lc : ListCounter} (l1 l2 : List α) (old : α) (h : factory.valid = true)
      (h1 : ∀ x ∈ l1, rank x < k) (h2 : ∀ x ∈ l2, k < rank x) (ho : rank old = k)
      (hold : ¬isValidForReplace factory.getCreated (data old)) :
      Inserted factory now owns fails k lc (l1 ++ old :: l2) ⟨.SKIP_INSERTED, none⟩ lc (l1 ++ old :: l2)
  | update {lc : ListCounter} (l1 l2 : List α) (old e : α) (h : factory.valid = true)
      (h1 : ∀ x ∈ l1, rank x < k) (h2 : ∀ x ∈ l2, k < rank x) (ho : rank old = k)
      (hold : isValidForReplace factory.getCreated (data old))
      (hfits : factory.bytes ≤ (data old).bytes) (howns : owns true)
      (he : rank e = k)
      (hd : data e = factory.createHint h now (data old)) :
      Inserted factory now owns fails k lc (l1 ++ old :: l2) ⟨.UPDATED_IN_PLACE, some (data e)⟩
        (lc.upd (data old).bytes (data e).bytes) (l1 ++ e :: l2)
  | replace {lc : ListCounter} (l1 l2 : List α) (old e : α) (h : factory.valid = true)
      (h1 : ∀ x ∈ l1, rank x < k) (h2 : ∀ x ∈ l2, k < rank x) (ho : rank old = k)
      (hold : isValidForReplace factory.getCreated (data old))
      (howns : factory.bytes ≤ (data old).bytes → owns false) (he : rank e = k)
      (hd : data e = factory.create h now) :
      Inserted factory now owns fails k lc (l1 ++ old :: l2) ⟨.REPLACED, some (data e)⟩
        (lc.upd (data old).bytes (data e).bytes) (l1 ++ e :: l2)

/-- What an erase gives and leaves. -/
inductive Erased (k : K) :
    ListCounter → List α → InsertResult → ListCounter → List α → Prop
  | absent {lc : ListCounter} {m : List α} (h : ∀ x ∈ m, rank x ≠ k) :
      Erased k lc m ⟨.SKIP_DELETED, none⟩ lc m
  | found {lc : ListCounter} (l1 l2 : List α) (old : α) (h1 : ∀ x ∈ l1, rank x < k)
      (h2 : ∀ x ∈ l2, k < rank x) (ho : rank old = k) :
      Erased k lc (l1 ++ old :: l2) ⟨.DELETED, none⟩ (lc.dec (data old).bytes) (l1 ++ l2)

variable {rank data}

/-- Increasing around one entry. -/
theorem increasing_mid {l1 l2 : List α} {e : α} (h12 : Increasing rank (l1 ++ l2))
    (h1 : ∀ x ∈ l1, rank x < rank e) (h2 : ∀ x ∈ l2, rank e < rank x) :
    Increasing rank (l1 ++ e :: l2) := by
  obtain ⟨hl1, hl2, hcross⟩ := Increasing.append_iff.mp h12
  refine Increasing.append_iff.mpr ⟨hl1, Increasing.cons_iff.mpr ⟨h2, hl2⟩, fun x hx y hy => ?_⟩
  rcases List.mem_cons.mp hy with rfl | hy
  · exact h1 x hx
  · exact hcross x hx y hy

theorem increasing_without {l1 l2 : List α} {e : α} (h : Increasing rank (l1 ++ e :: l2)) :
    Increasing rank (l1 ++ l2) :=
  List.Pairwise.sublist ((List.sublist_cons_self e l2).append_left l1) h

section Inserted

variable {factory : Factory} {now : UInt64} {owns : Bool → Prop} {fails : Status → Prop} {k : K}
  {lc lc' : ListCounter} {m m' : List α} {r : InsertResult}

/-- What the allocator may say and which errors there may be is known less exactly. -/
theorem Inserted.mono {owns' : Bool → Prop} {fails' : Status → Prop}
    (h : Inserted rank data factory now owns fails k lc m r lc' m') (ho : ∀ b, owns b → owns' b)
    (hf : ∀ status, fails status → fails' status) :
    Inserted rank data factory now owns' fails' k lc m r lc' m' := by
  cases h with
  | invalid h => exact .invalid h
  | failed status h hs => exact .failed status h (hf status hs)
  | new l1 l2 e h h1 h2 he hd => exact .new l1 l2 e h h1 h2 he hd
  | skip l1 l2 old h h1 h2 ho' hold => exact .skip l1 l2 old h h1 h2 ho' hold
  | update l1 l2 old e h h1 h2 ho' hold hfits howns he hd =>
    exact .update l1 l2 old e h h1 h2 ho' hold hfits (ho true howns) he hd
  | replace l1 l2 old e h h1 h2 ho' hold howns he hd =>
    exact .replace l1 l2 old e h h1 h2 ho' hold (fun hb => ho false (howns hb)) he hd

/-- An insert keeps the order. -/
theorem Inserted.increasing (h : Inserted rank data factory now owns fails k lc m r lc' m')
    (hm : Increasing rank m) : Increasing rank m' := by
  cases h with
  | invalid => exact hm
  | failed => exact hm
  | new l1 l2 e h h1 h2 he hd => exact increasing_mid hm (he ▸ h1) (he ▸ h2)
  | skip => exact hm
  | update l1 l2 old e h h1 h2 ho hold hfits howns he hd =>
    exact increasing_mid (increasing_without hm) (he ▸ h1) (he ▸ h2)
  | replace l1 l2 old e h h1 h2 ho hold howns he hd =>
    exact increasing_mid (increasing_without hm) (he ▸ h1) (he ▸ h2)

/-- An insert keeps the counter right. -/
theorem Inserted.counts (h : Inserted rank data factory now owns fails k lc m r lc' m')
    (hc : Counts lc (m.map data)) : Counts lc' (m'.map data) := by
  cases h with
  | invalid => exact hc
  | failed => exact hc
  | new l1 l2 e h h1 h2 he hd =>
    rw [List.map_append] at hc
    rw [List.map_append, List.map_cons]
    exact hc.inc rfl
  | skip => exact hc
  | update l1 l2 old e h h1 h2 ho hold hfits howns he hd =>
    rw [List.map_append, List.map_cons] at hc ⊢
    exact hc.upd rfl rfl
  | replace l1 l2 old e h h1 h2 ho hold howns he hd =>
    rw [List.map_append, List.map_cons] at hc ⊢
    exact hc.upd rfl rfl

/-- Without a valid factory nothing is done. -/
theorem Inserted.of_invalid (h : Inserted rank data factory now owns fails k lc m r lc' m')
    (hv : ¬factory.valid = true) : r = ⟨.ERROR_INVALID, none⟩ ∧ m' = m := by
  cases h with
  | invalid => exact ⟨rfl, rfl⟩
  | failed status h => exact absurd h hv
  | new l1 l2 e h => exact absurd h hv
  | skip l1 l2 old h => exact absurd h hv
  | update l1 l2 old e h => exact absurd h hv
  | replace l1 l2 old e h => exact absurd h hv

/-- An insert adds at most one entry, and none where there is one of the rank. -/
theorem Inserted.length (h : Inserted rank data factory now owns fails k lc m r lc' m') :
    m'.length = m.length ∨ m'.length = m.length + 1 ∧ ∀ x ∈ m, rank x ≠ k := by
  cases h with
  | invalid => exact .inl rfl
  | failed => exact .inl rfl
  | skip => exact .inl rfl
  | new l1 l2 e h h1 h2 he hd =>
    refine .inr ⟨?_, fun x hx => ?_⟩
    · rw [List.length_append, List.length_append, List.length_cons, Nat.add_assoc]
    · exact (List.mem_append.mp hx).elim (fun hx => (h1 x hx).ne) fun hx => (h2 x hx).ne'
  | update l1 l2 old e h h1 h2 ho hold hfits howns he hd =>
    left
    rw [List.length_append, List.length_append, List.length_cons, List.length_cons]
  | replace l1 l2 old e h h1 h2 ho hold howns he hd =>
    left
    rw [List.length_append, List.length_append, List.length_cons, List.length_cons]

/-- Where there are no entries, an insert puts one or fails. -/
theorem Inserted.of_nil (h : Inserted rank data factory now owns fails k lc m r lc' m')
    (hm : m = []) (hfails : ∀ status, fails status → status = .ERROR_NO_MEMORY) :
    (r.ok = true → m' ≠ []) ∧ (r.ok = false → lc' = lc ∧ m' = []) := by
  have hmid : ∀ (l1 l2 : List α) (e : α), l1 ++ e :: l2 ≠ [] := fun l1 l2 e hn =>
    List.cons_ne_nil e l2 (List.append_eq_nil_iff.mp hn).2
  cases h with
  | invalid => exact ⟨fun hr => absurd hr Bool.false_ne_true, fun _ => ⟨rfl, hm⟩⟩
  | failed status h hs =>
    obtain rfl := hfails status hs
    exact ⟨fun hr => absurd hr Bool.false_ne_true, fun _ => ⟨rfl, hm⟩⟩
  | new l1 l2 e => exact ⟨fun _ => hmid l1 l2 e, fun hr => absurd hr.symm Bool.false_ne_true⟩
  | skip l1 l2 old => exact absurd hm (hmid l1 l2 old)
  | update l1 l2 old => exact absurd hm (hmid l1 l2 old)
  | replace l1 l2 old => exact absurd hm (hmid l1 l2 old)

/-- What is done to the entries in the middle is done to all. -/
theorem Inserted.context (h : Inserted rank data factory now owns fails k lc m r lc' m')
    {a b : List α} (ha : ∀ x ∈ a, rank x < k) (hb : ∀ x ∈ b, k < rank x) :
    Inserted rank data factory now owns fails k lc (a ++ (m ++ b)) r lc' (a ++ (m' ++ b)) := by
  have hmid : ∀ (l1 l2 : List α), a ++ ((l1 ++ l2) ++ b) = (a ++ l1) ++ (l2 ++ b) := fun l1 l2 => by
    simp only [List.append_assoc]
  have hcons : ∀ (l1 : List α) e (l2 : List α),
      a ++ ((l1 ++ e :: l2) ++ b) = (a ++ l1) ++ e :: (l2 ++ b) := fun l1 e l2 => by
    simp only [List.append_assoc, List.cons_append]
  have hall : ∀ {l1 : List α}, (∀ x ∈ l1, rank x < k) → ∀ x ∈ a ++ l1, rank x < k :=
    fun h1 x hx => (List.mem_append.mp hx).elim (ha x) (h1 x)
  have hal2 : ∀ {l2 : List α}, (∀ x ∈ l2, k < rank x) → ∀ x ∈ l2 ++ b, k < rank x :=
    fun h2 x hx => (List.mem_append.mp hx).elim (h2 x) (hb x)
  cases h with
  | invalid h => exact .invalid h
  | failed status h hs => exact .failed status h hs
  | new l1 l2 e h h1 h2 he hd =>
    rw [hmid, hcons]
    exact .new _ _ e h (hall h1) (hal2 h2) he hd
  | skip l1 l2 old h h1 h2 ho hold =>
    rw [hcons]
    exact .skip _ _ old h (hall h1) (hal2 h2) ho hold
  | update l1 l2 old e h h1 h2 ho hold hfits howns he hd =>
    rw [hcons, hcons]
    exact .update _ _ old e h (hall h1) (hal2 h2) ho hold hfits howns he hd
  | replace l1 l2 old e h h1 h2 ho hold howns he hd =>
    rw [hcons, hcons]
    exact .replace _ _ old e h (hall h1) (hal2 h2) ho hold howns he hd

/-- The only error of a list is that it got no memory. -/
def NoMemory (refused : Prop) (status : Status) : Prop := status = .ERROR_NO_MEMORY ∧ refused

/-- Pairs of entries that stand below a rank have smaller keys. -/
theorem keys_below {key : Key} {l1 : List α} (hlt : ∀ x ∈ l1, rank x < k → (data x).key < key)
    (h1 : ∀ x ∈ l1, rank x < k) : ∀ p ∈ l1.map data, p.key < key :=
  List.forall_mem_map.mpr fun x hx => hlt x hx (h1 x hx)

/-- An answer to an insert: what is owned is for the allocator to say, and nothing is refused
unless the allocator did so. -/
def Answers (owns : Bool → Prop) (refused : Prop) (a : Answer) : Prop :=
  owns a.owned ∧ (a.refused = true ∨ a.memory = false → refused)

/-- The answer of an allocator that refuses nothing. -/
theorem answers_memory {owns : Bool → Prop} {refused : Prop} {owned : Bool} (h : owns owned) :
    Answers owns refused ⟨owned, true, false⟩ :=
  ⟨h, fun hr => hr.elim (fun hr => absurd hr Bool.false_ne_true)
    fun hm => absurd hm.symm Bool.false_ne_true⟩

/-- An answer after which a pair is not changed in place. -/
theorem exists_not_inPlace {owns : Bool → Prop} {fits : Prop} (hany : ∃ b, owns b)
    (h : fits → owns false) : ∃ owned, owns owned ∧ ¬(owned = true ∧ fits) := by
  by_cases hf : fits
  · exact ⟨false, h hf, fun hc => Bool.false_ne_true hc.1⟩
  · obtain ⟨b, hb⟩ := hany
    exact ⟨b, hb, fun hc => hf hc.2⟩

/-- Where ranks tell the order of keys, an insert is the one of a plain map. -/
theorem Inserted.plain {refused : Prop}
    (h : Inserted rank data factory now owns (NoMemory refused) k lc m r lc' m')
    (hany : ∃ b, owns b)
    (hlt : ∀ x ∈ m, rank x < k → (data x).key < factory.getKey)
    (heq : ∀ x ∈ m, rank x = k → (data x).key = factory.getKey)
    (hgt : ∀ x ∈ m, k < rank x → factory.getKey < (data x).key) :
    ∃ a : Answer, Answers owns refused a ∧
      plainStep (.insert factory now) a (m.map data) = (some r, m'.map data) := by
  obtain ⟨b, hb⟩ := hany
  cases h with
  | invalid h =>
    refine ⟨⟨b, true, false⟩, answers_memory hb, ?_⟩
    rw [plainStep, if_neg fun hc => h hc.1, plainInsert_invalid h]
  | failed status h hs =>
    obtain ⟨rfl, hr⟩ := hs
    refine ⟨⟨b, true, true⟩, ⟨hb, fun _ => hr⟩, ?_⟩
    rw [plainStep, if_pos ⟨h, rfl⟩]
  | new l1 l2 e h h1 h2 he hd =>
    have hk1 := keys_below (fun x hx => hlt x (List.mem_append_left _ hx)) h1
    have hk2 : ∀ p ∈ l2.map data, factory.getKey < p.key := List.forall_mem_map.mpr fun x hx =>
      hgt x (List.mem_append_right _ hx) (h2 x hx)
    refine ⟨⟨b, true, false⟩, answers_memory hb, ?_⟩
    rw [plainStep, if_neg fun hc => Bool.false_ne_true hc.2, List.map_append, List.map_append,
      List.map_cons, plainInsert_new h now _ _ hk1 hk2, if_pos rfl, hd]
  | skip l1 l2 old h h1 h2 ho hold =>
    have hk1 := keys_below (fun x hx => hlt x (List.mem_append_left _ hx)) h1
    have hkey := heq old (List.mem_append_right _ List.mem_cons_self) ho
    refine ⟨⟨b, true, false⟩, answers_memory hb, ?_⟩
    rw [plainStep, if_neg fun hc => Bool.false_ne_true hc.2, List.map_append, List.map_cons,
      plainInsert_old h now _ _ hk1 hkey, if_pos hold]
  | update l1 l2 old e h h1 h2 ho hold hfits howns he hd =>
    have hk1 := keys_below (fun x hx => hlt x (List.mem_append_left _ hx)) h1
    have hkey := heq old (List.mem_append_right _ List.mem_cons_self) ho
    refine ⟨⟨true, true, false⟩, answers_memory howns, ?_⟩
    rw [plainStep, if_neg fun hc => Bool.false_ne_true hc.2, List.map_append, List.map_cons,
      plainInsert_old h now _ _ hk1 hkey, if_neg (not_not.mpr hold), if_pos ⟨rfl, hfits⟩,
      List.map_append, List.map_cons, hd]
  | replace l1 l2 old e h h1 h2 ho hold howns he hd =>
    have hk1 := keys_below (fun x hx => hlt x (List.mem_append_left _ hx)) h1
    have hkey := heq old (List.mem_append_right _ List.mem_cons_self) ho
    obtain ⟨owned, hsaid, hcopy⟩ := exists_not_inPlace ⟨b, hb⟩ howns
    refine ⟨⟨owned, true, false⟩, answers_memory hsaid, ?_⟩
    rw [plainStep, if_neg fun hc => Bool.false_ne_true hc.2, List.map_append, List.map_cons,
      plainInsert_old h now _ _ hk1 hkey, if_neg (not_not.mpr hold), if_neg hcopy, if_pos rfl,
      List.map_append, List.map_cons, hd]

end Inserted

section Erased

variable {k : K} {lc lc' : ListCounter} {m m' : List α} {r : InsertResult}

/-- An erase keeps the order. -/
theorem Erased.increasing (h : Erased rank data k lc m r lc' m') (hm : Increasing rank m) :
    Increasing rank m' := by
  cases h with
  | absent => exact hm
  | found => exact increasing_without hm

/-- An erase keeps the counter right. -/
theorem Erased.counts (h : Erased rank data k lc m r lc' m') (hc : Counts lc (m.map data)) :
    Counts lc' (m'.map data) := by
  cases h with
  | absent => exact hc
  | found l1 l2 old h1 h2 ho =>
    rw [List.map_append, List.map_cons] at hc
    rw [List.map_append]
    exact hc.dec rfl

theorem Erased.length_le (h : Erased rank data k lc m r lc' m') : m'.length ≤ m.length := by
  cases h with
  | absent => exact le_rfl
  | found l1 l2 old h1 h2 ho => exact ((List.sublist_cons_self old l2).append_left l1).length_le

/-- An erase that skips changes nothing. -/
theorem Erased.of_skip (h : Erased rank data k lc m r lc' m') (hr : r.status = .SKIP_DELETED) :
    m' = m ∧ lc' = lc := by
  cases h with
  | absent => exact ⟨rfl, rfl⟩
  | found => exact absurd hr Status.noConfusion

/-- An erase adds no entries. -/
theorem Erased.subset (h : Erased rank data k lc m r lc' m') : m' ⊆ m := by
  cases h with
  | absent => exact List.Subset.refl m
  | found l1 l2 old h1 h2 ho => exact ((List.sublist_cons_self old l2).append_left l1).subset

/-- What is done to the entries in the middle is done to all. -/
theorem Erased.context (h : Erased rank data k lc m r lc' m') {a b : List α}
    (ha : ∀ x ∈ a, rank x < k) (hb : ∀ x ∈ b, k < rank x) :
    Erased rank data k lc (a ++ (m ++ b)) r lc' (a ++ (m' ++ b)) := by
  cases h with
  | absent h =>
    refine .absent fun x hx => ?_
    rcases List.mem_append.mp hx with hx | hx
    · exact (ha x hx).ne
    · exact (List.mem_append.mp hx).elim (h x) fun hx => (hb x hx).ne'
  | found l1 l2 old h1 h2 ho =>
    have hcons : a ++ ((l1 ++ old :: l2) ++ b) = (a ++ l1) ++ old :: (l2 ++ b) := by
      simp only [List.append_assoc, List.cons_append]
    have hmid : a ++ ((l1 ++ l2) ++ b) = (a ++ l1) ++ (l2 ++ b) := by
      simp only [List.append_assoc]
    rw [hcons, hmid]
    exact .found _ _ old (fun x hx => (List.mem_append.mp hx).elim (ha x) (h1 x))
      (fun x hx => (List.mem_append.mp hx).elim (h2 x) (hb x)) ho

/-- Where ranks tell the order of keys, an erase is the one of a plain map. -/
theorem Erased.plain {key : Key} (h : Erased rank data k lc m r lc' m')
    (hlt : ∀ x ∈ m, rank x < k → (data x).key < key)
    (heq : ∀ x ∈ m, rank x = k ↔ (data x).key = key) (a : Answer) :
    plainStep (.erase key) a (m.map data) = (some r, m'.map data) := by
  cases h with
  | absent h =>
    have habs : ∀ p ∈ m.map data, p.key ≠ key := List.forall_mem_map.mpr fun x hx hk =>
      h x hx ((heq x hx).mpr hk)
    rw [plainStep, plainErase_absent habs]
  | found l1 l2 old h1 h2 ho =>
    have hk1 := keys_below (fun x hx => hlt x (List.mem_append_left _ hx)) h1
    have hkey := (heq old (List.mem_append_right _ List.mem_cons_self)).mp ho
    rw [plainStep, List.map_append, List.map_cons, plainErase_old hk1 hkey, List.map_append]

end Erased

/-! ## Places -/

/-- A list cut where a rank belongs, and whether an entry has it. -/
structure Cut (rank : α → K) (k : K) (m l1 l2 : List α) (found : Bool) : Prop where
  eq : m = l1 ++ l2
  below : ∀ x ∈ l1, rank x < k
  here : found = true → ∃ e l3, l2 = e :: l3 ∧ rank e = k ∧ ∀ x ∈ l3, k < rank x
  above : found = false → ∀ x ∈ l2, k < rank x

/-- Where a rank was not found there is no entry with it. -/
theorem Cut.absent {k : K} {m l1 l2 : List α} (h : Cut rank k m l1 l2 false) :
    ∀ x ∈ m, rank x ≠ k := fun x hx => by
  rw [h.eq] at hx
  exact (List.mem_append.mp hx).elim (fun hx => (h.below x hx).ne) fun hx => (h.above rfl x hx).ne'

/-- The comparator of a binary search in a list. -/
def comparator (cmp : α → Ordering) (m : List α) : BoundedSearch.Comparator Unit :=
  fun _ i => m[i]?.map fun x => (cmp x, ())

/-- What it finds at a position. -/
def orderAt (cmp : α → Ordering) (m : List α) (i : ℕ) : Ordering := (m[i]?.map cmp).getD .eq

theorem orderAt_eq (cmp : α → Ordering) {m : List α} {i : ℕ} (hi : i < m.length) :
    orderAt cmp m i = cmp m[i] := by
  rw [orderAt, List.getElem?_eq_getElem hi]
  rfl

/-- The positions of a list tell their order. -/
theorem tells_comparator (cmp : α → Ordering) (m : List α) :
    BoundedSearch.Tells (comparator cmp m) (orderAt cmp m) fun _ _ hi => hi ≤ m.length where
  step _ lo hi mid hinv hlo hmid := by
    have hget : m[mid]? = some m[mid] := List.getElem?_eq_getElem (hmid.trans_le hinv)
    refine ⟨(), ?_, fun _ => hinv, fun _ => hmid.le.trans hinv⟩
    rw [comparator, orderAt, hget]
    rfl

/-- A binary search in a list whose ranks increase cuts it. -/
theorem search_spec {m : List α} {k : K} {cmp : α → Ordering} (h : Increasing rank m)
    (hlt : ∀ x, cmp x = .lt ↔ rank x < k) (heq : ∀ x, cmp x = .eq ↔ rank x = k) (md : ℕ) :
    ∃ l1 l2 found, BoundedSearch.binarySearch (comparator cmp m) md () 0 m.length =
      some ⟨found, l1.length⟩ ∧ Cut rank k m l1 l2 found := by
  have hstrict : BoundedSearch.StrictOrder (orderAt cmp m) 0 m.length := by
    intro i j _ hij hj hne
    rw [orderAt_eq cmp (hij.trans hj), Ne, hlt, not_lt] at hne
    have hr : k < rank m[j] := hne.trans_lt (List.pairwise_iff_getElem.mp h i j _ _ hij)
    rw [orderAt_eq cmp hj]
    cases hc : cmp m[j] with
    | lt => exact absurd ((hlt _).mp hc) (lt_asymm hr)
    | eq => exact absurd ((heq _).mp hc) hr.ne'
    | gt => rfl
  obtain ⟨⟨found, pos⟩, e, hloc⟩ := BoundedSearch.binarySearch_locates (tells_comparator cmp m) md
    (Nat.zero_le m.length) hstrict (s := ()) le_rfl
  have hpos : pos ≤ m.length := hloc.le_hi
  refine ⟨m.take pos, m.drop pos, found, ?_, (List.take_append_drop pos m).symm, fun x hx => ?_,
    fun hf => ?_, fun hf x hx => ?_⟩
  · rw [List.length_take, Nat.min_eq_left hpos]
    exact e
  · obtain ⟨i, hi, rfl⟩ := List.mem_take_iff_getElem.mp hx
    have hi' : i < m.length := hi.trans_le (Nat.min_le_right _ _)
    have hb := hloc.below i (Nat.zero_le i) (hi.trans_le (Nat.min_le_left _ _))
    rw [orderAt_eq cmp hi', hlt] at hb
    exact hb
  · obtain ⟨hlast, ho⟩ := hloc.found_iff.mp hf
    have hhere : pos < m.length := hlast
    rw [orderAt_eq cmp hhere, heq] at ho
    refine ⟨m[pos], m.drop (pos + 1), List.drop_eq_getElem_cons hhere, ho, fun x hx => ?_⟩
    obtain ⟨i, hi, rfl⟩ := List.mem_drop_iff_getElem.mp hx
    rw [← ho]
    exact List.pairwise_iff_getElem.mp h pos _ _ _ (by omega)
  · obtain ⟨i, hi', rfl⟩ := List.mem_drop_iff_getElem.mp hx
    have hi : pos + i < m.length := Nat.add_comm i pos ▸ hi'
    have ha := hloc.above (pos + i) (Nat.le_add_right pos i) hi
    rw [orderAt_eq cmp hi, Ne, hlt, not_lt] at ha
    refine lt_of_le_of_ne ha fun hk => ?_
    -- an entry of the rank stands at the place itself
    rcases Nat.eq_zero_or_pos i with rfl | hi0
    · have ho : orderAt cmp m pos = .eq := (orderAt_eq cmp hi).trans ((heq _).mpr hk.symm)
      exact Bool.false_ne_true (hf.symm.trans (hloc.found_iff.mpr ⟨hi, ho⟩))
    · have hp : pos < m.length := (Nat.le_add_right pos i).trans_lt hi
      have hap := hloc.above pos le_rfl hp
      rw [orderAt_eq cmp hp, Ne, hlt, not_lt] at hap
      exact absurd (hap.trans_lt (List.pairwise_iff_getElem.mp h pos (pos + i) _ _ (by omega)))
        hk.not_lt

theorem insertIdx_append_length (l1 l2 : List α) (x : α) :
    (l1 ++ l2).insertIdx l1.length x = l1 ++ x :: l2 := by
  induction l1 with
  | nil => rfl
  | cons y l1 ih => exact congrArg (y :: ·) ih

/-! ## Operations -/

variable (rank data) in
/-- What an operation gives and leaves. A key that is erased is not empty. -/
inductive Stepped (rankOf : Key → K) (owns : Bool → Prop) (fails : Status → Prop) :
    Op → ListCounter → List α → Option InsertResult → ListCounter → List α → Prop
  | insert {factory : Factory} {now : UInt64} {lc lc' : ListCounter} {m m' : List α}
      {r : InsertResult}
      (h : Inserted rank data factory now owns fails (rankOf factory.getKey) lc m r lc' m') :
      Stepped rankOf owns fails (.insert factory now) lc m (some r) lc' m'
  | erase {key : Key} {lc lc' : ListCounter} {m m' : List α} {r : InsertResult} (hk : key ≠ [])
      (h : Erased rank data (rankOf key) lc m r lc' m') :
      Stepped rankOf owns fails (.erase key) lc m (some r) lc' m'
  | clear {lc : ListCounter} {m : List α} :
      Stepped rankOf owns fails .clear lc m none lc.clr []

section Stepped

variable {rankOf : Key → K} {owns : Bool → Prop} {fails : Status → Prop} {op : Op}
  {lc lc' : ListCounter} {m m' : List α} {r : Option InsertResult}

/-- Every operation keeps the order. -/
theorem Stepped.increasing (h : Stepped rank data rankOf owns fails op lc m r lc' m')
    (hm : Increasing rank m) : Increasing rank m' := by
  cases h with
  | insert h => exact h.increasing hm
  | erase hk h => exact h.increasing hm
  | clear => exact List.Pairwise.nil

/-- Every operation keeps the counter right. -/
theorem Stepped.counts (h : Stepped rank data rankOf owns fails op lc m r lc' m')
    (hc : Counts lc (m.map data)) : Counts lc' (m'.map data) := by
  cases h with
  | insert h => exact h.counts hc
  | erase hk h => exact h.counts hc
  | clear => exact hc.clr

/-- An operation without success changes neither the entries nor the counter. -/
theorem Stepped.unchanged (h : Stepped rank data rankOf owns fails op lc m r lc' m')
    {res : InsertResult} (hr : r = some res) (hok : res.ok = false) : m' = m ∧ lc' = lc := by
  cases h with
  | insert h =>
    obtain rfl := Option.some.inj hr
    cases h with
    | invalid => exact ⟨rfl, rfl⟩
    | failed => exact ⟨rfl, rfl⟩
    | skip => exact ⟨rfl, rfl⟩
    | new => exact absurd hok (by simp [InsertResult.ok])
    | update => exact absurd hok (by simp [InsertResult.ok])
    | replace => exact absurd hok (by simp [InsertResult.ok])
  | erase hk h =>
    obtain rfl := Option.some.inj hr
    cases h with
    | absent => exact ⟨rfl, rfl⟩
    | found => exact absurd hok (by simp [InsertResult.ok])
  | clear => exact absurd hr (by simp)

end Stepped

section Update

variable {σ : Type} (allocator : Allocator σ) (s : σ) {factory : Factory}
  (h : factory.valid = true) (now : UInt64) (lc : ListCounter) (old : PairPtr)

variable (rank data) in
/-- The change of a pair that is there, in a list whose entries hold pointers. -/
theorem updatePair_spec {k : K} (fails : Status → Prop) {l1 l2 : List α} {e : α}
    (put : Change → α) (h1 : ∀ x ∈ l1, rank x < k) (h2 : ∀ x ∈ l2, k < rank x) (ho : rank e = k)
    (hd : data e = old.data) (hkeep : put .keep = e)
    (hin : ∀ ptr, ptr.data = factory.createHint h now old.data →
      rank (put (.inPlace ptr)) = k ∧ data (put (.inPlace ptr)) = ptr.data)
    (hre : ∀ ptr, ptr.data = factory.create h now →
      rank (put (.replaced ptr)) = k ∧ data (put (.replaced ptr)) = ptr.data)
    (hf : (allocator.xallocate factory.bytes s).1 = none → fails .ERROR_NO_MEMORY) :
    ∃ r c lc' s', updatePair allocator s factory h now lc old = (r, c, lc', s') ∧
      Inserted rank data factory now (Owns allocator s) fails k lc (l1 ++ e :: l2) r lc'
        (l1 ++ put c :: l2) := by
  unfold updatePair
  by_cases hv : ¬isValidForReplace factory.getCreated old.data
  · rw [if_pos hv]
    refine ⟨_, _, _, _, rfl, ?_⟩
    rw [hkeep]
    exact .skip l1 l2 e h h1 h2 ho (hd ▸ hv)
  · rw [if_neg hv]
    have hold : isValidForReplace factory.getCreated (data e) := hd ▸ not_not.mp hv
    unfold tryUpdateInPlaceLC
    by_cases hown : allocator.owns old.block.addr s = true ∧ factory.bytes ≤ old.data.bytes
    · rw [if_pos hown]
      obtain ⟨hr, hdata⟩ := hin ⟨factory.createHint h now old.data, old.block⟩ rfl
      refine ⟨_, _, _, _, rfl, ?_⟩
      have hstep : Inserted rank data factory now (Owns allocator s) fails k lc (l1 ++ e :: l2) _ _
          (l1 ++ _ :: l2) := .update l1 l2 e _ h h1 h2 ho hold (hd ▸ hown.2) ⟨_, hown.1⟩ hr
        (hdata.trans (congrArg _ hd.symm))
      rw [hdata, hd] at hstep
      exact hstep
    · rw [if_neg hown]
      unfold createPair
      dsimp only
      cases hx : allocator.xallocate factory.bytes s with
      | mk a s1 =>
        cases a with
        | none =>
          refine ⟨_, _, _, _, rfl, ?_⟩
          rw [hkeep]
          exact .failed _ h (hf (congrArg Prod.fst hx))
        | some addr =>
          obtain ⟨hr, hdata⟩ := hre ⟨factory.create h now, ⟨addr, factory.bytes⟩⟩ rfl
          refine ⟨_, _, _, _, rfl, ?_⟩
          have hstep : Inserted rank data factory now (Owns allocator s) fails k lc
              (l1 ++ e :: l2) _ _ (l1 ++ _ :: l2) := .replace l1 l2 e _ h h1 h2 ho hold
            (fun hb => ⟨_, Bool.eq_false_iff.mpr fun ht => hown ⟨ht, hd ▸ hb⟩⟩) hr hdata
          rw [hdata, hd] at hstep
          exact hstep

end Update

/-! ## Entries with numbers -/

section HPair

variable {hkey : α → ℕ} {factory : Factory} {now : UInt64}

/-- The number of the key of a factory stands before a pair that the factory makes. -/
theorem rank_create {a : ℕ} {old : Key} (h : factory.valid = true)
    (ho : HPairRank.rank a old = HPairRank.rankOf factory.getKey) :
    HPairRank.rank a (factory.create h now).key = HPairRank.rankOf factory.getKey := by
  rw [factory.create_key, HPairRank.eq_of_rank_eq ho]
  rfl

/-- A pair that is changed in place keeps its number and its rank: either it has the key, or
the number says that the key does not matter. -/
theorem rank_createHint {a : ℕ} {old : Pair} (h : factory.valid = true)
    (hfits : HPairRank.HkeyFits a old.key)
    (ho : HPairRank.rank a old.key = HPairRank.rankOf factory.getKey) :
    HPairRank.rank a (factory.createHint h now old).key = HPairRank.rankOf factory.getKey ∧
      HPairRank.HkeyFits a (factory.createHint h now old).key := by
  rcases HPairRank.eq_or_of_rank_eq hfits ho with hk | hs
  · rw [factory.createHint_key h now old hk, ← hk]
    exact ⟨ho.trans (congrArg _ hk.symm), hfits⟩
  · refine ⟨?_, .inr hs⟩
    rw [HPairRank.rank_of_sizeCheck hs] at ho ⊢
    exact ho

/-- After an insert all numbers fit. -/
theorem Inserted.fits {owns : Bool → Prop} {fails : Status → Prop} {lc lc' : ListCounter} {m m' : List α}
    {r : InsertResult}
    (h : Inserted (fun x => HPairRank.rank (hkey x) (data x).key) data factory now owns fails
      (HPairRank.rankOf factory.getKey) lc m r lc' m')
    (hm : ∀ x ∈ m, HPairRank.HkeyFits (hkey x) (data x).key) :
    ∀ x ∈ m', HPairRank.HkeyFits (hkey x) (data x).key := by
  have hnew : ∀ (hv : factory.valid = true) (e : α), data e = factory.create hv now →
      HPairRank.rank (hkey e) (data e).key = HPairRank.rankOf factory.getKey →
      HPairRank.HkeyFits (hkey e) (data e).key := fun hv e hd he => by
    left
    rw [HPairRank.eq_of_rank_eq he, hd, factory.create_key]
  have hmid : ∀ (l1 l2 : List α) (e : α), (∀ x ∈ l1, x ∈ m) → (∀ x ∈ l2, x ∈ m) →
      HPairRank.HkeyFits (hkey e) (data e).key →
      ∀ x ∈ l1 ++ e :: l2, HPairRank.HkeyFits (hkey x) (data x).key :=
    fun l1 l2 e h1 h2 he x hx => by
      rcases List.mem_append.mp hx with hx | hx
      · exact hm x (h1 x hx)
      · rcases List.mem_cons.mp hx with rfl | hx
        · exact he
        · exact hm x (h2 x hx)
  have hleft : ∀ (l1 l2 : List α) x, x ∈ l1 → x ∈ l1 ++ l2 := fun l1 l2 x hx =>
    List.mem_append_left l2 hx
  cases h with
  | invalid => exact hm
  | failed => exact hm
  | skip => exact hm
  | new l1 l2 e hv h1 h2 he hd =>
    exact hmid l1 l2 e (hleft l1 _) (fun x hx => List.mem_append_right l1 hx) (hnew hv e hd he)
  | update l1 l2 old e hv h1 h2 ho hold hb howns he hd =>
    refine hmid l1 l2 e (hleft l1 _)
      (fun x hx => List.mem_append_right l1 (List.mem_cons_of_mem old hx)) ?_
    have hfits := hm old (List.mem_append_right l1 List.mem_cons_self)
    have hkey : hkey e = hkey old := HPairRank.eq_of_rank_eq (he.trans ho.symm)
    rw [hd, hkey]
    exact (rank_createHint hv hfits ho).2
  | replace l1 l2 old e hv h1 h2 ho hold howns he hd =>
    exact hmid l1 l2 e (hleft l1 _)
      (fun x hx => List.mem_append_right l1 (List.mem_cons_of_mem old hx)) (hnew hv e hd he)

/-- After every operation all numbers fit. -/
theorem Stepped.fits {owns : Bool → Prop} {fails : Status → Prop} {op : Op} {lc lc' : ListCounter}
    {m m' : List α} {r : Option InsertResult}
    (h : Stepped (fun x => HPairRank.rank (hkey x) (data x).key) data HPairRank.rankOf owns fails op
      lc m r lc' m')
    (hm : ∀ x ∈ m, HPairRank.HkeyFits (hkey x) (data x).key) :
    ∀ x ∈ m', HPairRank.HkeyFits (hkey x) (data x).key := by
  cases h with
  | insert h => exact h.fits hm
  | erase hk h => exact fun x hx => hm x (h.subset hx)
  | clear => exact fun _ hx => absurd hx List.not_mem_nil

end HPair

end HM4.ListSteps
