import HM4.ListSteps

/-!
# Lists beside a plain map

`HPair::cmp` takes some keys for equal and orders others by signed octets. As long as the
first octets of all keys in use decide between them, it orders these keys as a map does,
and a list whose entries stand in its order goes along with the map.
-/

namespace HM4.ListRuns

open LexPrefix Bytes Pairs PairFactory MemList KeyedList HPair HPairRank ListSteps

/-- The key that an operation looks for. -/
def keyOf : Op → Option Key
  | .insert factory _ => if factory.valid = true then some factory.getKey else none
  | .erase key => some key
  | .clear => none

/-- Keys between each two of which the first octets decide. -/
def Decided (keys : Set Key) : Prop := ∀ a ∈ keys, ∀ b ∈ keys, PrefixDecides a b

/-- Operations on some keys, none of which is empty. -/
def On (keys : Set Key) (op : Op) : Prop := ∀ key, keyOf op = some key → key ≠ [] ∧ key ∈ keys

theorem On.keyed {keys : Set Key} {op : Op} (h : On keys op) : Keyed op := by
  cases op with
  | insert factory now => exact trivial
  | erase key => exact (h key rfl).1
  | clear => exact trivial

/-- An allocator that has memory behind everything it has handed out. -/
def growing : Allocator ℕ where
  xallocate size pos := (some pos, pos + size)
  xdeallocate _ pos := pos
  owns _ _ := false
  reset pos := (false, pos)

/-- A write of one octet under a key. -/
def insertOf (key : Key) (b : Byte) : Op := .insert (normal key [b] 0 1) 0

/-- A plain map replaces only the pair of the key. -/
theorem get_of_replaced {factory : Factory} {now : UInt64} {a : Answer} {m : List Pair}
    (h : (plainStep (.insert factory now) a m).1.map InsertResult.status = some .REPLACED) :
    get factory.getKey m ≠ none := fun hget => by
  by_cases hv : factory.valid = true
  · cases hr : a.refused with
    | true =>
      rw [plainStep, if_pos ⟨hv, hr⟩] at h
      exact absurd (Option.some.inj h) Status.noConfusion
    | false =>
      rw [plainStep, if_neg fun hc => Bool.false_ne_true (hr.symm.trans hc.2), plainInsert,
        dif_pos hv, hget] at h
      dsimp only at h
      cases hm : a.memory with
      | true =>
        rw [if_pos hm] at h
        exact absurd (Option.some.inj h) Status.noConfusion
      | false =>
        rw [if_neg fun hc => Bool.false_ne_true (hm.symm.trans hc)] at h
        exact absurd (Option.some.inj h) Status.noConfusion
  · rw [plainStep, if_neg fun hc => hv hc.1, plainInsert_invalid hv] at h
    exact absurd (Option.some.inj h) Status.noConfusion

/-- After a write to an empty map all pairs are those of its key. -/
theorem key_of_first (factory : Factory) (now : UInt64) (a : Answer) :
    ∀ p ∈ (plainStep (.insert factory now) a []).2, p.key = factory.getKey := by
  intro p hp
  by_cases hrefused : factory.valid = true ∧ a.refused = true
  · rw [plainStep, if_pos hrefused] at hp
    exact absurd hp List.not_mem_nil
  · rw [plainStep, if_neg hrefused] at hp
    by_cases hv : factory.valid = true
    · have hnone : ∀ p ∈ ([] : List Pair), p.key < factory.getKey := fun _ hx =>
        absurd hx List.not_mem_nil
      have hnew := plainInsert_new hv now a.owned a.memory hnone
        (fun (p : Pair) (hx : p ∈ []) => absurd hx List.not_mem_nil)
      rw [List.nil_append] at hnew
      simp only [hnew] at hp
      cases hm : a.memory with
      | true =>
        simp only [hm, if_true, List.nil_append, List.mem_singleton] at hp
        rw [hp, factory.create_key hv now]
      | false =>
        simp only [hm, Bool.false_eq_true, if_false, List.not_mem_nil] at hp
    · rw [plainInsert_invalid hv] at hp
      exact absurd hp List.not_mem_nil

/-- A list that replaces the pair of another key does not go along with a plain map. -/
theorem not_together_of_replaced {S : Type*} {step : Op → S → Option (Option InsertResult × S)}
    {answers : S → Op → Answer → Prop} {s : S} {key1 key2 : Key} {b1 b2 : Byte} (hkeys : key1 ≠ key2)
    (h : (step (insertOf key1 b1) s).bind (fun x =>
      (step (insertOf key2 b2) x.2).map fun y => y.1.map InsertResult.status) =
        some (some .REPLACED)) {s' : S} {m' : List Pair} :
    ¬Together step answers s [] [insertOf key1 b1, insertOf key2 b2] s' m' := by
  intro hrun
  cases hrun with
  | @cons _ s1 _ _ m1 _ _ _ r1 a1 _ hlist1 hplain1 hrest =>
    cases hrest with
    | @cons _ s2 _ _ m2 _ _ _ r2 a2 _ hlist2 hplain2 _ =>
      rw [hlist1, Option.bind_some, hlist2, Option.map_some] at h
      have hstatus : (plainStep (insertOf key2 b2) a2 m1).1.map InsertResult.status =
          some .REPLACED := (congrArg (fun x => x.1.map InsertResult.status) hplain2).trans
        (Option.some.inj h)
      refine get_of_replaced hstatus (lookup_eq_none fun p hp => ?_)
      have hp1 : p ∈ (plainStep (insertOf key1 b1) a1 []).2 := hplain1 ▸ hp
      rw [key_of_first _ _ a1 p hp1]
      exact hkeys

variable {α : Type} {hkey : α → ℕ} {data : α → Pair} {keys : Set Key}

/-- Entries with some keys, each under its number. -/
def Known (hkey : α → ℕ) (data : α → Pair) (keys : Set Key) (m : List α) : Prop :=
  ∀ x ∈ m, hkey x = create (data x).key ∧ (data x).key ∈ keys

section Known

variable {m m' : List α} {k : Key}

/-- The ranks of known entries tell the order of their keys. -/
theorem Known.lex_rank (hm : Known hkey data keys m) (hkeys : Decided keys) {x : α} (hx : x ∈ m)
    (hk : k ∈ keys) :
    lex (HPairRank.rank (hkey x) (data x).key) (rankOf k) = lex (data x).key k := by
  rw [(hm x hx).1]
  exact lex_rankOf (hkeys _ (hm x hx).2 k hk)

theorem Known.lt_iff (hm : Known hkey data keys m) (hkeys : Decided keys) {x : α} (hx : x ∈ m)
    (hk : k ∈ keys) :
    HPairRank.rank (hkey x) (data x).key < rankOf k ↔ (data x).key < k := by
  rw [← lex_eq_lt, hm.lex_rank hkeys hx hk, lex_eq_lt]

theorem Known.eq_iff (hm : Known hkey data keys m) (hkeys : Decided keys) {x : α} (hx : x ∈ m)
    (hk : k ∈ keys) :
    HPairRank.rank (hkey x) (data x).key = rankOf k ↔ (data x).key = k := by
  rw [← lex_eq_eq, hm.lex_rank hkeys hx hk, lex_eq_eq]

theorem Known.gt_iff (hm : Known hkey data keys m) (hkeys : Decided keys) {x : α} (hx : x ∈ m)
    (hk : k ∈ keys) :
    rankOf k < HPairRank.rank (hkey x) (data x).key ↔ k < (data x).key := by
  rw [← not_le, ← not_le, le_iff_lt_or_eq, le_iff_lt_or_eq, hm.lt_iff hkeys hx hk,
    hm.eq_iff hkeys hx hk]

/-- The keys of known entries increase. -/
theorem Known.increasing (hm : Known hkey data keys m) (hkeys : Decided keys)
    (h : Increasing (fun x => HPairRank.rank (hkey x) (data x).key) m) :
    Increasing Pair.key (m.map data) := by
  refine List.pairwise_map.mpr (List.Pairwise.imp_of_mem (fun {x y} hx hy hlt => ?_) h)
  have hr : HPairRank.rank (hkey y) (data y).key = rankOf (data y).key := by
    rw [rankOf, (hm y hy).1]
  have hlt' : HPairRank.rank (hkey x) (data x).key < rankOf (data y).key := hr ▸ hlt
  exact (hm.lt_iff hkeys hx (hm y hy).2).mp hlt'

/-- The pairs from a key on. -/
theorem Known.fromKey {l1 l2 : List α} (hm : Known hkey data keys (l1 ++ l2)) (hkeys : Decided keys)
    (hk : k ∈ keys) (h1 : ∀ x ∈ l1, HPairRank.rank (hkey x) (data x).key < rankOf k)
    (h2 : ∀ x ∈ l2, rankOf k ≤ HPairRank.rank (hkey x) (data x).key) :
    KeyedList.fromKey Pair.key k ((l1 ++ l2).map data) = l2.map data := by
  rw [List.map_append]
  refine fromKey_append (List.forall_mem_map.mpr fun x hx => ?_)
    (List.forall_mem_map.mpr fun x hx => ?_)
  · exact (hm.lt_iff hkeys (List.mem_append_left l2 hx) hk).mp (h1 x hx)
  · rw [← not_lt, ← hm.lt_iff hkeys (List.mem_append_right l1 hx) hk, not_lt]
    exact h2 x hx

/-- The pair of a key. -/
theorem Known.get_at {l1 l2 : List α} {x : α} (hm : Known hkey data keys (l1 ++ x :: l2))
    (hkeys : Decided keys) (hk : k ∈ keys)
    (h1 : ∀ x ∈ l1, HPairRank.rank (hkey x) (data x).key < rankOf k)
    (hx : HPairRank.rank (hkey x) (data x).key = rankOf k) :
    get k ((l1 ++ x :: l2).map data) = some (data x) := by
  have hkey := (hm.eq_iff hkeys (List.mem_append_right l1 List.mem_cons_self) hk).mp hx
  rw [List.map_append, List.map_cons]
  refine lookup_at (List.forall_mem_map.mpr fun y hy => ?_) hkey
  exact (hm.lt_iff hkeys (List.mem_append_left _ hy) hk).mp (h1 y hy)

/-- A key without a pair. -/
theorem Known.get_none (hm : Known hkey data keys m) (hkeys : Decided keys) (hk : k ∈ keys)
    (h : ∀ x ∈ m, HPairRank.rank (hkey x) (data x).key ≠ rankOf k) :
    get k (m.map data) = none :=
  lookup_eq_none (List.forall_mem_map.mpr fun x hx hc => h x hx ((hm.eq_iff hkeys hx hk).mpr hc))

variable {factory : Factory} {now : UInt64} {owns : Bool → Prop} {fails : Status → Prop}
  {lc lc' : ListCounter} {r : InsertResult}

/-- After an insert of a known key all entries are known. -/
theorem Known.inserted (hm : Known hkey data keys m) (hkeys : Decided keys)
    (h : Inserted (fun x => HPairRank.rank (hkey x) (data x).key) data factory now owns fails
      (rankOf factory.getKey) lc m r lc' m')
    (hk : factory.valid = true → factory.getKey ∈ keys) : Known hkey data keys m' := by
  have hnew : ∀ (e : α), factory.valid = true → (data e).key = factory.getKey →
      HPairRank.rank (hkey e) (data e).key = rankOf factory.getKey →
      hkey e = create (data e).key ∧ (data e).key ∈ keys := fun e hv hkey he =>
    ⟨by rw [eq_of_rank_eq he, hkey], hkey ▸ hk hv⟩
  have hmid : ∀ (l1 l2 : List α) (e : α), (∀ x ∈ l1, x ∈ m) → (∀ x ∈ l2, x ∈ m) →
      (hkey e = create (data e).key ∧ (data e).key ∈ keys) →
      Known hkey data keys (l1 ++ e :: l2) := fun l1 l2 e h1 h2 he x hx => by
    rcases List.mem_append.mp hx with hx | hx
    · exact hm x (h1 x hx)
    · rcases List.mem_cons.mp hx with rfl | hx
      · exact he
      · exact hm x (h2 x hx)
  have hleft : ∀ (l1 l2 : List α) x, x ∈ l1 → x ∈ l1 ++ l2 := fun l1 l2 x hx =>
    List.mem_append_left l2 hx
  cases h with
  | invalid => exact hm
  | failed => exact hm
  | skip => exact hm
  | new l1 l2 e hv h1 h2 he hd =>
    exact hmid l1 l2 e (hleft l1 _) (fun x hx => List.mem_append_right l1 hx)
      (hnew e hv (hd ▸ factory.create_key hv now) he)
  | update l1 l2 old e hv h1 h2 ho hold hb howns he hd =>
    have hmem : old ∈ l1 ++ old :: l2 := List.mem_append_right l1 List.mem_cons_self
    have hkey := (hm.eq_iff hkeys hmem (hk hv)).mp ho
    exact hmid l1 l2 e (hleft l1 _)
      (fun x hx => List.mem_append_right l1 (List.mem_cons_of_mem old hx))
      (hnew e hv (hd ▸ factory.createHint_key hv now _ hkey) he)
  | replace l1 l2 old e hv h1 h2 ho hold howns he hd =>
    exact hmid l1 l2 e (hleft l1 _)
      (fun x hx => List.mem_append_right l1 (List.mem_cons_of_mem old hx))
      (hnew e hv (hd ▸ factory.create_key hv now) he)

end Known

/-- An operation on known keys is the one on a plain map. -/
theorem Known.stepped {m m' : List α} {owns : Bool → Prop} {refused : Prop} {op : Op}
    {lc lc' : ListCounter} {r : Option InsertResult} (hm : Known hkey data keys m)
    (hkeys : Decided keys)
    (h : Stepped (fun x => HPairRank.rank (hkey x) (data x).key) data rankOf owns
      (NoMemory refused) op lc m r lc' m')
    (hany : ∃ b, owns b) (hop : On keys op) :
    ∃ a, Answers owns refused a ∧ plainStep op a (m.map data) = (r, m'.map data) ∧
      Known hkey data keys m' := by
  cases h with
  | @insert factory now _ _ _ _ r h =>
    have hk : factory.valid = true → factory.getKey ∈ keys := fun hv =>
      (hop factory.getKey (if_pos hv)).2
    have hknown := hm.inserted hkeys h hk
    by_cases hv : factory.valid = true
    · obtain ⟨a, ha, hplain⟩ := h.plain hany
        (fun x hx => (hm.lt_iff hkeys hx (hk hv)).mp) (fun x hx => (hm.eq_iff hkeys hx (hk hv)).mp)
        (fun x hx => (hm.gt_iff hkeys hx (hk hv)).mp)
      exact ⟨a, ha, hplain, hknown⟩
    · obtain ⟨b, hb⟩ := hany
      obtain ⟨rfl, rfl⟩ := h.of_invalid hv
      refine ⟨⟨b, true, false⟩, answers_memory hb, ?_, hknown⟩
      rw [plainStep, if_neg fun hc => hv hc.1, plainInsert_invalid hv]
  | @erase key _ _ _ _ r hk h =>
    obtain ⟨b, hb⟩ := hany
    have hmem := (hop key rfl).2
    refine ⟨⟨b, true, false⟩, answers_memory hb, ?_, fun x hx => hm x (h.subset hx)⟩
    exact h.plain (fun x hx => (hm.lt_iff hkeys hx hmem).mp) (fun x hx => hm.eq_iff hkeys hx hmem) _
  | clear =>
    obtain ⟨b, hb⟩ := hany
    exact ⟨⟨b, true, false⟩, answers_memory hb, rfl, fun _ hx => absurd hx List.not_mem_nil⟩

end HM4.ListRuns
