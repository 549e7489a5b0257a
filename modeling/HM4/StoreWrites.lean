import HM4.MutableX

/-!
# Writes to the store

A flush changes nothing of what is seen. A write puts its pair into the first list, after a flush or
without one, and there it is seen unless a pair of the same key was created later; the other keys
read as before.
-/

namespace HM4.MutableX

open LexPrefix Bytes Pairs PairFactory MemList KeyedList Database Overlay
open ConcurrentFlushList (DualListEraseType)

/-! ## What is seen -/

/-- No pair was created after a reading of the clock. -/
def Timely (now : UInt64) (s : Store) : Prop :=
  ∀ l ∈ s.active :: s.saved :: s.tables, ∀ p ∈ l, p.created ≤ now.toNat

namespace Store

variable {now : UInt64} {s : Store}

theorem increasing_view (s : Store) : Increasing Pair.key s.view :=
  increasing_overlays s.increasing_active _

theorem increasing_lower (s : Store) : ∀ l ∈ s.saved :: s.tables, Increasing Pair.key l :=
  (List.forall_mem_cons.mp s.increasing).2

theorem active_flush (s : Store) : s.flush.active = [] := by
  unfold flush
  split
  · assumption
  · split <;> rfl

/-- A flush changes nothing of what is seen. -/
theorem view_flush (s : Store) : s.flush.view = s.view := by
  have hnil : overlay Pair.key Pair.created [] s.active = s.active :=
    overlay_nil s.increasing_active
  have hfirst : ∀ lowers, overlays Pair.key Pair.created [] (s.active :: lowers) =
      overlays Pair.key Pair.created s.active lowers := fun lowers => by
    rw [overlays, List.foldl_cons, hnil, ← overlays]
  unfold flush
  split
  · rfl
  · split
    · next hsaved =>
      have hview : s.view = overlays Pair.key Pair.created s.active s.tables := by
        rw [view, hsaved]
        rfl
      rw [hview]
      exact hfirst s.tables
    · exact hfirst (s.saved :: s.tables)

theorem timely_flush (h : Timely now s) : Timely now s.flush := by
  unfold flush
  split
  · exact h
  · split
    · have h' := List.forall_mem_cons.mp h
      exact List.forall_mem_cons.mpr ⟨fun _ hp => absurd hp List.not_mem_nil,
        List.forall_mem_cons.mpr ⟨h'.1, (List.forall_mem_cons.mp h'.2).2⟩⟩
    · exact List.forall_mem_cons.mpr ⟨fun _ hp => absurd hp List.not_mem_nil, h⟩

/-- A pair of the present time that is put into the first list is seen. -/
theorem view_withActive_put (h : Timely now s) {p : Pair} (hp : p.created = now.toNat)
    (hm : Increasing Pair.key (put Pair.key p s.active)) :
    (s.withActive (put Pair.key p s.active) hm).view = put Pair.key p s.view :=
  overlays_put s.increasing_active s.increasing_lower fun l hl y hy _ =>
    hp ▸ h l (List.mem_cons_of_mem _ hl) y hy

theorem withActive_congr {m m' : List Pair} (heq : m = m') (hm : Increasing Pair.key m)
    (hm' : Increasing Pair.key m') (s : Store) : s.withActive m hm = s.withActive m' hm' := by
  subst heq
  rfl

end Store

/-! ## One pair -/

/-- A pair lies in one of the lists. -/
def Store.Stored (s : Store) (p : Pair) : Prop := ∃ l ∈ s.active :: s.saved :: s.tables, p ∈ l

/-- No pair of a key was created after a reading of the clock. -/
def TimelyAt (now : UInt64) (key : Key) (s : Store) : Prop :=
  ∀ p, s.Stored p → p.key = key → p.created ≤ now.toNat

/-- A write of one key at a time, and what it leaves there. -/
structure Puts (now : UInt64) (key : Key) (P : Option Pair → Prop) (s s' : Store) : Prop where
  self : P (get key s'.view)
  other : ∀ k, k ≠ key → get k s'.view = get k s.view
  stored : ∀ p, s'.Stored p → s.Stored p ∨ p.key = key ∧ p.created = now.toNat

/-- The pair in which a key is found has a property. -/
def Found (P : Pair → Prop) (o : Option Pair) : Prop := ∃ p, o = some p ∧ P p

/-- No pair is found but a tombstone. -/
def Gone (o : Option Pair) : Prop := ∀ p ∈ o, p.isTombstone = true

section Puts

variable {now : UInt64} {key : Key} {s s' : Store}

theorem Timely.at (h : Timely now s) (key : Key) : TimelyAt now key s :=
  fun p ⟨l, hl, hp⟩ _ => h l hl p hp

theorem stored_flush {p : Pair} (h : s.flush.Stored p) : s.Stored p := by
  unfold Store.flush at h
  split at h
  · exact h
  · obtain ⟨l, hl, hp⟩ := h
    split at hl
    · next hsaved =>
      rcases List.mem_cons.mp hl with rfl | hl
      · exact absurd hp List.not_mem_nil
      · rcases List.mem_cons.mp hl with rfl | hl
        · exact ⟨s.active, List.mem_cons_self, hp⟩
        · exact ⟨l, List.mem_cons_of_mem _ (List.mem_cons_of_mem _ hl), hp⟩
    · rcases List.mem_cons.mp hl with rfl | hl
      · exact absurd hp List.not_mem_nil
      · exact ⟨l, hl, hp⟩

/-- A pair that is put into the first list is seen if no pair of its key is newer. -/
theorem view_withActive_put_at {p : Pair} (h : TimelyAt now p.key s) (hp : p.created = now.toNat)
    (hm : Increasing Pair.key (put Pair.key p s.active)) :
    (s.withActive (put Pair.key p s.active) hm).view = put Pair.key p s.view :=
  overlays_put s.increasing_active s.increasing_lower fun l hl y hy hkey =>
    hp ▸ h y ⟨l, List.mem_cons_of_mem _ hl, hy⟩ hkey

/-- Where a key is written no pair of it is newer then. -/
theorem Puts.timelyAt {P : Option Pair → Prop} (h : Puts now key P s s') {now' : UInt64}
    (hle : now.toNat ≤ now'.toNat) {k : Key} (hs : TimelyAt now' k s) : TimelyAt now' k s' := by
  intro p hp hkey
  rcases h.stored p hp with hold | ⟨-, hnow⟩
  · exact hs p hold hkey
  · exact hnow.le.trans hle

theorem Puts.timely {P : Option Pair → Prop} (h : Puts now key P s s') (hs : Timely now s) :
    Timely now s' := by
  intro l hl p hp
  rcases h.stored p ⟨l, hl, hp⟩ with ⟨l', hl', hold⟩ | ⟨-, hnow⟩
  · exact hs l' hl' p hold
  · exact hnow.le

theorem Puts.mono {P Q : Option Pair → Prop} (h : Puts now key P s s') (hPQ : ∀ o, P o → Q o) :
    Puts now key Q s s' := ⟨hPQ _ h.self, h.other, h.stored⟩

theorem puts_put {P : Option Pair → Prop} {p : Pair} (hkey : p.key = key)
    (hp : p.created = now.toNat) (hP : P (some p)) (hs : TimelyAt now key s) {s0 : Store}
    (h0 : s0 = s ∨ s0 = s.flush) :
    Puts now key P s (s0.withActive (put Pair.key p s0.active) s0.increasing_active.put) := by
  have hold : ∀ q, s0.Stored q → s.Stored q := by
    rcases h0 with rfl | rfl
    · exact fun _ h => h
    · exact fun _ h => stored_flush h
  have hview0 : s0.view = s.view := by
    rcases h0 with rfl | rfl
    · rfl
    · exact s.view_flush
  have hs0 : TimelyAt now p.key s0 := fun q hq heq => hs q (hold q hq) (heq.trans hkey)
  have hview := view_withActive_put_at hs0 hp s0.increasing_active.put
  rw [hview0] at hview
  have hself : get key (put Pair.key p s.view) = some p :=
    hkey ▸ lookup_put_self Pair.key p s.view
  refine ⟨?_, fun k hk => ?_, fun q ⟨l, hl, hq⟩ => ?_⟩
  · rw [hview, hself]
    exact hP
  · rw [hview]
    exact lookup_put_of_ne (fun heq => hk (heq.symm.trans hkey)) s.view
  · rcases List.mem_cons.mp hl with rfl | hl
    · rcases mem_put hq with rfl | hq
      · exact .inr ⟨hkey, hp⟩
      · exact .inl (hold q ⟨s0.active, List.mem_cons_self, hq⟩)
    · exact .inl (hold q ⟨l, List.mem_cons_of_mem _ hl, hq⟩)

/-- What waits for a flush is put into the list that is empty then. -/
theorem insertActive_clone {t : Turn} (hmemory : t.memory = true) (p : Pair) (now : UInt64)
    {s : Store} (hs : s.active = []) (hm : Increasing Pair.key (put Pair.key p s.active)) :
    s.insertActive t (clone p) now = s.withActive (put Pair.key p s.active) hm := by
  refine Store.withActive_congr ?_ _ _ s
  rw [hmemory, hs]
  rfl

section Factory

variable {t : Turn} (hmemory : t.memory = true) {factory : Factory} (h : factory.valid = true)
  (hcreated : factory.getCreated = 0)
include hmemory h hcreated

/-- Where there is memory, an insert puts what its factory leaves. -/
theorem insertActive_eq (now : UInt64) (s : Store) :
    ∃ p : Pair, p.key = factory.getKey ∧ factory.Leaves h now p ∧
      s.insertActive t factory now =
        s.withActive (put Pair.key p s.active) s.increasing_active.put := by
  obtain ⟨p, hkey, hleft, hput⟩ := plainInsert_put h hcreated now t.owned s.active
  rw [← hmemory] at hput
  exact ⟨p, hkey, hleft, Store.withActive_congr hput _ s.increasing_active.put s⟩

@[inherit_doc insertActive_eq]
theorem insertF_eq (now : UInt64) (s : Store) :
    ∃ p : Pair, p.key = factory.getKey ∧ factory.Leaves h now p ∧ ∃ s0 : Store,
      (s0 = s ∨ s0 = s.flush) ∧ s.insertF t factory now =
        s0.withActive (put Pair.key p s0.active) s0.increasing_active.put := by
  unfold Store.insertF
  rw [dif_pos h]
  split
  · exact ⟨factory.create h now, factory.create_key h now, .inl rfl, s.flush, .inr rfl,
      insertActive_clone hmemory _ now s.active_flush _⟩
  · obtain ⟨p, hkey, hleft, heq⟩ := insertActive_eq hmemory h hcreated now s
    exact ⟨p, hkey, hleft, s, .inl rfl, heq⟩

variable {P : Option Pair → Prop}
  (hP : ∀ p, factory.Leaves h now p → p.created = now.toNat ∧ P (some p))
  (hs : TimelyAt now factory.getKey s)
include hP hs

theorem puts_insertActive : Puts now factory.getKey P s (s.insertActive t factory now) := by
  obtain ⟨p, hkey, hleft, heq⟩ := insertActive_eq hmemory h hcreated now s
  obtain ⟨hp, hPp⟩ := hP p hleft
  rw [heq]
  exact puts_put hkey hp hPp hs (.inl rfl)

theorem puts_insertF : Puts now factory.getKey P s (s.insertF t factory now) := by
  obtain ⟨p, hkey, hleft, s0, h0, heq⟩ := insertF_eq hmemory h hcreated now s
  obtain ⟨hp, hPp⟩ := hP p hleft
  rw [heq]
  exact puts_put hkey hp hPp hs h0

theorem puts_insertHint {hint : Pair} (hhint : hint.key = factory.getKey) :
    Puts now factory.getKey P s (s.insertHint t hint factory now) := by
  unfold Store.insertHint
  split
  · obtain ⟨hp, hPp⟩ := hP _ (.inr ⟨hint, hhint, rfl⟩)
    exact puts_put (factory.createHint_key h now hint hhint) hp hPp hs (.inl rfl)
  · exact puts_insertF hmemory h hcreated hP hs

end Factory

/-- Taking the pair out where there is nothing behind the list. -/
theorem puts_eraseActive (htables : s.tables = []) (hsaved : s.saved = []) :
    Puts now key (· = none) s (s.eraseActive key) := by
  have hlower : s.saved :: s.tables = [[]] := by rw [hsaved, htables]
  have hview : s.view = s.active := by
    rw [Store.view, hlower]
    rfl
  have hview' : (s.eraseActive key).view = (plainErase key s.active).2 := by
    change overlays Pair.key Pair.created (plainErase key s.active).2 (s.saved :: s.tables) = _
    rw [hlower]
    rfl
  have hget : ∀ k, get k (plainErase key s.active).2 =
      if k = key then none else get k s.active := fun k => by
    unfold plainErase
    cases hold : get key s.active with
    | none =>
      by_cases hk : k = key
      · rw [if_pos hk, hk, hold]
      · rw [if_neg hk]
    | some old =>
      by_cases hk : k = key
      · rw [if_pos hk, hk]
        exact s.increasing_active.lookup_remove_self
      · rw [if_neg hk]
        exact lookup_remove_of_ne (fun heq => hk heq.symm) s.active
  refine ⟨?_, fun k hk => ?_, fun p ⟨l, hl, hp⟩ => .inl ?_⟩
  · rw [hview', hget, if_pos rfl]
  · rw [hview', hget, if_neg hk, hview]
  · rcases List.mem_cons.mp hl with rfl | hl
    · refine ⟨s.active, List.mem_cons_self, ?_⟩
      change p ∈ (plainErase key s.active).2 at hp
      unfold plainErase at hp
      split at hp
      · exact hp
      · exact mem_of_mem_remove hp
    · exact ⟨l, List.mem_cons_of_mem _ hl, hp⟩

theorem tombstone_left (h : (tombstone key 0).valid = true) (p : Pair)
    (hp : (tombstone key 0).Leaves h now p) : p.created = now.toNat ∧ Gone (some p) := by
  obtain ⟨hdead, hcreated⟩ := tombstone_spec h hp
  exact ⟨hcreated, fun q hq => Option.some.inj hq ▸ hdead⟩

/-- An erase takes the pair out or leaves a tombstone. -/
theorem puts_erase {et : DualListEraseType} (het : et = .TOMBSTONE ∨ et = .SMART_TOMBSTONE)
    {t : Turn} (hmemory : t.memory = true) (hkey : isKeyValid key) (hs : TimelyAt now key s) :
    Puts now key Gone s (s.erase et t key now) := by
  have hvalid : (tombstone key 0).valid = true := decide_eq_true hkey
  have hinsert := puts_insertF hmemory hvalid rfl (tombstone_left hvalid) hs
  rcases het with rfl | rfl
  · exact hinsert
  · unfold Store.erase
    dsimp only
    split
    · next htables =>
      unfold Store.eraseInner
      dsimp only
      split
      · next hsaved =>
        refine (puts_eraseActive htables hsaved).mono fun o ho p hp => ?_
        exact absurd (ho ▸ hp) (Option.not_mem_none p)
      · exact puts_insertActive hmemory hvalid rfl (tombstone_left hvalid) hs
    · exact hinsert

end Puts

end HM4.MutableX
