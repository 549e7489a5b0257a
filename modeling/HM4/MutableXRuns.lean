import HM4.StoreWrites

/-!
# What a change of a range leaves

A flush changes nothing of what is seen, and a write puts its pair over everything that is not
newer. So each pass of a command does the same to the same keys, whatever was flushed between, and
only the key from where to go on depends on it.
-/

namespace HM4.MutableX

open LexPrefix Bytes Pairs PairFactory MemList KeyedList Database Overlay
open AccumulateResults (StopPrefixPredicate takeWhile_eq_filter)
open ConcurrentFlushList (DualListEraseType)

/-! ## Writes -/

/-- What a write leaves of a pair: its value with an expiration, or nothing but a tombstone. -/
def Carries (r : Option UInt32) (now : UInt64) (q : Pair) (o : Option Pair) : Prop :=
  match r with
  | some exp => o = some (withTimes q exp now)
  | none => ∀ p ∈ o, p.isTombstone = true

/-- What a predicate asks for: an expiration, or that the pair is erased. -/
def Predicate.request (now : UInt64) : Predicate → Option UInt32
  | delete => none
  | persist => some 0
  | expire expires => some expires
  | expireAt time =>
    if time.toNat ≤ now32 now then none else some (UInt32.ofNat (time.toNat - now32 now))

/-- `process` by what is asked for. -/
theorem Predicate.process_eq (env : Env) (t : Turn) (hint : Pair) (s : Store) (p : Predicate) :
    p.process env t hint s =
      match p.request env.now with
      | none => s.erase env.et t hint.key env.now
      | some exp => s.insertF t (normal hint.key hint.val exp 0) env.now := by
  cases p with
  | delete => rfl
  | persist => rfl
  | expire expires => rfl
  | expireAt time =>
    by_cases h : time.toNat ≤ now32 env.now
    · rw [request, if_pos h]
      exact if_pos h
    · rw [request, if_neg h]
      exact if_neg h

/-- `processHint` by what is asked for. -/
theorem Predicate.processHint_eq (env : Env) (hint : Pair) (s : Store) (p : Predicate) :
    p.processHint env hint s =
      match p.request env.now with
      | none => s.insertHint (env.hint hint.key) hint (tombstone hint.key 0) env.now
      | some exp =>
        s.insertHint (env.hint hint.key) hint (expires hint.key hint.val exp 0) env.now := by
  cases p with
  | delete => rfl
  | persist => rfl
  | expire expires => rfl
  | expireAt time =>
    by_cases h : time.toNat ≤ now32 env.now
    · rw [request, if_pos h]
      exact if_pos h
    · rw [request, if_neg h]
      exact if_neg h

/-- The pair of the key is taken out, and no tombstone is needed. -/
def Direct (et : DualListEraseType) (r : Option UInt32) (s : Store) : Prop :=
  et = .SMART_TOMBSTONE ∧ s.tables = [] ∧ r = none

/-- What the write of one pair does. -/
structure Wrote (et : DualListEraseType) (r : Option UInt32) (now : UInt64) (q : Pair)
    (s s' : Store) : Prop where
  timely : Timely now s'
  self : Carries r now q (get q.key s'.view)
  other : ∀ k, k ≠ q.key → get k s'.view = get k s.view
  version : s'.version = s.version ∨ s'.version = s.version + 1
  direct : Direct et r s → s'.version = s.version
  tables : s'.version = s.version → s'.tables = s.tables
  keys : ¬Direct et r s → s'.view.map Pair.key = s.view.map Pair.key

/-- Putting a pair of a key that is there changes no keys. -/
theorem map_key_put {m : List Pair} {p q : Pair} (hm : Increasing Pair.key m) (hkey : p.key = q.key)
    (hq : get q.key m = some q) : (put Pair.key p m).map Pair.key = m.map Pair.key := by
  obtain ⟨l1, l2, rfl, h1, h2⟩ := hm.exists_cut p.key
  have hmem : q ∈ l1 ++ l2 := mem_of_lookup hq
  cases l2 with
  | nil =>
    have hlt := h1 q ((List.append_nil l1) ▸ hmem)
    exact absurd hlt (hkey ▸ lt_irrefl _)
  | cons y l2 =>
    have hy : p.key = y.key := by
      rcases List.mem_append.mp hmem with hm1 | hm2
      · exact absurd (h1 q hm1) (hkey ▸ lt_irrefl _)
      · have hle := h2 y List.mem_cons_self
        rcases List.mem_cons.mp hm2 with rfl | hm2
        · exact hkey
        · have hlt := (Increasing.cons_iff.mp (Increasing.append_iff.mp hm).2.1).1 q hm2
          exact absurd (hlt.trans_le (hkey ▸ hle)) (lt_irrefl _)
    rw [put_same h1 hy.symm, List.map_append, List.map_append, List.map_cons, List.map_cons, hy]

section Wrote

variable {et : DualListEraseType} {r : Option UInt32} {now : UInt64} {q : Pair} {s : Store}

/-- A pair is put into the first list, after a flush or without. -/
theorem wrote_put (hs : Timely now s) (hq : get q.key s.view = some q) (p : Pair)
    (hkey : p.key = q.key) (hp : p.created = now.toNat) (hcarries : Carries r now q (some p))
    {s0 : Store} (h0 : s0 = s ∨ s0 = s.flush ∧ ¬Direct et r s) :
    Wrote et r now q s (s0.withActive (put Pair.key p s0.active) s0.increasing_active.put) := by
  have hputs := puts_put hkey hp hcarries (hs.at q.key) (h0.imp_right And.left)
  have hs0 : Timely now s0 ∧ s0.view = s.view := by
    rcases h0 with rfl | ⟨rfl, _⟩
    · exact ⟨hs, rfl⟩
    · exact ⟨Store.timely_flush hs, s.view_flush⟩
  refine ⟨hputs.timely hs, hputs.self, hputs.other, ?_, fun hd => ?_, fun hv => ?_, fun _ => ?_⟩
  · rcases h0 with rfl | ⟨rfl, _⟩
    · exact .inl rfl
    · change s.flush.version = s.version ∨ s.flush.version = s.version + 1
      unfold Store.flush
      split
      · exact .inl rfl
      · split
        · exact .inr rfl
        · exact .inr rfl
  · rcases h0 with rfl | ⟨_, hnot⟩
    · rfl
    · exact absurd hd hnot
  · rcases h0 with rfl | ⟨rfl, _⟩
    · rfl
    · change s.flush.tables = s.tables
      change s.flush.version = s.version at hv
      unfold Store.flush at hv ⊢
      split
      · rfl
      · next hne =>
        rw [if_neg hne] at hv
        split at hv
        · exact absurd hv (Nat.succ_ne_self _)
        · exact absurd hv (Nat.succ_ne_self _)
  · rw [Store.view_withActive_put hs0.1 hp, hs0.2]
    exact map_key_put s.increasing_view hkey hq

theorem carries_none {p : Pair} (h : p.isTombstone = true) : Carries none now q (some p) :=
  fun _ hx => Option.some.inj hx ▸ h

theorem carries_some (exp : UInt32) : Carries (some exp) now q (some (withTimes q exp now)) := rfl

/-- An insert of the same value with another expiration. -/
theorem wrote_insertF_normal {t : Turn} (hmemory : t.memory = true) (hs : Timely now s)
    (hq : get q.key s.view = some q) (exp : UInt32) :
    Wrote et (some exp) now q s (s.insertF t (normal q.key q.val exp 0) now) := by
  have hvalid : (normal q.key q.val exp 0).valid = true := decide_eq_true ⟨q.keyValid, q.valValid⟩
  have hnot : ¬Direct et (some exp) s := fun h => Option.some_ne_none exp h.2.2
  obtain ⟨p, hkey, hleft, s0, h0, heq⟩ := insertF_eq hmemory hvalid rfl now s
  obtain rfl := normal_leaves hleft
  rw [heq]
  exact wrote_put hs hq ((normal q.key q.val exp 0).create hvalid now) rfl rfl (carries_some exp)
    (h0.imp_right fun h => ⟨h, hnot⟩)

/-- An insert of a tombstone. -/
theorem wrote_insertActive_tombstone {t : Turn} (hmemory : t.memory = true) (hs : Timely now s)
    (hq : get q.key s.view = some q) :
    Wrote et none now q s (s.insertActive t (tombstone q.key 0) now) := by
  have hvalid : (tombstone q.key 0).valid = true := decide_eq_true q.keyValid
  obtain ⟨p, hkey, hleft, heq⟩ := insertActive_eq hmemory hvalid rfl now s
  obtain ⟨hdead, hp⟩ := tombstone_spec hvalid hleft
  rw [heq]
  exact wrote_put hs hq p hkey hp (carries_none hdead) (.inl rfl)

@[inherit_doc wrote_insertActive_tombstone]
theorem wrote_insertF_tombstone {t : Turn} (hmemory : t.memory = true) (hs : Timely now s)
    (hq : get q.key s.view = some q) (hnot : ¬Direct et none s) :
    Wrote et none now q s (s.insertF t (tombstone q.key 0) now) := by
  have hvalid : (tombstone q.key 0).valid = true := decide_eq_true q.keyValid
  obtain ⟨p, hkey, hleft, s0, h0, heq⟩ := insertF_eq hmemory hvalid rfl now s
  obtain ⟨hdead, hp⟩ := tombstone_spec hvalid hleft
  rw [heq]
  exact wrote_put hs hq p hkey hp (carries_none hdead) (h0.imp_right fun h => ⟨h, hnot⟩)

/-- Taking the pair out where there is nothing behind the list. -/
theorem wrote_eraseActive (hs : Timely now s) (hdirect : Direct et none s) (hsaved : s.saved = []) :
    Wrote et none now q s (s.eraseActive q.key) := by
  have hputs := @puts_eraseActive now q.key s hdirect.2.1 hsaved
  refine ⟨hputs.timely hs, ?_, hputs.other, .inl rfl, fun _ => rfl, fun _ => rfl,
    fun hnot => absurd hdirect hnot⟩
  rw [hputs.self]
  exact fun p hp => absurd hp (Option.not_mem_none p)

/-- An erase. -/
theorem wrote_erase (het : et = .TOMBSTONE ∨ et = .SMART_TOMBSTONE) {t : Turn}
    (hmemory : t.memory = true) (hs : Timely now s) (hq : get q.key s.view = some q) :
    Wrote et none now q s (s.erase et t q.key now) := by
  rcases het with rfl | rfl
  · exact wrote_insertF_tombstone hmemory hs hq fun h => DualListEraseType.noConfusion h.1
  · unfold Store.erase
    dsimp only
    split
    · next htables =>
      have hdirect : Direct .SMART_TOMBSTONE none s := ⟨rfl, htables, rfl⟩
      unfold Store.eraseInner
      dsimp only
      split
      · next hsaved => exact wrote_eraseActive hs hdirect hsaved
      · exact wrote_insertActive_tombstone hmemory hs hq
    · next htables => exact wrote_insertF_tombstone hmemory hs hq fun h => htables h.2.1

end Wrote

/-- Where each write finds memory, `process` writes what is asked for. -/
theorem Predicate.wrote_process {env : Env} (het : env.et = .TOMBSTONE ∨ env.et = .SMART_TOMBSTONE)
    {t : Turn} (hmemory : t.memory = true) (p : Predicate) {s : Store} (hs : Timely env.now s)
    {q : Pair} (hq : get q.key s.view = some q) :
    Wrote env.et (p.request env.now) env.now q s (p.process env t q s) := by
  rw [p.process_eq]
  cases p.request env.now with
  | none => exact wrote_erase het hmemory hs hq
  | some exp => exact wrote_insertF_normal hmemory hs hq exp

/-- A pair of the first list is changed where it lies. -/
theorem Predicate.wrote_processHint {env : Env} (p : Predicate) {s : Store}
    (hs : Timely env.now s) {q : Pair} (hq : get q.key s.view = some q) :
    Wrote env.et (p.request env.now) env.now q s (p.processHint env q s) ∧
      (p.processHint env q s).version = s.version ∧
      (p.processHint env q s).view.map Pair.key = s.view.map Pair.key := by
  rw [p.processHint_eq]
  cases p.request env.now with
  | none =>
    have hvalid : (tombstone q.key 0).valid = true := decide_eq_true q.keyValid
    have hbytes : (tombstone q.key 0).bytes ≤ q.bytes := Nat.le_add_right _ _
    have hmark : (0xFFFFFFFF : UInt32).toNat = expiresTombstone := by decide
    have hexp : ((tombstone q.key 0).createHint hvalid env.now q).expires =
      (0xFFFFFFFF : UInt32).toNat := rfl
    dsimp only
    unfold Store.insertHint
    rw [dif_pos ⟨hvalid, hbytes⟩]
    refine ⟨wrote_put hs hq ((tombstone q.key 0).createHint hvalid env.now q) rfl rfl
      (carries_none ((isTombstone_iff _).mpr (.inl (hexp.trans hmark)))) (.inl rfl), rfl, ?_⟩
    rw [Store.view_withActive_put hs rfl]
    exact map_key_put (q := q) s.increasing_view rfl hq
  | some exp =>
    have hvalid : (expires q.key q.val exp 0).valid = true :=
      decide_eq_true ⟨q.keyValid, q.valValid⟩
    have hbytes : (expires q.key q.val exp 0).bytes ≤ q.bytes := le_rfl
    dsimp only
    unfold Store.insertHint
    rw [dif_pos ⟨hvalid, hbytes⟩]
    refine ⟨wrote_put hs hq (withTimes q exp env.now) rfl rfl (carries_some exp) (.inl rfl), rfl,
      ?_⟩
    rw [Store.view_withActive_put hs rfl]
    exact map_key_put (q := q) s.increasing_view rfl hq

/-! ## One walk -/

/-- What a call leaves of a key: its pair, or what the request makes of it. -/
def Kept (r : Option UInt32) (now : UInt64) (m m' : List Pair) (k : Key) : Prop :=
  get k m' = get k m ∨ ∃ q, get k m = some q ∧ isOK now q = true ∧ Carries r now q (get k m')

/-- The pairs that a walk looks at, from some number of iterations on. -/
def scope (stop : Key → Bool) (iterations : ℕ) (it : List Pair) : List Pair :=
  (it.takeWhile fun q => !stop q.key).take (ITERATIONS_PROCESS_X - iterations)

/-- The key where a walk gives up. -/
def beyond (stop : Key → Bool) (iterations : ℕ) (it : List Pair) : Key :=
  (((it.takeWhile fun q => !stop q.key).drop (ITERATIONS_PROCESS_X - iterations)).head?.map
    Pair.key).getD []

section Scope

variable {stop : Key → Bool} {iterations : ℕ} {q : Pair} (it : List Pair)

theorem takeWhile_of_stop (h : stop q.key = true) :
    ((q :: it).takeWhile fun q => !stop q.key) = [] := by
  rw [List.takeWhile_cons, h, Bool.not_true, if_neg Bool.false_ne_true]

theorem takeWhile_of_not_stop (h : ¬stop q.key = true) :
    ((q :: it).takeWhile fun q => !stop q.key) = q :: it.takeWhile fun q => !stop q.key := by
  rw [List.takeWhile_cons, Bool.eq_false_iff.mpr h, Bool.not_false, if_pos rfl]

theorem scope_beyond_of_stop (h : stop q.key = true) :
    scope stop iterations (q :: it) = [] ∧ beyond stop iterations (q :: it) = [] := by
  rw [scope, beyond, takeWhile_of_stop it h, List.take_nil, List.drop_nil]
  exact ⟨rfl, rfl⟩

theorem scope_beyond_of_lt (h : ¬stop q.key = true) (hi : ITERATIONS_PROCESS_X < iterations + 1) :
    scope stop iterations (q :: it) = [] ∧ beyond stop iterations (q :: it) = q.key := by
  have hzero : ITERATIONS_PROCESS_X - iterations = 0 := by omega
  rw [scope, beyond, takeWhile_of_not_stop it h, hzero, List.take_zero, List.drop_zero]
  exact ⟨rfl, rfl⟩

theorem scope_beyond_cons (h : ¬stop q.key = true)
    (hi : ¬ITERATIONS_PROCESS_X < iterations + 1) :
    scope stop iterations (q :: it) = q :: scope stop (iterations + 1) it ∧
      beyond stop iterations (q :: it) = beyond stop (iterations + 1) it := by
  have hsucc : ITERATIONS_PROCESS_X - iterations =
      ITERATIONS_PROCESS_X - (iterations + 1) + 1 := by omega
  rw [scope, beyond, takeWhile_of_not_stop it h, hsucc, List.take_succ_cons, List.drop_succ_cons]
  exact ⟨rfl, rfl⟩

end Scope

section Walk

variable {env : Env} {p : Predicate} {stop : Key → Bool}

/-- What the walk does. -/
structure Scanned (env : Env) (p : Predicate) (seen : List Pair) (s : Store) (scan : Scan) :
    Prop where
  timely : Timely env.now scan.store
  version : scan.store.version = s.version
  tables : scan.store.tables = s.tables
  keys : scan.store.view.map Pair.key = s.view.map Pair.key
  outside : ∀ k, (∀ q ∈ seen, q.key ≠ k) → get k scan.store.view = get k s.view
  sublist : scan.container.Sublist seen
  live : ∀ q ∈ scan.container, isOK env.now q = true
  waiting : ∀ q ∈ scan.container, get q.key scan.store.view = some q
  done : ∀ q ∈ seen, isOK env.now q = true → q ∈ scan.container ∨
    Carries (p.request env.now) env.now q (get q.key scan.store.view)
  dead : ∀ q ∈ seen, isOK env.now q = false → get q.key scan.store.view = some q

/-- A walk that sees nothing. -/
theorem scanned_nil (hs : Timely env.now s) (key : Key) : Scanned env p [] s ⟨key, [], s⟩ where
  timely := hs
  version := rfl
  tables := rfl
  keys := rfl
  outside := fun _ _ => rfl
  sublist := List.Sublist.refl _
  live := fun _ hq => absurd hq List.not_mem_nil
  waiting := fun _ hq => absurd hq List.not_mem_nil
  done := fun _ hq => absurd hq List.not_mem_nil
  dead := fun _ hq => absurd hq List.not_mem_nil

/-- The live pairs that are seen are changed in place or collected, up to the key where the walk
gives up. -/
theorem scan_spec {iterations : ℕ} {it : List Pair} {s : Store} (hs : Timely env.now s)
    (hit : Increasing Pair.key it) (hview : ∀ q ∈ it, get q.key s.view = some q) :
    Scanned env p (scope stop iterations it) s
        (scanKeysAndProcessInPlace env p stop iterations it s) ∧
      (scanKeysAndProcessInPlace env p stop iterations it s).key = beyond stop iterations it := by
  induction it generalizing iterations s with
  | nil =>
    have hnil : scope stop iterations [] = [] := List.take_nil
    rw [hnil]
    exact ⟨scanned_nil hs [], by rw [beyond, List.takeWhile_nil, List.drop_nil]; rfl⟩
  | cons q it ih =>
    obtain ⟨hlt, hit'⟩ := Increasing.cons_iff.mp hit
    obtain ⟨hq, hrest⟩ := List.forall_mem_cons.mp hview
    unfold scanKeysAndProcessInPlace
    by_cases hstop : stop q.key = true
    · obtain ⟨hscope, hbeyond⟩ := @scope_beyond_of_stop stop iterations q it hstop
      rw [if_pos hstop, hscope, hbeyond]
      exact ⟨scanned_nil hs [], rfl⟩
    · rw [if_neg hstop]
      by_cases hi : ITERATIONS_PROCESS_X < iterations + 1
      · obtain ⟨hscope, hbeyond⟩ := scope_beyond_of_lt it hstop hi
        rw [if_pos hi, hscope, hbeyond]
        exact ⟨scanned_nil hs q.key, rfl⟩
      · obtain ⟨hscope, hbeyond⟩ := scope_beyond_cons it hstop hi
        rw [if_neg hi, hscope, hbeyond]
        have hbehind : ∀ x ∈ scope stop (iterations + 1) it, x.key ≠ q.key := fun x hx =>
          (hlt x ((List.takeWhile_sublist _).subset ((List.take_sublist _ _).subset hx))).ne'
        by_cases hok : isOK env.now q = true
        · rw [if_neg (not_not.mpr hok)]
          by_cases hown : env.canInsertHint s q = true
          · -- the pair is changed in place
            rw [if_pos hown]
            obtain ⟨hwrote, hversion, hkeys⟩ := p.wrote_processHint hs hq
            obtain ⟨h, hkey⟩ := @ih (iterations + 1) _ hwrote.timely hit' fun x hx => by
              rw [hwrote.other x.key (hlt x hx).ne']
              exact hrest x hx
            refine ⟨⟨h.timely, h.version.trans hversion,
              h.tables.trans (hwrote.tables hversion), h.keys.trans hkeys, fun k hk => ?_,
              h.sublist.cons q, h.live, h.waiting, fun x hx hxok => ?_, fun x hx hxok => ?_⟩, hkey⟩
            · obtain ⟨hkq, hk'⟩ := List.forall_mem_cons.mp hk
              rw [h.outside k hk', hwrote.other k hkq.symm]
            · rcases List.mem_cons.mp hx with rfl | hx
              · right
                rw [h.outside x.key hbehind]
                exact hwrote.self
              · exact h.done x hx hxok
            · rcases List.mem_cons.mp hx with rfl | hx
              · exact absurd (hxok.symm.trans hok) Bool.false_ne_true
              · exact h.dead x hx hxok
          · rw [if_neg hown]
            obtain ⟨h, hkey⟩ := @ih (iterations + 1) _ hs hit' hrest
            refine ⟨⟨h.timely, h.version, h.tables, h.keys,
              fun k hk => h.outside k (List.forall_mem_cons.mp hk).2, h.sublist.cons_cons q,
              List.forall_mem_cons.mpr ⟨hok, h.live⟩,
              List.forall_mem_cons.mpr ⟨?_, h.waiting⟩, fun x hx hxok => ?_,
              fun x hx hxok => ?_⟩, hkey⟩
            · rw [h.outside q.key hbehind]
              exact hq
            · rcases List.mem_cons.mp hx with rfl | hx
              · exact .inl List.mem_cons_self
              · exact (h.done x hx hxok).imp_left (List.mem_cons_of_mem q)
            · rcases List.mem_cons.mp hx with rfl | hx
              · exact absurd (hxok.symm.trans hok) Bool.false_ne_true
              · exact h.dead x hx hxok
        · -- a dead pair is passed
          rw [if_pos hok]
          obtain ⟨h, hkey⟩ := @ih (iterations + 1) _ hs hit' hrest
          refine ⟨⟨h.timely, h.version, h.tables, h.keys,
            fun k hk => h.outside k (List.forall_mem_cons.mp hk).2, h.sublist.cons q, h.live,
            h.waiting, fun x hx hxok => ?_, fun x hx hxok => ?_⟩, hkey⟩
          · rcases List.mem_cons.mp hx with rfl | hx
            · exact absurd hxok hok
            · exact h.done x hx hxok
          · rcases List.mem_cons.mp hx with rfl | hx
            · rw [h.outside x.key hbehind]
              exact hq
            · exact h.dead x hx hxok

/-! ## What was collected -/

/-- What the writes of some pairs do. -/
structure Written (env : Env) (p : Predicate) (container : List Pair) (s s' : Store) : Prop where
  timely : Timely env.now s'
  outside : ∀ k, (∀ q ∈ container, q.key ≠ k) → get k s'.view = get k s.view
  kept : ∀ q ∈ container, get q.key s'.view = some q ∨
    Carries (p.request env.now) env.now q (get q.key s'.view)

/-- The writes up to the first that flushes the list. -/
theorem processContainer_spec (het : env.et = .TOMBSTONE ∨ env.et = .SMART_TOMBSTONE)
    (hmemory : ∀ n, (env.turn n).memory = true) {container : List Pair} {n : ℕ} {s : Store}
    (hs : Timely env.now s) (hc : Increasing Pair.key container)
    (hview : ∀ q ∈ container, get q.key s.view = some q) :
    ∃ flushed n' s', processContainer env p container n s = (flushed, n', s') ∧
      Written env p container s s' ∧
      (flushed = false → s'.version = s.version ∧ ∀ q ∈ container,
        Carries (p.request env.now) env.now q (get q.key s'.view)) ∧
      (flushed = true → s'.version = s.version + 1 ∧
        s'.view.map Pair.key = s.view.map Pair.key ∧ ¬Direct env.et (p.request env.now) s) := by
  induction container generalizing n s with
  | nil =>
    exact ⟨false, n, s, rfl, ⟨hs, fun _ _ => rfl, fun _ hq => absurd hq List.not_mem_nil⟩,
      fun _ => ⟨rfl, fun _ hq => absurd hq List.not_mem_nil⟩, fun h => Bool.noConfusion h⟩
  | cons x container ih =>
    obtain ⟨hlt, hc'⟩ := Increasing.cons_iff.mp hc
    obtain ⟨hx, hrest⟩ := List.forall_mem_cons.mp hview
    have hw := p.wrote_process het (hmemory n) hs hx
    have hother : ∀ q ∈ container,
        get q.key (p.process env (env.turn n) x s).view = some q := fun q hq =>
      (hw.other q.key (hlt q hq).ne').trans (hrest q hq)
    unfold processContainer
    dsimp only
    by_cases hversion : s.version ≠ (p.process env (env.turn n) x s).version
    · have hsucc := hw.version.resolve_left hversion.symm
      have hnot : ¬Direct env.et (p.request env.now) s := fun h => hversion (hw.direct h).symm
      rw [if_pos hversion]
      refine ⟨true, n + 1, _, rfl, ⟨hw.timely, fun k hk => ?_, fun q hq => ?_⟩,
        fun h => Bool.noConfusion h,
        fun _ => ⟨hsucc, hw.keys hnot, hnot⟩⟩
      · exact hw.other k (hk x List.mem_cons_self).symm
      · rcases List.mem_cons.mp hq with rfl | hq
        · exact .inr hw.self
        · exact .inl (hother q hq)
    · rw [if_neg hversion]
      have heq := (not_ne_iff.mp hversion).symm
      obtain ⟨flushed, n', s', hrun, hwritten, hdone, hflushed⟩ :=
        @ih (n + 1) _ hw.timely hc' hother
      have hself : get x.key s'.view = get x.key (p.process env (env.turn n) x s).view :=
        hwritten.outside x.key fun q hq => (hlt q hq).ne'
      refine ⟨flushed, n', s', hrun, ⟨hwritten.timely, fun k hk => ?_,
        List.forall_mem_cons.mpr ⟨.inr (hself ▸ hw.self), hwritten.kept⟩⟩, fun h => ?_,
        fun h => ?_⟩
      · obtain ⟨hkx, hk'⟩ := List.forall_mem_cons.mp hk
        exact (hwritten.outside k hk').trans (hw.other k hkx.symm)
      · obtain ⟨hv, hcarries⟩ := hdone h
        exact ⟨hv.trans heq, List.forall_mem_cons.mpr ⟨hself ▸ hw.self, hcarries⟩⟩
      · -- where pairs are taken out directly, no later write flushes
        obtain ⟨hv, hkeys, hnot⟩ := hflushed h
        have hnot' : ¬Direct env.et (p.request env.now) s := fun hd =>
          hnot ⟨hd.1, (hw.tables heq).trans hd.2.1, hd.2.2⟩
        exact ⟨hv.trans (congrArg (· + 1) heq), hkeys.trans (hw.keys hnot'), hnot'⟩

/-- The writes of the pairs whose keys were copied. -/
theorem eraseContainer_spec (het : env.et = .TOMBSTONE ∨ env.et = .SMART_TOMBSTONE)
    (hmemory : ∀ n, (env.turn n).memory = true) {container : List Pair} {s : Store}
    (hs : Timely env.now s) (hc : Increasing Pair.key container)
    (hview : ∀ q ∈ container, get q.key s.view = some q) :
    Written env p container s (eraseContainer env p container s) ∧
      ∀ q ∈ container, Carries (p.request env.now) env.now q
        (get q.key (eraseContainer env p container s).view) := by
  unfold eraseContainer
  generalize 0 = n
  induction container generalizing n s with
  | nil =>
    exact ⟨⟨hs, fun _ _ => rfl, fun _ hq => absurd hq List.not_mem_nil⟩,
      fun _ hq => absurd hq List.not_mem_nil⟩
  | cons x container ih =>
    obtain ⟨hlt, hc'⟩ := Increasing.cons_iff.mp hc
    obtain ⟨hx, hrest⟩ := List.forall_mem_cons.mp hview
    have hw := p.wrote_process het (hmemory n) hs hx
    obtain ⟨h, hcarries⟩ := ih hw.timely hc' (fun q hq =>
      (hw.other q.key (hlt q hq).ne').trans (hrest q hq)) (n + 1)
    have hself := h.outside x.key fun q hq => (hlt q hq).ne'
    rw [List.foldl_cons]
    refine ⟨⟨h.timely, fun k hk => ?_,
      List.forall_mem_cons.mpr ⟨.inr (hself ▸ hw.self), h.kept⟩⟩,
      List.forall_mem_cons.mpr ⟨hself ▸ hw.self, hcarries⟩⟩
    obtain ⟨hkx, hk'⟩ := List.forall_mem_cons.mp hk
    exact (h.outside k hk').trans (hw.other k hkx.symm)

/-! ## A pass -/

/-- What a walk and the writes behind it do. -/
structure Passed (env : Env) (p : Predicate) (seen m : List Pair) (s' : Store) : Prop where
  timely : Timely env.now s'
  outside : ∀ k, (∀ q ∈ seen, q.key ≠ k) → get k s'.view = get k m
  live : ∀ q ∈ seen, isOK env.now q = true → get q.key s'.view = some q ∨
    Carries (p.request env.now) env.now q (get q.key s'.view)
  dead : ∀ q ∈ seen, isOK env.now q = false → get q.key s'.view = some q

section Pass

variable {seen : List Pair} {s s' : Store} {scan : Scan}

/-- Of what is seen, only what was collected is written. -/
theorem Scanned.not_written (h : Scanned env p seen s scan) (hseen : Increasing Pair.key seen)
    (hw : Written env p scan.container scan.store s') {q : Pair} (hq : q ∈ seen)
    (hnot : q ∉ scan.container) : get q.key s'.view = get q.key scan.store.view :=
  hw.outside q.key fun _ hx heq => hnot (hseen.eq_of_mem (h.sublist.subset hx) hq heq ▸ hx)

theorem Scanned.passed (h : Scanned env p seen s scan) (hseen : Increasing Pair.key seen)
    (hw : Written env p scan.container scan.store s') : Passed env p seen s.view s' where
  timely := hw.timely
  outside := fun k hk =>
    (hw.outside k fun q hq => hk q (h.sublist.subset hq)).trans (h.outside k hk)
  live := fun q hq hok => by
    by_cases hin : q ∈ scan.container
    · exact hw.kept q hin
    · rw [h.not_written hseen hw hq hin]
      exact .inr ((h.done q hq hok).resolve_left hin)
  dead := fun q hq hok => by
    have hnot : q ∉ scan.container := fun hin =>
      absurd (hok.symm.trans (h.live q hin)) Bool.false_ne_true
    rw [h.not_written hseen hw hq hnot]
    exact h.dead q hq hok

/-- If all that was collected is written, then each live pair that is seen is changed. -/
theorem Scanned.carries (h : Scanned env p seen s scan) (hseen : Increasing Pair.key seen)
    (hw : Written env p scan.container scan.store s')
    (hall : ∀ q ∈ scan.container, Carries (p.request env.now) env.now q (get q.key s'.view))
    {q : Pair} (hq : q ∈ seen) (hok : isOK env.now q = true) :
    Carries (p.request env.now) env.now q (get q.key s'.view) := by
  by_cases hin : q ∈ scan.container
  · exact hall q hin
  · rw [h.not_written hseen hw hq hin]
    exact (h.done q hq hok).resolve_left hin

end Pass

/-- The pairs that a pass from some key on looks at. -/
def seenFrom (stop : Key → Bool) (key : Key) (m : List Pair) : List Pair :=
  scope stop 0 (fromKey Pair.key key m)

theorem seenFrom_sublist (stop : Key → Bool) (key : Key) (m : List Pair) :
    (seenFrom stop key m).Sublist m :=
  ((List.take_sublist _ _).trans (List.takeWhile_sublist _)).trans (List.dropWhile_sublist _)

theorem increasing_seenFrom {m : List Pair} (hm : Increasing Pair.key m) (stop : Key → Bool)
    (key : Key) : Increasing Pair.key (seenFrom stop key m) :=
  hm.sublist (seenFrom_sublist stop key m)

section Keys

variable {m m' : List Pair} (h : m.map Pair.key = m'.map Pair.key) (key : Key)
include h

theorem map_key_fromKey :
    (fromKey Pair.key key m).map Pair.key = (fromKey Pair.key key m').map Pair.key := by
  rw [map_fromKey, map_fromKey, h]

theorem map_key_takeWhile :
    ((fromKey Pair.key key m).takeWhile fun q => !stop q.key).map Pair.key =
      ((fromKey Pair.key key m').takeWhile fun q => !stop q.key).map Pair.key := by
  have htake : ∀ l : List Pair, (l.takeWhile fun q => !stop q.key).map Pair.key =
      (l.map Pair.key).takeWhile fun k => !stop k := fun l => by
    rw [List.takeWhile_map]
    rfl
  rw [htake, htake, map_key_fromKey h]

/-- Which keys a pass sees depends on the keys alone. -/
theorem map_key_seenFrom :
    (seenFrom stop key m).map Pair.key = (seenFrom stop key m').map Pair.key := by
  have hmap := @map_key_takeWhile stop m m' h key
  unfold seenFrom scope
  rw [List.map_take, List.map_take, hmap]

@[inherit_doc map_key_seenFrom]
theorem beyond_fromKey :
    beyond stop 0 (fromKey Pair.key key m) = beyond stop 0 (fromKey Pair.key key m') := by
  have hmap := @map_key_takeWhile stop m m' h key
  unfold beyond
  rw [← List.head?_map, ← List.head?_map, List.map_drop, List.map_drop, hmap]

end Keys

/-- Before the first pass. -/
theorem passed_start (stop : Key → Bool) (key : Key) {s : Store} (hs : Timely env.now s) :
    Passed env p (seenFrom stop key s.view) s.view s :=
  have hget : ∀ q ∈ seenFrom stop key s.view, get q.key s.view = some q := fun _ hq =>
    s.increasing_view.lookup_of_mem ((seenFrom_sublist stop key s.view).subset hq)
  ⟨hs, fun _ _ => rfl, fun q hq _ => .inl (hget q hq), fun _ hq _ => hget _ hq⟩

section Again

variable {m0 : List Pair} {key : Key} {s s' : Store}

/-- A pass over what another left. -/
theorem Passed.again (h : Passed env p (seenFrom stop key m0) m0 s)
    (hkeys : s.view.map Pair.key = m0.map Pair.key) {q0 : Pair} (hq0 : q0 ∈ seenFrom stop key m0) :
    ∃ q ∈ seenFrom stop key s.view, q.key = q0.key ∧
      (isOK env.now q0 = false → q = q0) ∧
      (isOK env.now q0 = true → q = q0 ∨
        isOK env.now q = true ∧ (∀ o, o = some q ∨ Carries (p.request env.now) env.now q o →
          Carries (p.request env.now) env.now q0 o) ∨
        isOK env.now q = false ∧ Carries (p.request env.now) env.now q0 (some q)) := by
  have hmem : q0.key ∈ (seenFrom stop key s.view).map Pair.key := by
    rw [map_key_seenFrom hkeys key]
    exact List.mem_map_of_mem hq0
  obtain ⟨q, hq, hkey⟩ := List.mem_map.mp hmem
  have hget : get q0.key s.view = some q := hkey ▸
    s.increasing_view.lookup_of_mem ((seenFrom_sublist stop key s.view).subset hq)
  refine ⟨q, hq, hkey, fun hok => ?_, fun hok => ?_⟩
  · exact Option.some.inj (hget.symm.trans (h.dead q0 hq0 hok))
  · rcases h.live q0 hq0 hok with hsame | hcarries
    · exact .inl (Option.some.inj (hget.symm.trans hsame))
    · right
      rw [hget] at hcarries
      cases hr : p.request env.now with
      | none =>
        rw [hr] at hcarries
        exact .inr ⟨isOK_of_isTombstone (hcarries q rfl) env.now, hcarries⟩
      | some exp =>
        rw [hr] at hcarries
        obtain rfl : q = withTimes q0 exp env.now := Option.some.inj hcarries
        -- an expiration may be the mark of a tombstone
        cases hqok : isOK env.now (withTimes q0 exp env.now) with
        | false => exact .inr ⟨rfl, hcarries⟩
        | true =>
          refine .inl ⟨rfl, fun o ho => ?_⟩
          rcases ho with rfl | ho
          · rfl
          · exact ho

/-- What two passes leave is what one may leave. -/
theorem Passed.trans (h : Passed env p (seenFrom stop key m0) m0 s)
    (hkeys : s.view.map Pair.key = m0.map Pair.key)
    (h' : Passed env p (seenFrom stop key s.view) s.view s') :
    Passed env p (seenFrom stop key m0) m0 s' where
  timely := h'.timely
  outside := fun k hk => by
    have hk' : ∀ q ∈ seenFrom stop key s.view, q.key ≠ k := fun q hq heq => by
      have hmem : k ∈ (seenFrom stop key m0).map Pair.key := by
        rw [← map_key_seenFrom hkeys key, ← heq]
        exact List.mem_map_of_mem hq
      obtain ⟨q0, hq0, heq0⟩ := List.mem_map.mp hmem
      exact hk q0 hq0 heq0
    exact (h'.outside k hk').trans (h.outside k hk)
  live := fun q0 hq0 hok => by
    obtain ⟨q, hq, hkey, -, hlive⟩ := h.again hkeys hq0
    rw [← hkey]
    rcases hlive hok with rfl | ⟨hqok, hcarries⟩ | ⟨hqok, hcarries⟩
    · exact h'.live q hq hok
    · exact .inr (hcarries _ (h'.live q hq hqok))
    · rw [h'.dead q hq hqok]
      exact .inr hcarries
  dead := fun q0 hq0 hok => by
    obtain ⟨q, hq, hkey, hdead, -⟩ := h.again hkeys hq0
    obtain rfl := hdead hok
    exact h'.dead q hq hok

/-- If the last pass changes all live pairs that it sees, they are all changed. -/
theorem Passed.carries (h : Passed env p (seenFrom stop key m0) m0 s)
    (hkeys : s.view.map Pair.key = m0.map Pair.key)
    (h' : Passed env p (seenFrom stop key s.view) s.view s')
    (hall : ∀ q ∈ seenFrom stop key s.view, isOK env.now q = true →
      Carries (p.request env.now) env.now q (get q.key s'.view)) {q0 : Pair}
    (hq0 : q0 ∈ seenFrom stop key m0) (hok : isOK env.now q0 = true) :
    Carries (p.request env.now) env.now q0 (get q0.key s'.view) := by
  obtain ⟨q, hq, hkey, -, hlive⟩ := h.again hkeys hq0
  rw [← hkey]
  rcases hlive hok with rfl | ⟨hqok, hcarries⟩ | ⟨hqok, hcarries⟩
  · exact hall q hq hok
  · exact hcarries _ (.inr (hall q hq hqok))
  · rw [h'.dead q hq hqok]
    exact hcarries

/-- One of the passes. -/
theorem pass_spec (het : env.et = .TOMBSTONE ∨ env.et = .SMART_TOMBSTONE)
    (hmemory : ∀ n, (env.turn n).memory = true) (n : ℕ)
    (h : Passed env p (seenFrom stop key m0) m0 s)
    (hkeys : s.view.map Pair.key = m0.map Pair.key) {scan : Scan}
    (hscan : scanKeysAndProcessInPlace env p stop 0 (find key s) s = scan) :
    ∃ flushed n' s', processContainer env p scan.container n scan.store = (flushed, n', s') ∧
      Passed env p (seenFrom stop key m0) m0 s' ∧
      scan.key = beyond stop 0 (fromKey Pair.key key m0) ∧
      (flushed = false → s'.version = s.version ∧ ∀ q ∈ seenFrom stop key m0,
        isOK env.now q = true → Carries (p.request env.now) env.now q (get q.key s'.view)) ∧
      (flushed = true → s'.version = s.version + 1 ∧
        s'.view.map Pair.key = m0.map Pair.key) := by
  have hseen := increasing_seenFrom s.increasing_view stop key
  obtain ⟨hscanned, hkey⟩ := @scan_spec env p stop 0 (find key s) s h.timely
    s.increasing_view.fromKey fun q hq => s.increasing_view.lookup_of_mem
      ((List.dropWhile_sublist _).subset hq)
  rw [hscan] at hscanned hkey
  obtain ⟨flushed, n', s', hrun, hwritten, hdone, hflushed⟩ := @processContainer_spec env p het
    hmemory scan.container n scan.store hscanned.timely (hseen.sublist hscanned.sublist)
    hscanned.waiting
  have hpassed := hscanned.passed hseen hwritten
  refine ⟨flushed, n', s', hrun, h.trans hkeys hpassed,
    hkey.trans (beyond_fromKey hkeys key), fun hf => ?_, fun hf => ?_⟩
  · obtain ⟨hversion, hall⟩ := hdone hf
    exact ⟨hversion.trans hscanned.version, fun q hq hok => h.carries hkeys hpassed
      (fun x hx hxok => hscanned.carries hseen hwritten hall hx hxok) hq hok⟩
  · obtain ⟨hversion, hsame, -⟩ := hflushed hf
    exact ⟨hversion.trans (congrArg (· + 1) hscanned.version),
      hsame.trans (hscanned.keys.trans hkeys)⟩

/-- The passes end without a flush, or with the last of them. -/
theorem processPasses_spec (het : env.et = .TOMBSTONE ∨ env.et = .SMART_TOMBSTONE)
    (hmemory : ∀ n, (env.turn n).memory = true)
    {passes : ℕ} {n : ℕ} (h : Passed env p (seenFrom stop key m0) m0 s)
    (hkeys : s.view.map Pair.key = m0.map Pair.key) :
    ∃ k s', processPasses env p stop key (passes + 1) n s = (k, s') ∧
      Passed env p (seenFrom stop key m0) m0 s' ∧
      (s'.version < s.version + (passes + 1) ∧ k = beyond stop 0 (fromKey Pair.key key m0) ∧
          (∀ q ∈ seenFrom stop key m0, isOK env.now q = true →
            Carries (p.request env.now) env.now q (get q.key s'.view)) ∨
        s'.version = s.version + (passes + 1) ∧ k = scanForLastKey env.now stop 0 (find key s') ∧
          s'.view.map Pair.key = m0.map Pair.key) := by
  induction passes generalizing n s with
  | zero =>
    obtain ⟨flushed, n', s', hrun, hpassed, hkey, hdone, hflushed⟩ :=
      pass_spec het hmemory n h hkeys rfl
    unfold processPasses
    dsimp only
    rw [hrun]
    dsimp only
    cases flushed with
    | false =>
      obtain ⟨hversion, hall⟩ := hdone rfl
      exact ⟨_, s', rfl, hpassed, .inl ⟨hversion ▸ Nat.lt_succ_self _, hkey, hall⟩⟩
    | true =>
      obtain ⟨hversion, hsame⟩ := hflushed rfl
      exact ⟨_, s', rfl, hpassed, .inr ⟨hversion, rfl, hsame⟩⟩
  | succ passes ih =>
    obtain ⟨flushed, n', s1, hrun, hpassed, hkey, hdone, hflushed⟩ :=
      pass_spec het hmemory n h hkeys rfl
    unfold processPasses
    dsimp only
    rw [hrun]
    dsimp only
    cases flushed with
    | false =>
      obtain ⟨hversion, hall⟩ := hdone rfl
      exact ⟨_, s1, rfl, hpassed, .inl ⟨by omega, hkey, hall⟩⟩
    | true =>
      obtain ⟨hversion, hsame⟩ := hflushed rfl
      obtain ⟨k, s', hrun', hpassed', hend⟩ := @ih s1 n' hpassed hsame
      refine ⟨k, s', hrun', hpassed', hend.imp (fun ⟨hlt, hrest⟩ => ⟨by omega, hrest⟩)
        fun ⟨heq, hrest⟩ => ⟨by omega, hrest⟩⟩

end Again

/-- The one pass of the deletes, and the key where it gives up. -/
theorem processBig_spec {key : Key} {s : Store}
    (het : env.et = .TOMBSTONE ∨ env.et = .SMART_TOMBSTONE)
    (hmemory : ∀ n, (env.turn n).memory = true) (hs : Timely env.now s) :
    (∀ k, (processBig env p stop key s).1 = some k →
      k = beyond stop 0 (fromKey Pair.key key s.view)) ∧
      Passed env p (seenFrom stop key s.view) s.view (processBig env p stop key s).2 ∧
      ∀ q ∈ seenFrom stop key s.view, isOK env.now q = true →
        Carries (p.request env.now) env.now q (get q.key (processBig env p stop key s).2.view) := by
  have hseen := increasing_seenFrom s.increasing_view stop key
  obtain ⟨hscanned, hkey⟩ := @scan_spec env p stop 0 (find key s) s hs
    s.increasing_view.fromKey fun q hq => s.increasing_view.lookup_of_mem
      ((List.dropWhile_sublist _).subset hq)
  obtain ⟨hwritten, hall⟩ := @eraseContainer_spec env p het hmemory _ _ hscanned.timely
    (hseen.sublist hscanned.sublist) hscanned.waiting
  refine ⟨fun k hk => ?_, hscanned.passed hseen hwritten,
    fun q hq hok => hscanned.carries hseen hwritten hall hq hok⟩
  unfold processBig at hk
  dsimp only at hk
  split at hk
  · rw [← Option.some.inj hk, hkey]
    rfl
  · exact absurd hk.symm (Option.some_ne_none k)

end Walk

/-! ## The key from where to go on -/

section Last

variable {now : UInt64} {stop : Key → Bool}

/-- The pairs that a walk looks at are those below the key where it gives up. -/
theorem mem_scope_iff {it : List Pair} (hit : Increasing Pair.key it) {q : Pair}
    (hq : q ∈ it.takeWhile fun q => !stop q.key) :
    q ∈ scope stop 0 it ↔ beyond stop 0 it = [] ∨ q.key < beyond stop 0 it := by
  have hsplit := List.take_append_drop (ITERATIONS_PROCESS_X - 0)
    (it.takeWhile fun q => !stop q.key)
  have hinc : Increasing Pair.key (it.takeWhile fun q => !stop q.key) :=
    hit.sublist (List.takeWhile_sublist _)
  rw [← hsplit] at hq hinc
  obtain ⟨-, hinc2, hlt⟩ := Increasing.append_iff.mp hinc
  unfold scope beyond
  cases hdrop : (it.takeWhile fun q => !stop q.key).drop (ITERATIONS_PROCESS_X - 0) with
  | nil =>
    rw [hdrop, List.append_nil] at hq
    exact iff_of_true hq (.inl rfl)
  | cons x rest =>
    rw [hdrop] at hq hinc2 hlt
    have hne : x.key ≠ [] := x.key_ne_nil
    refine ⟨fun h => .inr (hlt q h x List.mem_cons_self), fun h => ?_⟩
    have hbelow : q.key < x.key := h.resolve_left hne
    refine (List.mem_append.mp hq).resolve_right fun hin => ?_
    rcases List.mem_cons.mp hin with rfl | hin
    · exact lt_irrefl _ hbelow
    · exact hbelow.asymm ((Increasing.cons_iff.mp hinc2).1 q hin)

/-- All pairs below the key that the last scan finds are dead. -/
theorem scanForLastKey_spec {iterations : ℕ} {it : List Pair} (hit : Increasing Pair.key it)
    {q : Pair} (hq : q ∈ it.takeWhile fun q => !stop q.key)
    (hbelow : scanForLastKey now stop iterations it = [] ∨
      q.key < scanForLastKey now stop iterations it) : isOK now q = false := by
  induction it generalizing iterations with
  | nil => exact absurd hq List.not_mem_nil
  | cons x it ih =>
    obtain ⟨hlt, hit'⟩ := Increasing.cons_iff.mp hit
    have hself : ∀ {k : Key}, k = x.key → (k = [] ∨ q.key < k) → isOK now q = false := by
      rintro k rfl hk
      have hqx : q.key < x.key := hk.resolve_left x.key_ne_nil
      rcases List.mem_cons.mp ((List.takeWhile_sublist _).subset hq) with rfl | hin
      · exact absurd hqx (lt_irrefl _)
      · exact absurd hqx (hlt q hin).asymm
    unfold scanForLastKey at hbelow
    by_cases hstop : stop x.key = true
    · rw [takeWhile_of_stop it hstop] at hq
      exact absurd hq List.not_mem_nil
    · rw [if_neg hstop] at hbelow
      rw [takeWhile_of_not_stop it hstop] at hq
      split at hbelow
      · exact hself rfl hbelow
      · split at hbelow
        · next hdead =>
          rcases List.mem_cons.mp hq with rfl | hin
          · exact Bool.eq_false_iff.mpr hdead
          · exact ih hit' hin hbelow
        · exact hself rfl hbelow

end Last

/-! ## The commands -/

/-- What a command that returns a key leaves. -/
structure Exact (env : Env) (p : Predicate) (stop : Key → Bool) (start k : Key) (s s' : Store) :
    Prop where
  /-- The live pairs of the range below the key are changed. -/
  done : ∀ q ∈ s.view, isOK env.now q = true → start ≤ q.key → stop q.key = false →
    (k = [] ∨ q.key < k) → Carries (p.request env.now) env.now q (get q.key s'.view)
  /-- Whatever is not a live pair of the range reads as before. -/
  other : ∀ key, (∀ q, get key s.view = some q → isOK env.now q = true → start ≤ key →
    stop key = true) → get key s'.view = get key s.view
  /-- A pair is changed as a whole or reads as before. -/
  either : ∀ key, Kept (p.request env.now) env.now s.view s'.view key
  /-- The pairs from the key on are not processed, unless the passes ran out. -/
  behind : p.BIG_BUFFER = true ∨ s'.version < s.version + PASSES_PROCESS_X → k ≠ [] →
    ∀ key, k ≤ key → get key s'.view = get key s.view

/-- No pair lies between the start and a prefix behind it. -/
def Stop.Opens (start : Key) (s : Store) : Stop → Prop
  | prefixed pre => ∀ q ∈ s.view, start ≤ q.key → pre ≤ q.key
  | range _ => True

section Command

variable {env : Env} {p : Predicate} {start k : Key} {s s' : Store}

/-- Once a walk has stopped there are no more pairs of the range. -/
theorem Stop.mem_takeWhile {stop : Stop} (hopens : stop.Opens start s) {q : Pair}
    (hq : q ∈ s.view) (hstart : start ≤ q.key) (hnot : stop.stops q.key = false) :
    q ∈ (find start s).takeWhile fun q => !stop.stops q.key := by
  have hinc : Increasing Pair.key (find start s) := s.increasing_view.fromKey
  have hgone : (find start s).Pairwise fun x y =>
      (!stop.stops y.key) = true → (!stop.stops x.key) = true := by
    refine hinc.imp_of_mem fun {x y} hx _ hlt hy => ?_
    obtain ⟨hxview, hxstart⟩ := s.increasing_view.mem_fromKey.mp hx
    cases stop with
    | prefixed pre =>
      have hpre : pre <+: y.key := by
        simpa only [stops, StopPrefixPredicate, Bool.not_not, decide_eq_true_eq] using hy
      have hle : pre ≤ x.key := hopens x hxview hxstart
      have hprex : pre <+: x.key := by
        by_contra hnotpre
        exact Queue.not_isPrefix_of_lt hle hnotpre hlt.le hpre
      simpa only [stops, StopPrefixPredicate, Bool.not_not, decide_eq_true_eq] using hprex
    | range keyEnd =>
      have hle : y.key ≤ keyEnd := by
        simpa only [stops, Bool.not_eq_true', decide_eq_false_iff_not, not_lt] using hy
      simpa only [stops, Bool.not_eq_true', decide_eq_false_iff_not, not_lt] using hlt.le.trans hle
  rw [takeWhile_eq_filter hgone]
  exact List.mem_filter.mpr ⟨s.increasing_view.mem_fromKey.mpr ⟨hq, hstart⟩, by rw [hnot]; rfl⟩

section Passed

variable {stop : Key → Bool}

/-- What is seen lies in the range. -/
theorem range_of_mem_seenFrom {m : List Pair} (hm : Increasing Pair.key m) {q : Pair}
    (hq : q ∈ seenFrom stop start m) : start ≤ q.key ∧ stop q.key = false := by
  have htake := (List.take_sublist _ _).subset hq
  have hnot := List.all_eq_true.mp List.all_takeWhile q htake
  exact ⟨(hm.mem_fromKey.mp ((List.takeWhile_sublist _).subset htake)).2, by simpa using hnot⟩

/-- What is not a live pair of the range is left. -/
theorem Passed.other (h : Passed env p (seenFrom stop start s.view) s.view s') {key : Key}
    (hkey : ∀ q, get key s.view = some q → isOK env.now q = true → start ≤ key →
      stop key = true) : get key s'.view = get key s.view := by
  by_cases hseen : ∃ q ∈ seenFrom stop start s.view, q.key = key
  · obtain ⟨q, hq, rfl⟩ := hseen
    have hget : get q.key s.view = some q :=
      s.increasing_view.lookup_of_mem ((seenFrom_sublist stop start s.view).subset hq)
    obtain ⟨hstart, hnot⟩ := range_of_mem_seenFrom s.increasing_view hq
    have hdead : isOK env.now q = false := by
      by_contra hok
      have hstop := hkey q hget (Bool.not_eq_false _ ▸ hok) hstart
      exact absurd (hnot.symm.trans hstop) Bool.false_ne_true
    rw [h.dead q hq hdead, hget]
  · exact h.outside key fun q hq heq => hseen ⟨q, hq, heq⟩

/-- A pair is changed as a whole or is left. -/
theorem Passed.either (h : Passed env p (seenFrom stop start s.view) s.view s') (key : Key) :
    Kept (p.request env.now) env.now s.view s'.view key := by
  by_cases hlive : ∃ q ∈ seenFrom stop start s.view, q.key = key ∧ isOK env.now q = true
  · obtain ⟨q, hq, rfl, hok⟩ := hlive
    have hget : get q.key s.view = some q :=
      s.increasing_view.lookup_of_mem ((seenFrom_sublist stop start s.view).subset hq)
    rcases h.live q hq hok with hsame | hcarries
    · exact .inl (hsame.trans hget.symm)
    · exact .inr ⟨q, hget, hok, hcarries⟩
  · left
    by_cases hseen : ∃ q ∈ seenFrom stop start s.view, q.key = key
    · obtain ⟨q, hq, rfl⟩ := hseen
      have hget : get q.key s.view = some q :=
        s.increasing_view.lookup_of_mem ((seenFrom_sublist stop start s.view).subset hq)
      have hdead : isOK env.now q = false := Bool.eq_false_iff.mpr fun hok =>
        hlive ⟨q, hq, rfl, hok⟩
      rw [h.dead q hq hdead, hget]
    · exact h.outside key fun q hq heq => hseen ⟨q, hq, heq⟩

/-- From the key on where the walk gives up nothing is changed. -/
theorem Passed.behind (h : Passed env p (seenFrom stop start s.view) s.view s')
    (hk : beyond stop 0 (fromKey Pair.key start s.view) ≠ []) {key : Key}
    (hle : beyond stop 0 (fromKey Pair.key start s.view) ≤ key) :
    get key s'.view = get key s.view := by
  refine h.outside key fun q hq heq => ?_
  have htake := (List.take_sublist _ _).subset hq
  have hbelow := ((mem_scope_iff s.increasing_view.fromKey htake).mp hq).resolve_left hk
  exact absurd (hbelow.trans_le (heq ▸ hle)) (lt_irrefl _)

end Passed

/-- A call that ends with a whole pass. -/
theorem exact_of_carries {stop : Stop} (hopens : stop.Opens start s)
    (h : Passed env p (seenFrom stop.stops start s.view) s.view s')
    (hall : ∀ q ∈ seenFrom stop.stops start s.view, isOK env.now q = true →
      Carries (p.request env.now) env.now q (get q.key s'.view)) :
    Exact env p stop.stops start (beyond stop.stops 0 (fromKey Pair.key start s.view)) s s' where
  done := fun q hq hok hstart hnot hbelow => by
    have htake := Stop.mem_takeWhile hopens hq hstart hnot
    exact hall q ((mem_scope_iff s.increasing_view.fromKey htake).mpr hbelow) hok
  other := fun _ hkey => h.other hkey
  either := h.either
  behind := fun _ hk _ hle => h.behind hk hle

/-- A call of which the last pass was broken off. -/
theorem exact_of_scan {stop : Stop} (hopens : stop.Opens start s) (hsmall : p.BIG_BUFFER = false)
    (h : Passed env p (seenFrom stop.stops start s.view) s.view s')
    (hversion : s'.version = s.version + PASSES_PROCESS_X)
    (hkeys : s'.view.map Pair.key = s.view.map Pair.key) :
    Exact env p stop.stops start (scanForLastKey env.now stop.stops 0 (find start s')) s s' where
  done := fun q hq hok hstart hnot hbelow => by
    have hmem : q.key ∈ ((find start s').takeWhile fun q => !stop.stops q.key).map Pair.key := by
      have hmap := @map_key_takeWhile stop.stops _ _ hkeys start
      rw [find, hmap]
      exact List.mem_map_of_mem (Stop.mem_takeWhile hopens hq hstart hnot)
    obtain ⟨q', hq', heq⟩ := List.mem_map.mp hmem
    have hinc : Increasing Pair.key (find start s') := s'.increasing_view.fromKey
    have hdead := scanForLastKey_spec hinc hq' (heq ▸ hbelow)
    have hget' : get q.key s'.view = some q' := heq ▸ s'.increasing_view.lookup_of_mem
      ((List.dropWhile_sublist _).subset ((List.takeWhile_sublist _).subset hq'))
    have hget : get q.key s.view = some q := s.increasing_view.lookup_of_mem hq
    rcases h.either q.key with hsame | ⟨x, hx, -, hcarries⟩
    · obtain rfl : q' = q := Option.some.inj (hget'.symm.trans (hsame.trans hget))
      exact absurd (hdead.symm.trans hok) Bool.false_ne_true
    · obtain rfl : x = q := Option.some.inj (hx.symm.trans hget)
      exact hcarries
  other := fun _ hkey => h.other hkey
  either := h.either
  behind := fun hor _ _ _ => by
    rcases hor with hbig | hlt
    · exact absurd (hsmall.symm.trans hbig) Bool.false_ne_true
    · exact absurd hlt (hversion ▸ lt_irrefl _)

/-- A call that knows its key. -/
theorem processX_exact (het : env.et = .TOMBSTONE ∨ env.et = .SMART_TOMBSTONE)
    (hmemory : ∀ n, (env.turn n).memory = true)
    (hs : Timely env.now s) {stop : Stop} (hopens : stop.Opens start s)
    (h : processX env p stop.stops start s = (some k, s')) :
    Exact env p stop.stops start k s s' := by
  unfold processX at h
  by_cases hbig : p.BIG_BUFFER = true
  · rw [if_pos hbig] at h
    obtain ⟨hkey, hpassed, hall⟩ := @processBig_spec env p stop.stops start s het hmemory hs
    rw [h] at hkey hpassed hall
    rw [hkey k rfl]
    exact exact_of_carries hopens hpassed hall
  · rw [if_neg hbig] at h
    obtain ⟨k', s1, hrun, hpassed, hend⟩ := @processPasses_spec env p stop.stops s.view start s het
      hmemory 2 0 (passed_start stop.stops start hs) rfl
    dsimp only [PASSES_PROCESS_X] at h
    rw [hrun] at h
    obtain ⟨hk, rfl⟩ := Prod.mk.inj h
    obtain rfl := Option.some.inj hk
    rcases hend with ⟨-, rfl, hall⟩ | ⟨hversion, rfl, hkeys⟩
    · exact exact_of_carries hopens hpassed hall
    · exact exact_of_scan hopens (Bool.eq_false_iff.mpr hbig) hpassed hversion hkeys

end Command

/-! ## Three pairs, and a list that is flushed by each write -/

theorem valid_lasting (k : Byte) : (normal [k] [1] 100 1).valid = true :=
  valid_normal k 1 100 1

/-- A pair that expires. -/
def lasting (k : Byte) : Pair := (normal [k] [1] 100 1).create (valid_lasting k) 0

theorem increasing_letters : ∀ l ∈ [[], [], [lasting 97, lasting 98, lasting 99]],
    Increasing Pair.key l := by
  have hlt : ∀ {j k : Byte}, j < k → (lasting j).key < (lasting k).key := fun h => .rel h
  have htable : Increasing Pair.key [lasting 97, lasting 98, lasting 99] := by
    refine Increasing.cons_iff.mpr ⟨?_, Increasing.cons_iff.mpr ⟨?_, List.pairwise_singleton _ _⟩⟩
    · exact List.forall_mem_cons.mpr ⟨hlt (by decide), List.forall_mem_singleton.mpr
        (hlt (by decide))⟩
    · exact List.forall_mem_singleton.mpr (hlt (by decide))
  exact List.forall_mem_cons.mpr ⟨List.Pairwise.nil, List.forall_mem_cons.mpr
    ⟨List.Pairwise.nil, List.forall_mem_singleton.mpr htable⟩⟩

/-- A table of three pairs. -/
def letters : Store where
  active := []
  saved := []
  tables := [[lasting 97, lasting 98, lasting 99]]
  version := 0
  cleared := 0
  increasing := increasing_letters

/-- Each write flushes the list. -/
def restless : Env where
  et := .TOMBSTONE
  now := 0x200000000
  owns := fun _ => false
  hint := fun _ => ⟨false, true, true⟩
  turn := fun _ => ⟨true, true, true⟩

end HM4.MutableX
