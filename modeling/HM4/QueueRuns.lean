import HM4.Queue
import Mathlib.Data.List.Perm.Subperm

/-!
# Runs of queues

Between the position in the control key and the first live value stand only a few tombstones and
the values that have expired: a pop that steps over more than ten dead pairs moves the position to
the value it pops. So the position never comes behind a value that is live.
-/

namespace HM4.Queue

open LexPrefix Bytes Pairs PairFactory MemList KeyedList Database IndexToken

/-! ## Keys -/

section Keys

variable {keyN : Key} (hkeyN : isKeyValid keyN)

include hkeyN

theorem keyControlOf_eq : keyControlOf keyN = keyN ++ [separator] := by
  have hlen := hkeyN.2.2
  unfold keyControlOf
  rw [concatenateBuffer_key]
  · simp only [List.flatten_cons, List.flatten_nil, List.append_nil]
  · simp only [List.map_cons, List.map_nil, List.sum_cons, List.sum_nil, List.length_singleton]
    unfold to_string_buffer_t_size at hlen
    omega

theorem keyOf_eq {id : Key} (hid : id.length ≤ to_string_buffer_t_size) :
    keyOf keyN id = keyControlOf keyN ++ id := by
  have hlen := hkeyN.2.2
  rw [keyControlOf_eq hkeyN]
  unfold keyOf
  rw [concatenateBuffer_key]
  · simp only [List.flatten_cons, List.flatten_nil, List.append_nil, List.append_assoc]
  · simp only [List.map_cons, List.map_nil, List.sum_cons, List.sum_nil, List.length_singleton]
    omega

/-- The control key and the keys of values are valid. -/
theorem isKeyValid_append {id : Key} (hid : id.length ≤ to_string_buffer_t_size) :
    Pairs.isKeyValid (keyControlOf keyN ++ id) := by
  have hlen := hkeyN.2.2
  rw [keyControlOf_eq hkeyN, Pairs.isKeyValid, List.length_append, List.length_append,
    List.length_singleton]
  omega

theorem isKeyValid_control : Pairs.isKeyValid (keyControlOf keyN) := by
  have h : Pairs.isKeyValid (keyControlOf keyN ++ []) := isKeyValid_append hkeyN (Nat.zero_le _)
  rwa [List.append_nil] at h

end Keys

theorem append_lt_append {a b : Key} (c : Key) (h : a < b) : c ++ a < c ++ b :=
  lex_eq_lt.mp ((lex_append_left c a b).trans (lex_eq_lt.mpr h))

/-- Behind a key that has left a prefix no key has it. -/
theorem not_isPrefix_of_lt {c x y : Key} (hc : c ≤ x) (hx : ¬c <+: x) (hxy : x ≤ y) :
    ¬c <+: y := by
  intro hy
  refine hx (List.prefix_iff_eq_take.mpr ?_)
  have htake := List.prefix_iff_eq_take.mp hy
  have hself : c.take c.length = c := List.take_length
  have hmid := take_eq_of_between hc hxy (hself.trans htake)
  rw [hmid, hself]

/-! ## One walk -/

section Walk

variable (env : PopEnv) (keyControl : Key) (db : Db)

/-- The walk of a pop ends at the first live value, or when there is none, or when it has taken too
long. -/
inductive Walk (iterations : ℕ) (it : List Pair) : Reply × Db → Prop
  | ok (pre post : List Pair) (p : Pair) (hit : it = pre ++ p :: post)
      (hpre : ∀ x ∈ pre, keyControl <+: x.key ∧ env.alive x = false)
      (hp : keyControl <+: p.key) (halive : env.alive p = true) :
      Walk iterations it (finalizeOK env keyControl p (iterations + pre.length) db)
  | finish (pre post : List Pair) (hit : it = pre ++ post)
      (hpre : ∀ x ∈ pre, keyControl <+: x.key ∧ env.alive x = false)
      (hpost : ∀ x ∈ post.head?, ¬keyControl <+: x.key) :
      Walk iterations it (.string [], db)
  | tryAgain (pre post : List Pair) (p : Pair) (hit : it = pre ++ p :: post)
      (hpre : ∀ x ∈ pre, keyControl <+: x.key ∧ env.alive x = false)
      (hp : keyControl <+: p.key) (hdead : env.alive p = false)
      (hlong : ITERATIONS_LOOPS_MAX < iterations + pre.length + 1) :
      Walk iterations it (finalizeTryAgain env keyControl p db)

theorem walk_collect (iterations : ℕ) (it : List Pair) :
    Walk env keyControl db iterations it (collect env keyControl iterations it db) := by
  induction it generalizing iterations with
  | nil =>
    exact .finish [] [] rfl (fun x hx => absurd hx List.not_mem_nil)
      fun x hx => absurd hx.symm (Option.some_ne_none x)
  | cons p it ih =>
    rw [collect]
    by_cases hp : keyControl <+: p.key
    · rw [if_neg (not_not.mpr hp)]
      by_cases halive : env.alive p = true
      · rw [if_pos halive]
        exact .ok [] it p rfl (fun x hx => absurd hx List.not_mem_nil) hp halive
      · have hdead : env.alive p = false := Bool.not_eq_true _ ▸ halive
        rw [if_neg halive]
        by_cases hlong : ITERATIONS_LOOPS_MAX < iterations + 1
        · rw [if_pos hlong]
          exact .tryAgain [] it p rfl (fun x hx => absurd hx List.not_mem_nil) hp hdead hlong
        · rw [if_neg hlong]
          have hcons : ∀ pre : List Pair,
              (∀ x ∈ pre, keyControl <+: x.key ∧ env.alive x = false) →
              ∀ x ∈ p :: pre, keyControl <+: x.key ∧ env.alive x = false :=
            fun pre hpre => List.forall_mem_cons.mpr ⟨⟨hp, hdead⟩, hpre⟩
          have hcount : ∀ pre : List Pair,
              iterations + 1 + pre.length = iterations + (p :: pre).length := fun pre => by
            rw [List.length_cons]
            omega
          generalize hres : collect env keyControl (iterations + 1) it db = res
          have hwalk := ih (iterations + 1)
          rw [hres] at hwalk
          cases hwalk with
          | ok pre post q hit hpre hq hqalive =>
            rw [hcount pre]
            exact .ok (p :: pre) post q (congrArg (p :: ·) hit) (hcons pre hpre) hq hqalive
          | finish pre post hit hpre hpost =>
            exact .finish (p :: pre) post (congrArg (p :: ·) hit) (hcons pre hpre) hpost
          | tryAgain pre post q hit hpre hq hqdead hqlong =>
            rw [hcount pre] at hqlong
            exact .tryAgain (p :: pre) post q (congrArg (p :: ·) hit) (hcons pre hpre) hq hqdead
              hqlong
    · rw [if_pos hp]
      refine .finish [] (p :: it) rfl (fun x hx => absurd hx List.not_mem_nil) fun x hx => ?_
      obtain rfl := Option.some.inj hx
      exact hp

end Walk

/-! ## The invariant -/

/-- A pair of the queue, but not its control key. -/
def IsItem (keyControl : Key) (t : Pair) : Prop := keyControl <+: t.key ∧ t.key ≠ keyControl

/-- Some pop found the value dead. -/
def Passed (past : List PopEnv) (x : Pair) : Prop := ∃ env ∈ past, env.alive x = false

/-- All values come behind the position, but for those that some pop found dead. -/
def After (keyN : Key) (past : List PopEnv) (queue : List Pair) (s : Key) : Prop :=
  ∀ x ∈ queue, keyControlOf keyN ++ s < x.key ∨ Passed past x

/-- What holds of the list between calls; `s` is the position. -/
structure Inv (keyN : Key) (used : List Key) (past : List PopEnv) (queue : List Pair) (s : Key)
    (db : Db) : Prop where
  increasing : Increasing Pair.key db
  sorted : Increasing Pair.key queue
  used_ok : ∀ id ∈ used, id ≠ [] ∧ id.length ≤ to_string_buffer_t_size
  mem : ∀ x ∈ queue, x ∈ db ∧ IsItem (keyControlOf keyN) x
  keys : ∀ t ∈ db, IsItem (keyControlOf keyN) t → ∃ id ∈ used, t.key = keyControlOf keyN ++ id
  dead : ∀ t ∈ db, IsItem (keyControlOf keyN) t → t ∉ queue → t.isTombstone = true
  position : s = [] ∨ s ∈ used
  control : ∀ now, holds now db (keyControlOf keyN) = if s = [] then none else some s
  popped : ∀ t ∈ db, IsItem (keyControlOf keyN) t → t ∉ queue →
    ∀ x ∈ queue, t.key < x.key ∨ Passed past x
  few : ∃ T : List Key, T.length ≤ ITERATIONS_IDLE + 1 ∧ ∀ t ∈ db, IsItem (keyControlOf keyN) t →
    keyControlOf keyN ++ s ≤ t.key → t ∉ queue → t.key ∈ T

theorem Passed.mono {past past' : List PopEnv} {x : Pair} (h : Passed past x) :
    Passed (past ++ past') x := by
  obtain ⟨env, henv, hdead⟩ := h
  exact ⟨env, List.mem_append_left _ henv, hdead⟩

section Invariant

variable {keyN : Key} {used : List Key} {past : List PopEnv} {queue : List Pair} {s : Key} {db : Db}

/-- The control key tells the position. -/
theorem Inv.positioned (h : Inv keyN used past queue s db) (hafter : After keyN past queue s) :
    Positioned keyN past queue db := by
  intro now s' hs' x hx
  have hcontrol := h.control now
  rw [show holds now db (keyControlOf keyN) = some s' from hs'] at hcontrol
  split at hcontrol
  · exact absurd hcontrol (Option.some_ne_none s')
  · obtain rfl := Option.some.inj hcontrol
    exact hafter x hx

theorem Inv.mono (h : Inv keyN used past queue s db) (past' : List PopEnv) :
    Inv keyN used (past ++ past') queue s db where
  increasing := h.increasing
  sorted := h.sorted
  used_ok := h.used_ok
  mem := h.mem
  keys := h.keys
  dead := h.dead
  position := h.position
  control := h.control
  popped t ht hitem hnot x hx := (h.popped t ht hitem hnot x hx).imp_right Passed.mono
  few := h.few

theorem isItem_append {t : Pair} {id : Key} (hid : id ≠ []) (ht : t.key = keyControlOf keyN ++ id) :
    IsItem (keyControlOf keyN) t :=
  ⟨ht ▸ List.prefix_append _ _, fun heq =>
    hid (List.self_eq_append_right.mp (heq.symm.trans ht))⟩

/-- A value that is added comes behind all others. -/
theorem Inv.add (h : Inv keyN used past queue s db) {id : Key} (hne : id ≠ [])
    (hlen : id.length ≤ to_string_buffer_t_size) (hnew : ∀ id' ∈ used, id' < id) {p : Pair}
    (hp : p.key = keyControlOf keyN ++ id) :
    Inv keyN (used ++ [id]) past (queue ++ [p]) s (put Pair.key p db) := by
  have hitem := isItem_append hne hp
  have hbelow : ∀ t ∈ db, IsItem (keyControlOf keyN) t → t.key < p.key := fun t ht hit => by
    obtain ⟨id', hid', heq⟩ := h.keys t ht hit
    rw [heq, hp]
    exact append_lt_append _ (hnew id' hid')
  have hold : ∀ t ∈ put Pair.key p db, t ≠ p → t ∈ db := fun t ht hne => (mem_put ht).resolve_left hne
  have hstay : ∀ t ∈ db, IsItem (keyControlOf keyN) t → t ∈ put Pair.key p db := fun t ht hit =>
    (mem_put_of_ne (hbelow t ht hit).ne db).mpr ht
  have hnotMem : ∀ t : Pair, t ∉ queue ++ [p] → t ≠ p ∧ t ∉ queue := fun t ht =>
    ⟨fun heq => ht (List.mem_append_right _ (heq ▸ List.mem_singleton_self p)),
      fun hmem => ht (List.mem_append_left _ hmem)⟩
  obtain ⟨T, hT, hfew⟩ := h.few
  refine ⟨h.increasing.put, ?_, ?_, ?_, ?_, ?_, h.position.imp_right (List.mem_append_left _), ?_,
    ?_, T, hT, ?_⟩
  · refine Increasing.append_iff.mpr ⟨h.sorted, List.pairwise_singleton _ p, fun x hx y hy => ?_⟩
    rw [List.mem_singleton.mp hy]
    exact hbelow x (h.mem x hx).1 (h.mem x hx).2
  · intro id' hid'
    rcases List.mem_append.mp hid' with hid' | hid'
    · exact h.used_ok id' hid'
    · rw [List.mem_singleton.mp hid']
      exact ⟨hne, hlen⟩
  · intro x hx
    rcases List.mem_append.mp hx with hx | hx
    · exact ⟨hstay x (h.mem x hx).1 (h.mem x hx).2, (h.mem x hx).2⟩
    · rw [List.mem_singleton.mp hx]
      exact ⟨mem_put_self p db, hitem⟩
  · intro t ht hit
    by_cases htp : t = p
    · exact ⟨id, List.mem_append_right _ (List.mem_singleton_self id), htp ▸ hp⟩
    · obtain ⟨id', hid', heq⟩ := h.keys t (hold t ht htp) hit
      exact ⟨id', List.mem_append_left _ hid', heq⟩
  · intro t ht hit hnot
    obtain ⟨htp, htq⟩ := hnotMem t hnot
    exact h.dead t (hold t ht htp) hit htq
  · intro now
    rw [holds_put_of_ne hitem.2]
    exact h.control now
  · intro t ht hit hnot x hx
    obtain ⟨htp, htq⟩ := hnotMem t hnot
    rcases List.mem_append.mp hx with hx | hx
    · exact h.popped t (hold t ht htp) hit htq x hx
    · rw [List.mem_singleton.mp hx]
      exact .inl (hbelow t (hold t ht htp) hit)
  · intro t ht hit hpos hnot
    obtain ⟨htp, htq⟩ := hnotMem t hnot
    exact hfew t (hold t ht htp) hit hpos htq

/-- It comes behind the position. -/
theorem Inv.after_add (h : Inv keyN used past queue s db) (hafter : After keyN past queue s)
    {id : Key} (hne : id ≠ []) (hnew : ∀ id' ∈ used, id' < id) {p : Pair}
    (hp : p.key = keyControlOf keyN ++ id) : After keyN past (queue ++ [p]) s := by
  have hs : s < id := by
    rcases h.position with rfl | hs
    · exact lt_of_le_of_ne (le_of_isPrefix List.nil_prefix) hne.symm
    · exact hnew s hs
  intro x hx
  rcases List.mem_append.mp hx with hx | hx
  · exact hafter x hx
  · rw [List.mem_singleton.mp hx, hp]
    exact .inl (append_lt_append _ hs)

/-- The position moves up to another key of the queue. -/
theorem Inv.setControl (hkeyN : isKeyValid keyN) (h : Inv keyN used past queue s db) (env : PopEnv)
    {s' : Key} (hs' : s' ∈ used) (hle : keyControlOf keyN ++ s ≤ keyControlOf keyN ++ s') :
    Inv keyN used past queue s' (setControl env (keyControlOf keyN) s' db) := by
  obtain ⟨hne, hlen⟩ := h.used_ok s' hs'
  have hkey := isKeyValid_control hkeyN
  have hval : isValValid s' := hlen.trans (by decide)
  have heq : Queue.setControl env (keyControlOf keyN) s' db =
      Database.insert env.ctrl (keyControlOf keyN) s' db := if_neg hne
  have hmem : ∀ t : Pair, IsItem (keyControlOf keyN) t →
      (t ∈ Database.insert env.ctrl (keyControlOf keyN) s' db ↔ t ∈ db) := fun t hit =>
    mem_insert_of_ne hkey hval env.ctrl hit.2
  obtain ⟨T, hT, hfew⟩ := h.few
  rw [heq]
  refine ⟨increasing_insert h.increasing _ _ _, h.sorted, h.used_ok,
    fun x hx => ⟨(hmem x (h.mem x hx).2).mpr (h.mem x hx).1, (h.mem x hx).2⟩,
    fun t ht hit => h.keys t ((hmem t hit).mp ht) hit,
    fun t ht hit => h.dead t ((hmem t hit).mp ht) hit, .inr hs', fun now => ?_,
    fun t ht hit => h.popped t ((hmem t hit).mp ht) hit, T, hT,
    fun t ht hit hpos => hfew t ((hmem t hit).mp ht) hit (hle.trans hpos)⟩
  rw [holds_insert hkey hval hne, Function.update_self, if_neg hne]

/-- The first live value is erased. -/
theorem Inv.erase {queue' : List Pair} {p : Pair}
    (h : Inv keyN used past (queue ++ p :: queue') s db) (w : Write)
    (hpassed : ∀ x ∈ queue, Passed past x)
    (hfew : ∃ T : List Key, T.length ≤ ITERATIONS_IDLE + 1 ∧ p.key ∈ T ∧ ∀ t ∈ db,
      IsItem (keyControlOf keyN) t → keyControlOf keyN ++ s ≤ t.key →
      t ∉ queue ++ p :: queue' → t.key ∈ T) :
    Inv keyN used past (queue ++ queue') s (Database.erase w p.key db) := by
  have hpmem : p ∈ queue ++ p :: queue' := List.mem_append_right _ List.mem_cons_self
  obtain ⟨hpdb, hpitem⟩ := h.mem p hpmem
  have hkey := p.keyValid
  have hsub : (queue ++ queue').Sublist (queue ++ p :: queue') :=
    (List.sublist_cons_self p queue').append_left queue
  obtain ⟨_, hsorted2, hsorted12⟩ := Increasing.append_iff.mp h.sorted
  have hne : ∀ x ∈ queue ++ queue', x.key ≠ p.key := fun x hx => by
    rcases List.mem_append.mp hx with hx | hx
    · exact (hsorted12 x hx p List.mem_cons_self).ne
    · exact ((Increasing.cons_iff.mp hsorted2).1 x hx).ne'
  -- what is left of other keys was there before
  have hmem : ∀ t : Pair, t.key ≠ p.key → (t ∈ Database.erase w p.key db ↔ t ∈ db) := fun t ht =>
    mem_erase_of_ne hkey w ht
  have hnot : ∀ t : Pair, t.key ≠ p.key → t ∉ queue ++ queue' → t ∉ queue ++ p :: queue' := by
    intro t ht hnot hmem
    rcases List.mem_append.mp hmem with hmem | hmem
    · exact hnot (List.mem_append_left _ hmem)
    · rcases List.mem_cons.mp hmem with rfl | hmem
      · exact ht rfl
      · exact hnot (List.mem_append_right _ hmem)
  obtain ⟨T, hT, hpT, hfewT⟩ := hfew
  refine ⟨increasing_erase h.increasing _ _, h.sorted.sublist hsub, h.used_ok,
    fun x hx => ⟨(hmem x (hne x hx)).mpr (h.mem x (hsub.subset hx)).1,
      (h.mem x (hsub.subset hx)).2⟩,
    fun t ht hit => ?_, fun t ht hit htq => ?_, h.position, fun now => ?_,
    fun t ht hit htq x hx => ?_, T, hT, fun t ht hit hpos htq => ?_⟩
  · by_cases htp : t.key = p.key
    · rw [htp]
      exact h.keys p hpdb hpitem
    · exact h.keys t ((hmem t htp).mp ht) hit
  · by_cases htp : t.key = p.key
    · exact isTombstone_of_mem_erase hkey w h.increasing htp ht
    · exact h.dead t ((hmem t htp).mp ht) hit (hnot t htp htq)
  · rw [holds_erase h.increasing, Function.update_of_ne hpitem.2.symm]
    exact h.control now
  · by_cases htp : t.key = p.key
    · rcases List.mem_append.mp hx with hx | hx
      · exact .inr (hpassed x hx)
      · rw [htp]
        exact .inl ((Increasing.cons_iff.mp hsorted2).1 x hx)
    · exact h.popped t ((hmem t htp).mp ht) hit (hnot t htp htq) x (hsub.subset hx)
  · by_cases htp : t.key = p.key
    · exact htp ▸ hpT
    · exact hfewT t ((hmem t htp).mp ht) hit hpos (hnot t htp htq)

/-- A pop walks over the pairs of the queue from the position on. -/
theorem Inv.spop_eq (hkeyN : isKeyValid keyN) (h : Inv keyN used past queue s db) (env : PopEnv)
    (cmd : Key) :
    ∃ it, spop env [cmd, keyN] db = collect env (keyControlOf keyN) 0 it db ∧
      Increasing Pair.key it ∧ ∀ t, t ∈ it ↔
        t ∈ db ∧ keyControlOf keyN ++ s ≤ t.key ∧ t.key ≠ keyControlOf keyN := by
  have hfind : ∀ t, t ∈ fromKey Pair.key (keyControlOf keyN) db ↔
      t ∈ db ∧ keyControlOf keyN ≤ t.key := fun t => h.increasing.mem_fromKey
  have hinc : Increasing Pair.key (fromKey Pair.key (keyControlOf keyN) db) := h.increasing.fromKey
  have hlength : ¬[cmd, keyN].length ≠ 2 := not_not.mpr rfl
  rw [spop, if_neg hlength]
  simp only [List.getD_cons_succ, List.getD_cons_zero, if_neg (not_not.mpr hkeyN)]
  -- without a position the walk starts behind the control key
  have hstart : ∀ it : List Pair, s = [] → Increasing Pair.key it →
      (∀ t, t ∈ it ↔ t ∈ db ∧ keyControlOf keyN < t.key) →
      ∀ t, t ∈ it ↔
        t ∈ db ∧ keyControlOf keyN ++ s ≤ t.key ∧ t.key ≠ keyControlOf keyN := by
    rintro it rfl _ hit t
    rw [hit, List.append_nil]
    exact and_congr_right fun _ => ⟨fun hlt => ⟨hlt.le, hlt.ne'⟩,
      fun hle => lt_of_le_of_ne hle.1 hle.2.symm⟩
  cases hdb : fromKey Pair.key (keyControlOf keyN) db with
  | nil =>
    rw [hdb] at hfind
    refine ⟨[], rfl, .nil, fun t => ⟨fun ht => absurd ht List.not_mem_nil, fun ht => ?_⟩⟩
    have hle := (le_of_isPrefix (List.prefix_append (keyControlOf keyN) s)).trans ht.2.1
    exact (hfind t).mpr ⟨ht.1, hle⟩
  | cons q it =>
    rw [hdb] at hfind hinc
    obtain ⟨hqit, hit⟩ := Increasing.cons_iff.mp hinc
    obtain ⟨hqdb, hqle⟩ := (hfind q).mp List.mem_cons_self
    dsimp only
    by_cases hq : q.key = keyControlOf keyN
    · have hget : get (keyControlOf keyN) db = some q := hq ▸ h.increasing.lookup_of_mem hqdb
      have hholds : ∀ now, isOK now q = true → holds now db (keyControlOf keyN) = some q.val :=
        fun now hok => by
          rw [holds, getPairPtr, hget, Option.filter_some, if_pos hok, Option.map_some]
      have htail : ∀ t, t ∈ it ↔ t ∈ db ∧ keyControlOf keyN < t.key := fun t => by
        constructor
        · intro ht
          exact ⟨((hfind t).mp (List.mem_cons_of_mem q ht)).1, hq ▸ hqit t ht⟩
        · intro ht
          refine (List.mem_cons.mp ((hfind t).mpr ⟨ht.1, ht.2.le⟩)).resolve_left fun heq => ?_
          exact ht.2.ne' (heq ▸ hq)
      rw [if_pos hq]
      by_cases halive : env.alive q = true
      · -- the control key is alive, and its value is the position
        have hcontrol := (hholds (env.check q.key) halive).symm.trans (h.control _)
        have hne : s ≠ [] := fun hnil => by
          rw [if_pos hnil] at hcontrol
          exact Option.some_ne_none _ hcontrol
        rw [if_neg hne] at hcontrol
        obtain rfl := Option.some.inj hcontrol
        have hlen := (h.used_ok _ (h.position.resolve_left hne)).2
        refine ⟨fromKey Pair.key (keyOf keyN q.val) db, if_pos ⟨halive, hlen⟩,
          h.increasing.fromKey, fun t => ?_⟩
        rw [h.increasing.mem_fromKey, keyOf_eq hkeyN hlen]
        refine and_congr_right fun _ => ⟨fun hle => ⟨hle, fun heq => ?_⟩, And.left⟩
        rw [heq] at hle
        have hlt := append_lt_append (keyControlOf keyN)
          (lt_of_le_of_ne (le_of_isPrefix (List.nil_prefix (l := q.val))) hne.symm)
        rw [List.append_nil] at hlt
        exact absurd hle (not_le.mpr hlt)
      · have hnil : s = [] := by
          by_contra hne
          have hcontrol := h.control (env.check q.key)
          rw [if_neg hne, holds, getPairPtr, hget, Option.filter_some,
            if_neg (show ¬isOK (env.check q.key) q = true from halive)] at hcontrol
          exact Option.some_ne_none s hcontrol.symm
        rw [if_neg fun hc => halive hc.1]
        refine ⟨it, ?_, hit, hstart it hnil hit htail⟩
        cases it with
        | nil => rfl
        | cons r it => rfl
    · -- there is no control key
      have hnone : ∀ y ∈ db, y.key ≠ keyControlOf keyN := fun y hy heq => by
        rcases List.mem_cons.mp ((hfind y).mpr ⟨hy, heq.ge⟩) with rfl | hmem
        · exact hq heq
        · have hlt := hqit y hmem
          rw [heq] at hlt
          exact absurd hqle (not_le.mpr hlt)
      have hnil : s = [] := by
        by_contra hne
        have hcontrol := h.control 0
        have hget : get (keyControlOf keyN) db = none := lookup_eq_none hnone
        rw [if_neg hne, holds, getPairPtr, hget, Option.filter_none] at hcontrol
        exact Option.some_ne_none s hcontrol.symm
      rw [if_neg hq]
      refine ⟨q :: it, rfl, hinc, hstart _ hnil hinc fun t => ?_⟩
      rw [hfind]
      exact and_congr_right fun ht => ⟨fun hle => lt_of_le_of_ne hle (hnone t ht).symm, le_of_lt⟩

/-- A live value of the queue comes behind all popped ones, and a dead one before it was met. -/
theorem Inv.mem_queue (h : Inv keyN used past queue s db) {env : PopEnv} {p : Pair} (hp : p ∈ db)
    (hitem : IsItem (keyControlOf keyN) p) (halive : env.alive p = true) : p ∈ queue := by
  by_contra hnot
  have hdead : env.alive p = false := isOK_of_isTombstone (h.dead p hp hitem hnot) _
  exact Bool.false_ne_true (hdead.symm.trans halive)

/-- A pop that finds a value. -/
theorem Inv.finalizeOK (hkeyN : isKeyValid keyN) {queue' pre post : List Pair} {p : Pair}
    (h : Inv keyN used past (queue ++ p :: queue') s db)
    (hafter : After keyN past (queue ++ p :: queue') s) {env : PopEnv} {it : List Pair}
    (hpassed : ∀ x ∈ queue, Passed past x) (hp : ¬Passed past p)
    (hit : ∀ t, t ∈ it ↔ t ∈ db ∧ keyControlOf keyN ++ s ≤ t.key ∧ t.key ≠ keyControlOf keyN)
    (hwalk : it = pre ++ p :: post) (hinc : Increasing Pair.key it) :
    ∃ s', Inv keyN used past (queue ++ queue') s'
        (finalizeOK env (keyControlOf keyN) p pre.length db).2 ∧
      After keyN past (queue ++ queue') s' := by
  have hpmem : p ∈ queue ++ p :: queue' := List.mem_append_right _ List.mem_cons_self
  obtain ⟨hpdb, hpitem⟩ := h.mem p hpmem
  have hpos : keyControlOf keyN ++ s ≤ p.key :=
    ((hit p).mp (hwalk ▸ List.mem_append_right _ List.mem_cons_self)).2.1
  obtain ⟨id, hid, hkey⟩ := h.keys p hpdb hpitem
  have hscore : getScore (keyControlOf keyN) p.key = id := by
    rw [getScore, hkey, List.drop_left]
  obtain ⟨_, hsorted2, _⟩ := Increasing.append_iff.mp h.sorted
  -- popped values come before the one that is popped now
  have hbefore : ∀ t ∈ db, IsItem (keyControlOf keyN) t → t ∉ queue ++ p :: queue' →
      t.key < p.key := fun t ht hitem hnot => (h.popped t ht hitem hnot p hpmem).resolve_right hp
  unfold Queue.finalizeOK
  dsimp only
  split
  · -- the position moves to the value that is popped
    rw [hscore]
    have hmove := h.setControl hkeyN env hid (hkey ▸ hpos)
    refine ⟨id, hmove.erase env.erase hpassed ⟨[p.key], Nat.succ_le_succ (Nat.zero_le _),
      List.mem_singleton_self _, fun t ht hitem hle hnot => ?_⟩, fun x hx => ?_⟩
    · have hold : t ∈ db := by
        have hset : Queue.setControl env (keyControlOf keyN) id db =
            Database.insert env.ctrl (keyControlOf keyN) id db := if_neg (h.used_ok id hid).1
        rw [hset] at ht
        have hval : isValValid id := (h.used_ok id hid).2.trans (by decide)
        exact (mem_insert_of_ne (isKeyValid_control hkeyN) hval _ hitem.2).mp ht
      exact absurd (hkey ▸ hle) (not_le.mpr (hbefore t hold hitem hnot))
    · rcases List.mem_append.mp hx with hx | hx
      · exact .inr (hpassed x hx)
      · exact .inl (hkey ▸ (Increasing.cons_iff.mp hsorted2).1 x hx)
  · rename_i hidle
    refine ⟨s, h.erase env.erase hpassed ⟨pre.map Pair.key ++ [p.key], ?_,
      List.mem_append_right _ (List.mem_singleton_self _), fun t ht hitem hle hnot => ?_⟩,
      fun x hx => ?_⟩
    · rw [List.length_append, List.length_map, List.length_singleton]
      omega
    · have htit : t ∈ it := (hit t).mpr ⟨ht, hle, hitem.2⟩
      rw [hwalk] at htit hinc
      obtain ⟨_, hinc2, _⟩ := Increasing.append_iff.mp hinc
      have hlt := hbefore t ht hitem hnot
      rcases List.mem_append.mp htit with htpre | htpost
      · exact List.mem_append_left _ (List.mem_map_of_mem htpre)
      · rcases List.mem_cons.mp htpost with rfl | htpost
        · exact absurd hlt (lt_irrefl _)
        · exact absurd hlt (lt_asymm ((Increasing.cons_iff.mp hinc2).1 t htpost))
    · refine hafter x ?_
      rcases List.mem_append.mp hx with hx | hx
      · exact List.mem_append_left _ hx
      · exact List.mem_append_right _ (List.mem_cons_of_mem p hx)

/-- A value that is live is on the walk. -/
theorem mem_walk (hmem : ∀ x ∈ queue, x ∈ db ∧ IsItem (keyControlOf keyN) x)
    (hafter : After keyN past queue s) {env : PopEnv}
    (hsteady : ∀ x ∈ queue, Passed past x → env.alive x = false) {it : List Pair}
    (hit : ∀ t, t ∈ it ↔ t ∈ db ∧ keyControlOf keyN ++ s ≤ t.key ∧ t.key ≠ keyControlOf keyN)
    {x : Pair} (hx : x ∈ queue) (halive : env.alive x = true) : x ∈ it := by
  have hlt := (hafter x hx).resolve_right fun hpassed =>
    Bool.false_ne_true ((hsteady x hx hpassed).symm.trans halive)
  exact (hit x).mpr ⟨(hmem x hx).1, hlt.le, (hmem x hx).2.2⟩

/-- A walk that takes too long is over many dead values. -/
theorem Inv.many_dead (h : Inv keyN used past queue s db) {env : PopEnv} {it pre post : List Pair}
    {p : Pair} (hinc : Increasing Pair.key it)
    (hit : ∀ t, t ∈ it ↔ t ∈ db ∧ keyControlOf keyN ++ s ≤ t.key ∧ t.key ≠ keyControlOf keyN)
    (hwalk : it = pre ++ p :: post)
    (hpre : ∀ x ∈ pre ++ [p], keyControlOf keyN <+: x.key ∧ env.alive x = false) :
    pre.length + 1 ≤ (queue.filter fun x => !env.alive x).length + (ITERATIONS_IDLE + 1) := by
  obtain ⟨T, hT, hfew⟩ := h.few
  have hsub : (pre ++ [p]).Sublist it := by
    rw [hwalk, List.append_cons pre p post]
    exact List.sublist_append_left _ _
  have hincpre : Increasing Pair.key (pre ++ [p]) := hinc.sublist hsub
  have hitem : ∀ x ∈ pre ++ [p], x ∈ db ∧ keyControlOf keyN ++ s ≤ x.key ∧
      IsItem (keyControlOf keyN) x := fun x hx => by
    obtain ⟨hdb, hle, hne⟩ := (hit x).mp (hsub.subset hx)
    exact ⟨hdb, hle, (hpre x hx).1, hne⟩
  -- every one of them is a dead value or one of the few tombstones
  have hqueue : ((pre ++ [p]).filter fun x => x ∈ queue).length ≤
      (queue.filter fun x => !env.alive x).length := by
    have hnodup : ((pre ++ [p]).filter fun x => x ∈ queue).Nodup :=
      (hincpre.imp fun hlt heq => hlt.ne (congrArg Pair.key heq)).filter _
    refine (hnodup.subperm fun x hx => ?_).length_le
    obtain ⟨hmem, hq⟩ := List.mem_filter.mp hx
    refine List.mem_filter.mpr ⟨of_decide_eq_true hq, ?_⟩
    rw [(hpre x hmem).2, Bool.not_false]
  have hrest : ((pre ++ [p]).filter fun x => !decide (x ∈ queue)).length ≤ T.length := by
    have hkeys : (((pre ++ [p]).filter fun x => !decide (x ∈ queue)).map Pair.key).Nodup :=
      List.pairwise_map.mpr ((hincpre.imp fun hlt => hlt.ne).filter _)
    rw [← List.length_map Pair.key]
    refine (hkeys.subperm fun k hk => ?_).length_le
    obtain ⟨x, hx, rfl⟩ := List.mem_map.mp hk
    obtain ⟨hmem, hq⟩ := List.mem_filter.mp hx
    obtain ⟨hdb, hle, hit⟩ := hitem x hmem
    exact hfew x hdb hit hle (of_decide_eq_false (Bool.not_eq_true' _ ▸ hq))
  have hsum := List.length_eq_length_filter_add (l := pre ++ [p]) fun x => decide (x ∈ queue)
  rw [List.length_append, List.length_singleton] at hsum
  omega

/-- One pop. -/
theorem Inv.pop (hkeyN : isKeyValid keyN) (h : Inv keyN used past queue s db)
    (hafter : After keyN past queue s) (env : PopEnv) (cmd : Key)
    (hsteady : ∀ x ∈ queue, Passed past x → env.alive x = false) :
    ((spop env [cmd, keyN] db).1 = .string ((queue.find? env.alive).elim [] Pair.val) ∧
        ∃ s', Inv keyN used (past ++ [env]) (queue.eraseP env.alive) s'
            (spop env [cmd, keyN] db).2 ∧
          After keyN (past ++ [env]) (queue.eraseP env.alive) s') ∨
      (ITERATIONS_LOOPS_MAX < (queue.filter fun x => !env.alive x).length + ITERATIONS_IDLE + 1 ∧
        (spop env [cmd, keyN] db).1 = .string [] ∧
        ∃ s', Inv keyN used (past ++ [env]) queue s' (spop env [cmd, keyN] db).2 ∧
          After keyN (past ++ [env]) queue s') := by
  obtain ⟨it, heq, hinc, hit⟩ := h.spop_eq hkeyN env cmd
  have hmet : ∀ x, env.alive x = false → Passed (past ++ [env]) x := fun x hdead =>
    ⟨env, List.mem_append_right _ (List.mem_singleton_self env), hdead⟩
  have hwalk := walk_collect env (keyControlOf keyN) db 0 it
  rw [heq]
  generalize collect env (keyControlOf keyN) 0 it db = res at hwalk
  cases hwalk with
  | ok pre post p hcut hpre hp halive =>
    obtain ⟨hpdb, _, hpne⟩ := (hit p).mp (hcut ▸ List.mem_append_right _ List.mem_cons_self)
    have hpq := h.mem_queue hpdb ⟨hp, hpne⟩ halive
    obtain ⟨q1, q2, rfl⟩ := List.append_of_mem hpq
    obtain ⟨_, _, hsorted⟩ := Increasing.append_iff.mp h.sorted
    obtain ⟨_, hinc2, _⟩ := Increasing.append_iff.mp (hcut ▸ hinc)
    -- a live value before it would have been met first
    have hfirst : ∀ x ∈ q1, env.alive x = false := fun x hx => by
      by_contra hc
      have hxalive : env.alive x = true := Bool.not_eq_false _ ▸ hc
      have hlt := hsorted x hx p List.mem_cons_self
      have hxit := mem_walk h.mem hafter hsteady hit (List.mem_append_left _ hx) hxalive
      rw [hcut] at hxit
      rcases List.mem_append.mp hxit with hmem | hmem
      · exact hc (hpre x hmem).2
      · rcases List.mem_cons.mp hmem with rfl | hmem
        · exact lt_irrefl _ hlt
        · exact lt_asymm hlt ((Increasing.cons_iff.mp hinc2).1 x hmem)
    have hfind : (q1 ++ p :: q2).find? env.alive = some p :=
      List.find?_eq_some_iff_append.mpr ⟨halive, q1, q2, rfl, fun x hx => by
        rw [hfirst x hx, Bool.not_false]⟩
    have herase : (q1 ++ p :: q2).eraseP env.alive = q1 ++ q2 := by
      rw [List.eraseP_append_right _ fun x hx => by rw [hfirst x hx]; exact Bool.false_ne_true,
        List.eraseP_cons_of_pos halive]
    have hnot : ¬Passed (past ++ [env]) p := fun ⟨env', henv', hdead⟩ => by
      rcases List.mem_append.mp henv' with hmem | hmem
      · exact Bool.false_ne_true ((hsteady p hpq ⟨env', hmem, hdead⟩).symm.trans halive)
      · rw [List.mem_singleton.mp hmem] at hdead
        exact Bool.false_ne_true (hdead.symm.trans halive)
    rw [hfind, herase, Nat.zero_add]
    refine .inl ⟨rfl, ?_⟩
    exact (h.mono [env]).finalizeOK hkeyN (fun x hx => (hafter x hx).imp_right Passed.mono)
      (fun x hx => hmet x (hfirst x hx)) hnot hit hcut hinc
  | finish pre post hcut hpre hpost =>
    have hall : ∀ x ∈ queue, env.alive x = false := fun x hx => by
      by_contra hc
      have hxalive : env.alive x = true := Bool.not_eq_false _ ▸ hc
      have hxit := mem_walk h.mem hafter hsteady hit hx hxalive
      rw [hcut] at hxit
      rcases List.mem_append.mp hxit with hmem | hmem
      · exact hc (hpre x hmem).2
      · -- behind the end of the queue nothing belongs to it
        cases post with
        | nil => exact absurd hmem List.not_mem_nil
        | cons y post =>
          have hy := hpost y rfl
          obtain ⟨_, hyle, _⟩ := (hit y).mp (hcut ▸ List.mem_append_right _ List.mem_cons_self)
          have hle : keyControlOf keyN ≤ y.key :=
            (le_of_isPrefix (List.prefix_append _ s)).trans hyle
          obtain ⟨_, hinc2, _⟩ := Increasing.append_iff.mp (hcut ▸ hinc)
          rcases List.mem_cons.mp hmem with rfl | hmem
          · exact hy (h.mem x hx).2.1
          · have hlt := (Increasing.cons_iff.mp hinc2).1 x hmem
            exact not_isPrefix_of_lt hle hy hlt.le (h.mem x hx).2.1
    have hfalse : ∀ x ∈ queue, ¬env.alive x = true := fun x hx => by
      rw [hall x hx]
      exact Bool.false_ne_true
    rw [List.find?_eq_none.mpr hfalse, List.eraseP_of_forall_not hfalse]
    exact .inl ⟨rfl, s, h.mono [env], fun x hx => (hafter x hx).imp_right Passed.mono⟩
  | tryAgain pre post p hcut hpre hp hdead hlong =>
    have hpit : p ∈ it := hcut ▸ List.mem_append_right _ List.mem_cons_self
    obtain ⟨hpdb, hple, hpne⟩ := (hit p).mp hpit
    obtain ⟨id, hid, hkey⟩ := h.keys p hpdb ⟨hp, hpne⟩
    have hscore : getScore (keyControlOf keyN) p.key = id := by
      rw [getScore, hkey, List.drop_left]
    have hmany := h.many_dead hinc hit hcut fun x hx => by
      rcases List.mem_append.mp hx with hx | hx
      · exact hpre x hx
      · rw [List.mem_singleton.mp hx]
        exact ⟨hp, hdead⟩
    refine .inr ⟨by omega, rfl, id, ?_, fun x hx => ?_⟩
    · rw [finalizeTryAgain, hscore]
      exact (h.mono [env]).setControl hkeyN env hid (hkey ▸ hple)
    · rcases hafter x hx with hlt | hpassed
      · by_cases hxp : p.key < x.key
        · exact .inl (hkey ▸ hxp)
        · -- the walk has met it
          have hxit := (hit x).mpr ⟨(h.mem x hx).1, hlt.le, (h.mem x hx).2.2⟩
          obtain ⟨_, hinc2, _⟩ := Increasing.append_iff.mp (hcut ▸ hinc)
          rw [hcut] at hxit
          rcases List.mem_append.mp hxit with hmem | hmem
          · exact .inr (hmet x (hpre x hmem).2)
          · rcases List.mem_cons.mp hmem with rfl | hmem
            · exact .inr (hmet x hdead)
            · exact absurd ((Increasing.cons_iff.mp hinc2).1 x hmem) hxp
      · exact .inr hpassed.mono

end Invariant

/-! ## All calls -/

section Calls

variable {keyN : Key}

/-- An accepted call adds its pair. -/
theorem process_add (hkeyN : isKeyValid keyN) {w : Write} {id cmd val : Key} {exp : Option Key}
    (hacc : (Call.add w id cmd val exp).Accepted) (db : Db) :
    ∃ p : Pair, (Call.add w id cmd val exp).item keyN = some p ∧
      p.key = keyControlOf keyN ++ id ∧
      (Call.add w id cmd val exp).process keyN db = (.ok, put Pair.key p db) := by
  obtain ⟨_, hval, _, hlen⟩ := hacc
  have hkey : keyOf keyN id = keyControlOf keyN ++ id := keyOf_eq hkeyN hlen
  have hvalid : (normal (keyOf keyN id) val (UInt32.ofNat (expOf exp)) 0).valid = true :=
    decide_eq_true ⟨hkey ▸ isKeyValid_append hkeyN hlen, hval⟩
  have hexp : (if (cmd :: keyN :: val :: exp.toList).length = 4 then
      fromString 32 ((cmd :: keyN :: val :: exp.toList).getD 3 []) 0 else 0) = expOf exp := by
    cases exp with
    | none => rfl
    | some e => rfl
  have hparams : ¬((cmd :: keyN :: val :: exp.toList).length ≠ 3 ∧
      (cmd :: keyN :: val :: exp.toList).length ≠ 4) := by
    cases exp with
    | none => exact fun h => h.1 rfl
    | some e => exact fun h => h.2 rfl
  refine ⟨(normal (keyOf keyN id) val (UInt32.ofNat (expOf exp)) 0).create hvalid w.now,
    dif_pos hvalid, hkey, ?_⟩
  rw [Call.process, sadd, if_neg hparams]
  refine (if_neg (not_not.mpr hkeyN)).trans ((if_neg (not_not.mpr hval)).trans ?_)
  rw [hexp]
  exact congrArg (Prod.mk Reply.ok)
    (insertF_eq w.owned hvalid rfl (fun old hold => normal_createHint w.now hvalid hold) db)

/-- From a good state all calls run as they should. -/
theorem fifo_of_inv (hkeyN : isKeyValid keyN) {calls all : List Call} {used : List Key} {past : List PopEnv}
    {queue : List Pair} {s : Key} {db : Db} (h : Inv keyN used past queue s db)
    (hafter : After keyN past queue s) (hacc : ∀ c ∈ calls, c.Accepted)
    (hids : (ids calls).Pairwise (· < ·)) (hnew : ∀ id' ∈ used, ∀ id ∈ ids calls, id' < id)
    (hqueue : ∀ x ∈ queue, x ∈ items keyN all) (hitems : ∀ x ∈ items keyN calls, x ∈ items keyN all)
    (hsteady : (past ++ pops calls).Pairwise fun c d =>
      ∀ x ∈ items keyN all, c.alive x = false → d.alive x = false) :
    Fifo keyN past queue calls db := by
  induction calls generalizing used past queue s db with
  | nil => exact h.positioned hafter
  | cons c calls ih =>
    have hacc' := fun d hd => hacc d (List.mem_cons_of_mem c hd)
    cases c with
    | add w id cmd val exp =>
      have hcall := hacc _ List.mem_cons_self
      obtain ⟨p, hitem, hkey, hprocess⟩ := process_add hkeyN hcall db
      have hids' : ids (.add w id cmd val exp :: calls) = id :: ids calls := rfl
      have hitems' : items keyN (.add w id cmd val exp :: calls) = p :: items keyN calls :=
        List.filterMap_cons_some hitem
      have hp : p ∈ items keyN all := hitems p (hitems' ▸ List.mem_cons_self)
      obtain ⟨_, _, hne, hlen⟩ := hcall
      rw [hids'] at hids hnew
      have hold : ∀ id' ∈ used, id' < id := fun id' hid' => hnew id' hid' id List.mem_cons_self
      refine ⟨h.positioned hafter, by rw [hprocess], ?_⟩
      rw [hitem, hprocess]
      refine ih (h.add hne hlen hold hkey) (h.after_add hafter hne hold hkey) hacc'
        (List.pairwise_cons.mp hids).2 (fun id' hid' id'' hid'' => ?_) (fun x hx => ?_)
        (fun x hx => hitems x (hitems' ▸ List.mem_cons_of_mem p hx)) hsteady
      · rcases List.mem_append.mp hid' with hid' | hid'
        · exact hnew id' hid' id'' (List.mem_cons_of_mem id hid'')
        · rw [List.mem_singleton.mp hid']
          exact (List.pairwise_cons.mp hids).1 id'' hid''
      · rcases List.mem_append.mp hx with hx | hx
        · exact hqueue x hx
        · rw [List.mem_singleton.mp hx]
          exact hp
    | pop env cmd =>
      have hpops : past ++ pops (.pop env cmd :: calls) = past ++ [env] ++ pops calls := by
        rw [List.append_assoc]
        rfl
      have hdead : ∀ x ∈ queue, Passed past x → env.alive x = false :=
        fun x hx ⟨env', henv', hdead⟩ => by
          have hrel := (List.pairwise_append.mp hsteady).2.2 env' henv' env List.mem_cons_self
          exact hrel x (hqueue x hx) hdead
      refine ⟨h.positioned hafter, ?_⟩
      rcases h.pop hkeyN hafter env cmd hdead with ⟨hreply, s', h', hafter'⟩ |
          ⟨hmany, hreply, s', h', hafter'⟩
      · refine .inl ⟨hreply, ih h' hafter' hacc' hids hnew (fun x hx => ?_) hitems
          (hpops ▸ hsteady)⟩
        exact hqueue x (List.mem_of_mem_eraseP hx)
      · exact .inr ⟨hmany, hreply, ih h' hafter' hacc' hids hnew hqueue hitems (hpops ▸ hsteady)⟩

end Calls

/-- Where no value is ever dead, the queue is the plain one. -/
theorem Fifo.refines {keyN : Key} {calls : List Call} {past : List PopEnv} {queue : List Pair}
    {db : Db} (h : Fifo keyN past queue calls db)
    (hqueue : ∀ x ∈ queue, ∀ env : PopEnv, env.alive x = true)
    (hitems : ∀ x ∈ items keyN calls, ∀ env : PopEnv, env.alive x = true) :
    Refines keyN queue calls db := by
  have hpos : ∀ {past : List PopEnv} {queue : List Pair} {db : Db},
      (∀ x ∈ queue, ∀ env : PopEnv, env.alive x = true) → Positioned keyN past queue db →
      Positioned keyN [] queue db := fun hq hpos now s hs x hx => by
    refine .inl ((hpos now s hs x hx).resolve_right fun ⟨env, _, hdead⟩ => ?_)
    exact Bool.false_ne_true (hdead.symm.trans (hq x hx env))
  induction calls generalizing past queue db with
  | nil => exact hpos hqueue h
  | cons c calls ih =>
    cases c with
    | add w id cmd val exp =>
      obtain ⟨hposition, hreply, hrest⟩ := h
      refine ⟨hpos hqueue hposition, hreply, ih hrest (fun x hx => ?_) fun x hx => hitems x ?_⟩
      · rcases List.mem_append.mp hx with hx | hx
        · exact hqueue x hx
        · have hitem : (Call.add w id cmd val exp).item keyN = some x := Option.mem_toList.mp hx
          have hcons : items keyN (.add w id cmd val exp :: calls) = x :: items keyN calls :=
            List.filterMap_cons_some hitem
          exact hitems x (hcons ▸ List.mem_cons_self)
      · obtain ⟨d, hd, hdx⟩ := List.mem_filterMap.mp hx
        exact List.mem_filterMap.mpr ⟨d, List.mem_cons_of_mem _ hd, hdx⟩
    | pop env cmd =>
      obtain ⟨hposition, ⟨hreply, hrest⟩ | ⟨hmany, _, _⟩⟩ := h
      · have hhead : queue.find? env.alive = queue.head? ∧ queue.eraseP env.alive = queue.tail := by
          cases queue with
          | nil => exact ⟨rfl, rfl⟩
          | cons x queue =>
            have hx := hqueue x List.mem_cons_self env
            exact ⟨List.find?_cons_of_pos hx, List.eraseP_cons_of_pos hx⟩
        rw [hhead.1] at hreply
        rw [hhead.2] at hrest
        exact ⟨hpos hqueue hposition, hreply,
          ih hrest (fun x hx => hqueue x (List.mem_of_mem_tail hx)) hitems⟩
      · have hnone : (queue.filter fun x => !env.alive x) = [] :=
          List.filter_eq_nil_iff.mpr fun x hx => by
            rw [hqueue x hx env]
            exact Bool.false_ne_true
        rw [hnone] at hmany
        exact absurd hmany (by decide)

/-- A run on a queue that is empty at first: if what a pop finds dead stays dead, each pop returns
the first live one of the values that were added and not popped, and if no value expires, the run is
that of a plain queue. -/
theorem run_fifo {keyN : Key} (hkeyN : isKeyValid keyN) {calls : List Call}
    (hacc : ∀ c ∈ calls, c.Accepted) (hids : (ids calls).Pairwise (· < ·)) {db : Db}
    (hdb : Increasing Pair.key db) (hempty : ∀ p ∈ db, ¬keyControlOf keyN <+: p.key) :
    (Steady keyN calls → Fifo keyN [] [] calls db) ∧
      ((∀ x ∈ items keyN calls, x.expires = 0) → Refines keyN [] calls db) := by
  have hinv : Inv keyN [] [] [] [] db := by
    refine ⟨hdb, .nil, fun id hid => absurd hid List.not_mem_nil,
      fun x hx => absurd hx List.not_mem_nil, fun t ht hit => absurd hit.1 (hempty t ht),
      fun t ht hit => absurd hit.1 (hempty t ht), .inl rfl, fun now => ?_,
      fun t ht hit => absurd hit.1 (hempty t ht), [], Nat.zero_le _,
      fun t ht hit => absurd hit.1 (hempty t ht)⟩
    have hget : get (keyControlOf keyN) db = none :=
      lookup_eq_none fun p hp heq => hempty p hp (heq ▸ List.prefix_rfl)
    rw [if_pos rfl, holds, getPairPtr, hget, Option.filter_none, Option.map_none]
  have hfifo : Steady keyN calls → Fifo keyN [] [] calls db := fun hsteady =>
    fifo_of_inv hkeyN hinv (fun x hx => absurd hx List.not_mem_nil) hacc hids
      (fun id hid => absurd hid List.not_mem_nil) (fun x hx => absurd hx List.not_mem_nil)
      (fun x hx => hx) hsteady
  refine ⟨hfifo, fun hforever => ?_⟩
  have halive : ∀ x ∈ items keyN calls, ∀ env : PopEnv, env.alive x = true := fun x hx env => by
    refine isOK_of_forever ?_ (hforever x hx) _
    obtain ⟨c, hc, hitem⟩ := List.mem_filterMap.mp hx
    cases c with
    | add w id cmd val exp =>
      rw [Call.item] at hitem
      split at hitem
      · obtain rfl := Option.some.inj hitem
        exact (hacc _ hc).1
      · exact absurd hitem.symm (Option.some_ne_none x)
    | pop env' cmd => exact absurd hitem.symm (Option.some_ne_none x)
  have hsteady : Steady keyN calls :=
    List.pairwise_of_forall fun c d x hx hdead =>
      absurd (hdead.symm.trans (halive x hx c)) Bool.false_ne_true
  exact (hfifo hsteady).refines (fun x hx => absurd hx List.not_mem_nil) halive

/-- The clock always shows one time. -/
def stopped (now : UInt64) : PopEnv :=
  ⟨fun _ => now, ⟨false, true, now⟩, ⟨false, true, now⟩⟩

/-- Two values come out in the order in which they came. -/
theorem run_fifo_two :
    Fifo [110] [] [] [.add ⟨false, true, 0⟩ [49] [] [97] none, .add ⟨false, true, 0⟩ [50] [] [98] none,
        .pop (stopped 0) []] [] ∧
      Refines [110] [] [.add ⟨false, true, 0⟩ [49] [] [97] none,
        .add ⟨false, true, 0⟩ [50] [] [98] none, .pop (stopped 0) []] [] := by
  have h := @run_fifo [110] (by decide) [.add ⟨false, true, 0⟩ [49] [] [97] none,
    .add ⟨false, true, 0⟩ [50] [] [98] none, .pop (stopped 0) []] ?_ (by decide) [] .nil
    fun p hp => absurd hp List.not_mem_nil
  · exact ⟨h.1 (List.pairwise_singleton _ _), h.2 (by decide +kernel)⟩
  · intro c hc
    rcases List.mem_cons.mp hc with rfl | hc
    · exact ⟨by decide, by decide, by decide, by decide⟩
    · rcases List.mem_cons.mp hc with rfl | hc
      · exact ⟨by decide, by decide, by decide, by decide⟩
      · rw [List.mem_singleton.mp hc]
        trivial

/-- A value that has expired is not popped. -/
theorem run_not_refines : ¬∀ (keyN : Key) (calls : List Call), isKeyValid keyN →
    (∀ c ∈ calls, c.Accepted) → (ids calls).Pairwise (· < ·) → Refines keyN [] calls [] := by
  intro hall
  have h := hall [110] [.add ⟨false, true, 0⟩ [49] [] [97] (some [49]),
    .pop (stopped 0xFFFFFFFFFFFF) []] (by decide) (fun c hc => ?_) (by decide)
  · exact absurd h.2.2.2.1 (by decide +kernel)
  · rcases List.mem_cons.mp hc with rfl | hc
    · exact ⟨by decide, by decide, by decide, by decide⟩
    · rw [List.mem_singleton.mp hc]
      trivial

end HM4.Queue
