import HM4.RSet

/-!
# Runs of records under many tokens

What a command does to the records is read from its parameters alone. After any commands the
control key of a record tells the distinct tokens of its last command in their order, with the
sort key behind them, and the record has a key for each of these tokens and no other.
-/

namespace HM4.RSet

open LexPrefix Bytes Pairs PairFactory MemList KeyedList Database Separated IndexToken RecordIndex
open ZSet (Env)

/-! ## One operation -/

/-- What a command does to one record. -/
inductive Op
  | add (env : Env) (keyN keySub keySort : Key) (tokens : List Key)
  | rem (env : Env) (keyN keySub : Key)

namespace Op

/-- What an operation is to the records. -/
def event : Op → (Key × Key) × Option ((List Key × Key) × Key)
  | add _ keyN keySub keySort tokens => ((keyN, keySub), some ((tokens, keySort), keySub))
  | rem _ keyN keySub => ((keyN, keySub), none)

/-- What an operation does. -/
def step : Op → Db → Db
  | add env keyN keySub keySort tokens => RSet.add env keyN keySub keySort tokens
  | rem env keyN keySub => RSet.rem env keyN keySub

/-- What is known of an operation. -/
def Sound (o : Op) : Prop :=
  valid o.event.1.1 ∧ valid o.event.1.2 ∧ ∀ x ∈ o.event.2, Proper x.1 ∧ x.2 = o.event.1.2

end Op

section Step

variable {db : Db} (hdb : Increasing Pair.key db) {i : Key × Key} (hN : valid i.1) (hS : valid i.2)
  {old : Option (List Key × Key)} (hold : ∀ r ∈ old, Proper r)
  (hctrl : ∀ now, holds now db (scheme.ctrl i) = old.map scheme.encode)

include hold hctrl

/-- The control key is read as the last version. -/
theorem getIndexes_eq (check : UInt64) :
    getIndexes check (makeKeyCtrl i.1 i.2) db = old.map fun r => r.1 ++ [r.2] := by
  have hmap : (getPairPtr check (makeKeyCtrl i.1 i.2) db).map Pair.val = old.map scheme.encode :=
    hctrl check
  have hread : getIndexes check (makeKeyCtrl i.1 i.2) db =
      ((getPairPtr check (makeKeyCtrl i.1 i.2) db).map Pair.val).bind
        validateTokensStored_withKeySort := by
    rw [Option.bind_map]
    rfl
  rw [hread, hmap]
  cases old with
  | none => rfl
  | some r => exact decode_encode (hold r rfl)

include hN hS

/-- The keys of the last version are removed. -/
theorem elim_removeOld (env : Env) (f : Db → Db) :
    ((getIndexes env.check (makeKeyCtrl i.1 i.2) db).elim db fun x =>
      f (removeOld env x i.1 i.2 db)) =
      old.elim db fun r => f (eraseKeys env.erase (scheme.keys i r) db) := by
  rw [getIndexes_eq hold hctrl]
  cases old with
  | none => rfl
  | some r =>
    have hkeys := removeKeys_eq hN hS (hold r rfl) env.erase db
    rw [Option.map_some, Option.elim_some, Option.elim_some, removeOld, List.dropLast_concat,
      List.getLastD_concat, hkeys]

include hdb

/-- What `add` writes. -/
theorem holds_add (env : Env) {r : List Key × Key} (hr : Proper r) (now : UInt64) (k : Key) :
    holds now (add env i.1 i.2 r.2 r.1 db) k =
      if k = scheme.ctrl i then some (scheme.encode r)
      else if k ∈ scheme.keys i r then some i.2
      else if k ∈ old.elim [] (scheme.keys i) then none
      else holds now db k := by
  have hremove := elim_removeOld hN hS hold hctrl env fun db => db
  have hval : isValValid i.2 := hS.2.trans (by decide)
  have hdrop : (old.elim db fun r => eraseKeys env.erase (scheme.keys i r) db) =
      eraseKeys env.erase (old.elim [] (scheme.keys i)) db := by
    cases old with
    | none => rfl
    | some r => rfl
  rw [add, hremove, hdrop, insertKeys_eq hN hS hr,
    holds_insertKeys (fun k hk => (dataKey_of_mem hN hS hr hk).2) hval hS.1,
    holds_iXMADDFactory hN hS hr]
  by_cases hk : k = scheme.ctrl i
  · have hnot : k ∉ scheme.keys i r := hk ▸ ctrl_notMem hN hS hr
    rw [if_neg hnot, if_pos hk, hk, Function.update_self]
  · rw [if_neg hk, Function.update_of_ne hk, holds_eraseKeys hdb]

/-- What `rem` writes. -/
theorem holds_rem (env : Env) (now : UInt64) (k : Key) :
    holds now (rem env i.1 i.2 db) k =
      if k = scheme.ctrl i then none
      else if k ∈ old.elim [] (scheme.keys i) then none else holds now db k := by
  have hremove := elim_removeOld hN hS hold hctrl env
    (Database.erase env.ctrl (makeKeyCtrl i.1 i.2))
  rw [rem, hremove]
  cases old with
  | none =>
    by_cases hk : k = scheme.ctrl i
    · rw [if_pos hk, hk]
      exact hctrl now
    · rw [if_neg hk]
      exact (if_neg List.not_mem_nil).symm
  | some r =>
    rw [Option.elim_some, Option.elim_some, holds_erase (increasing_eraseKeys hdb _ _)]
    change Function.update _ (scheme.ctrl i) _ k = _
    by_cases hk : k = scheme.ctrl i
    · rw [if_pos hk, hk, Function.update_self]
    · rw [if_neg hk, Function.update_of_ne hk, holds_eraseKeys hdb]

end Step

theorem increasing_removeOld {db : Db} (hdb : Increasing Pair.key db) (env : Env)
    (icontainer : List Key) (keyN keySub : Key) :
    Increasing Pair.key (removeOld env icontainer keyN keySub db) := by
  unfold removeOld removeKeys
  refine List.foldlRecOn _ _ hdb fun db' hdb' txt _ => ?_
  split
  · exact increasing_erase hdb' _ _
  · exact hdb'

/-- An operation keeps the order of the list. -/
theorem increasing_step {db : Db} (hdb : Increasing Pair.key db) (o : Op) :
    Increasing Pair.key (o.step db) := by
  cases o with
  | add env keyN keySub keySort tokens =>
    have hremove : Increasing Pair.key
        ((getIndexes env.check (makeKeyCtrl keyN keySub) db).elim db fun old =>
          removeOld env old keyN keySub db) := by
      cases getIndexes env.check (makeKeyCtrl keyN keySub) db with
      | none => exact hdb
      | some x => exact increasing_removeOld hdb env x keyN keySub
    have hctrl := increasing_insertF hremove env.ctrl.owned
      (iXMADDFactory (makeKeyCtrl keyN keySub) tokens keySort) env.ctrl.now
    change Increasing Pair.key (insertKeys env.insert tokens keyN keySub keySort _)
    unfold insertKeys
    refine List.foldlRecOn _ _ hctrl fun db' hdb' txt _ => ?_
    split
    · exact increasing_insert hdb' _ _ _
    · exact hdb'
  | rem env keyN keySub =>
    change Increasing Pair.key ((getIndexes env.check (makeKeyCtrl keyN keySub) db).elim db _)
    cases getIndexes env.check (makeKeyCtrl keyN keySub) db with
    | none => exact hdb
    | some x => exact increasing_erase (increasing_removeOld hdb env x keyN keySub) _ _

/-- Where no name of a set has a separator in it, records do not share keys. -/
theorem apart_of_keyN {ops : List Op} (hsound : ∀ o ∈ ops, o.Sound)
    (hkeyN : ∀ o ∈ ops, separator ∉ o.event.1.1) : Apart scheme (ops.map Op.event) := by
  have hmade : ∀ o ∈ ops, ∀ k ∈ made scheme o.event,
      CtrlKey o.event.1.1 o.event.1.2 k ∨ DataKey 1 o.event.1.1 o.event.1.2 k := by
    intro o ho k hk
    obtain ⟨hN, hS, hver⟩ := hsound o ho
    rcases List.mem_cons.mp hk with rfl | hk
    · exact .inl (ZSet.makeKeyCtrl_eq hN hS).1
    · cases hv : o.event.2 with
      | none =>
        rw [hv] at hk
        exact absurd hk List.not_mem_nil
      | some x =>
        rw [hv] at hk
        exact .inr (dataKey_of_mem hN hS (hver x hv).1 hk).1
  intro e he f hf hne k hk hk'
  obtain ⟨o, ho, rfl⟩ := List.mem_map.mp he
  obtain ⟨o', ho', rfl⟩ := List.mem_map.mp hf
  obtain ⟨hN, hS⟩ := recordKey_unique (hkeyN o ho) (hkeyN o' ho') (hmade o ho k hk)
    (hmade o' ho' k hk')
  exact hne (Prod.ext hN hS)

section Operations

variable {ops : List Op} (hsound : ∀ o ∈ ops, o.Sound) (hapart : Apart scheme (ops.map Op.event))

include hsound hapart

/-- Records do not share keys. -/
theorem separate : Separate scheme (UsedIn (ops.map Op.event)) (GoodIn (ops.map Op.event)) := by
  refine hapart.separate fun e he x hx => ?_
  obtain ⟨o, ho, rfl⟩ := List.mem_map.mp he
  obtain ⟨hN, hS, hver⟩ := hsound o ho
  exact ctrl_notMem hN hS (hver x hx).1

/-- An operation keeps the list consistent. -/
theorem consistent_step {m : Key × Key → Option ((List Key × Key) × Key)} {db db0 : Db}
    (hdb : Increasing Pair.key db)
    (h : ∀ now, Consistent scheme (UsedIn (ops.map Op.event)) (GoodIn (ops.map Op.event))
      (holds now db0) m (holds now db)) {o : Op} (ho : o ∈ ops) (now : UInt64) :
    Consistent scheme (UsedIn (ops.map Op.event)) (GoodIn (ops.map Op.event)) (holds now db0)
      (Function.update m o.event.1 o.event.2) (holds now (o.step db)) := by
  have hsep := separate hsound hapart
  have hevent := List.mem_map_of_mem (f := Op.event) ho
  obtain ⟨hN, hS, hver⟩ := hsound o ho
  -- what the control key held is proper
  have hold : ∀ r ∈ (m o.event.1).map Prod.fst, Proper r := fun r hr => by
    obtain ⟨y, hy, rfl⟩ := Option.map_eq_some_iff.mp hr
    obtain ⟨e, he, _, value, hv⟩ := (h 0).good hy
    obtain ⟨o', ho', rfl⟩ := List.mem_map.mp he
    obtain ⟨_, _, hver'⟩ := hsound o' ho'
    exact (hver' _ hv).1
  have hctrl : ∀ now, holds now db (scheme.ctrl o.event.1) =
      ((m o.event.1).map Prod.fst).map scheme.encode := fun now => by
    rw [Option.map_map]
    exact (h now).ctrl ⟨_, hevent, rfl⟩
  have hkeys : ∀ k ∈ ((m o.event.1).map Prod.fst).elim [] (scheme.keys o.event.1),
      ∃ r, GoodIn (ops.map Op.event) o.event.1 r ∧ k ∈ scheme.keys o.event.1 r := by
    intro k hk
    cases hm : m o.event.1 with
    | none =>
      rw [hm] at hk
      exact absurd hk List.not_mem_nil
    | some y =>
      rw [hm] at hk
      exact ⟨y.1, (h now).good hm, hk⟩
  have hcover : ∀ y, m o.event.1 = some y → ∀ k ∈ scheme.keys o.event.1 y.1,
      k ∈ ((m o.event.1).map Prod.fst).elim [] (scheme.keys o.event.1) := by
    intro y hy k hk
    rw [hy]
    exact hk
  cases o with
  | add env keyN keySub keySort tokens =>
    have hr := (hver _ rfl).1
    exact (h now).add hsep ⟨_, hevent, rfl, keySub, rfl⟩ keySub hkeys
      (fun y hy k hk => .inl (hcover y hy k hk)) (holds_add hdb hN hS hold hctrl env hr now)
  | rem env keyN keySub =>
    exact (h now).rem hsep ⟨_, hevent, rfl⟩ hkeys hcover (holds_rem hdb hN hS hold hctrl env now)

end Operations

/-! ## Commands -/

/-- The commands. -/
inductive Command
  | IXMADD (env : Env) (p : List Key)
  | IXMREM (env : ℕ → Env) (p : List Key)

namespace Command

section Process

variable (murmur_hash64a : Key → UInt64)

/-- What a command does. -/
def process : Command → Db → Reply × Db
  | IXMADD env p => ixmadd murmur_hash64a env p
  | IXMREM env p => ixmrem env p

/-- What a command should do to the records: `IXMADD` gives a record the distinct ones of the
tokens that are asked for, in their order. -/
def ops : Command → List Op
  | IXMADD env p =>
    match readAdd murmur_hash64a p with
    | .error _ => []
    | .ok a =>
      if asked a.groups = [] then []
      else [.add env a.keyN a.keySub a.keySort (sortUnique (asked a.groups))]
  | IXMREM env p =>
    match readRem p with
    | .error _ => []
    | .ok (keyN, keySubs) => keySubs.zipIdx.map fun x => .rem (env x.2) keyN x.1

/-- No token and no sort key has a separator in it, the container has room for all tokens, and one
more piece than there are distinct tokens has room too. -/
def Clear : Command → Prop
  | IXMADD _ p =>
    match readAdd murmur_hash64a p with
    | .error _ => True
    | .ok a =>
      (∀ x ∈ asked a.groups, separator ∉ x) ∧ separator ∉ a.keySort ∧
        (∀ x ∈ asked a.groups, x ∈ (asked a.groups).take ContainerSize) ∧
        (asked a.groups).dedup.length < ContainerSize
  | IXMREM _ _ => True

end Process

end Command

section Commands

variable {murmur_hash64a : Key → UInt64}

theorem readAdd_valid {p : List Key} {a : AddArgs} (h : readAdd murmur_hash64a p = .ok a) :
    valid a.keyN ∧ valid a.keySub ∧ valid a.keySort := by
  unfold readAdd at h
  dsimp only at h
  split_ifs at h with _ _ _ _ hvalid
  obtain rfl := Except.ok.inj h
  exact hvalid

theorem readRem_valid {p : List Key} {keyN : Key} {keySubs : List Key}
    (h : readRem p = .ok (keyN, keySubs)) : ∀ keySub ∈ keySubs, valid keyN ∧ valid keySub := by
  unfold readRem at h
  dsimp only at h
  split_ifs at h
  split at h
  · split_ifs at h
  · rename_i hfind
    obtain ⟨rfl, rfl⟩ := Prod.mk.inj (Except.ok.inj h)
    intro keySub hmem
    have hnot := List.find?_eq_none.mp hfind keySub hmem
    exact not_not.mp fun hc => hnot (decide_eq_true (.inr hc))

theorem length_sortUnique (l : List Key) : (sortUnique l).length = l.dedup.length := by
  have hperm : (sortUnique l).Perm l.dedup :=
    (List.perm_ext_iff_of_nodup ((sortUnique_pairwise l).imp ne_of_lt) (List.nodup_dedup l)).mpr
      fun x => by rw [mem_sortUnique, List.mem_dedup]
  exact hperm.length_eq

/-- What is known of what a command should do. -/
theorem ops_sound {c : Command} (hc : c.Clear murmur_hash64a) :
    ∀ o ∈ c.ops murmur_hash64a, o.Sound := by
  cases c with
  | IXMADD env p =>
    rw [Command.Clear] at hc
    rw [Command.ops]
    cases hread : readAdd murmur_hash64a p with
    | error message => exact fun o ho => absurd ho List.not_mem_nil
    | ok a =>
      rw [hread] at hc
      obtain ⟨htokens, hsort, _, hroom⟩ := hc
      obtain ⟨hN, hS, hvalid⟩ := readAdd_valid hread
      dsimp only
      split
      · exact fun o ho => absurd ho List.not_mem_nil
      · rename_i hne
        intro o ho
        obtain rfl := List.mem_singleton.mp ho
        refine ⟨hN, hS, fun x hx => ?_⟩
        obtain rfl := Option.some.inj hx
        have hmem : ∀ {y}, y ∈ sortUnique (asked a.groups) → y ∈ asked a.groups :=
          fun hy => mem_sortUnique.mp hy
        refine ⟨⟨fun hnil => hne ?_, fun y hy => ?_, hvalid, sortUnique_pairwise _, ?_,
          fun y hy => htokens y (hmem hy), hsort⟩, rfl⟩
        · refine List.eq_nil_iff_forall_not_mem.mpr fun y hy => ?_
          have hy' : y ∈ sortUnique (asked a.groups) := mem_sortUnique.mpr hy
          rw [show sortUnique (asked a.groups) = [] from hnil] at hy'
          exact List.not_mem_nil hy'
        · obtain ⟨g, _, hg⟩ := List.mem_flatMap.mp (hmem hy)
          exact of_decide_eq_true (List.mem_filter.mp hg).2
        · rw [length_sortUnique]
          exact hroom
  | IXMREM env p =>
    rw [Command.ops]
    cases hread : readRem p with
    | error message => exact fun o ho => absurd ho List.not_mem_nil
    | ok x =>
      intro o ho
      obtain ⟨y, hy, rfl⟩ := List.mem_map.mp ho
      obtain ⟨hN, hS⟩ := readRem_valid hread y.1 (List.fst_mem_of_mem_zipIdx hy)
      exact ⟨hN, hS, fun x hx => absurd hx.symm (Option.some_ne_none x)⟩

/-- A command does what it should. -/
theorem process_eq {c : Command} (hc : c.Clear murmur_hash64a) (db : Db) :
    (c.process murmur_hash64a db).2 =
      (c.ops murmur_hash64a).foldl (fun db o => o.step db) db := by
  cases c with
  | IXMADD env p =>
    rw [Command.Clear] at hc
    rw [Command.process, Command.ops, ixmadd]
    cases hread : readAdd murmur_hash64a p with
    | error message => rfl
    | ok a =>
      rw [hread] at hc
      dsimp only
      rw [validateTokensUser_eq hc.2.2.1]
      split_ifs
      · rfl
      · rfl
  | IXMREM env p =>
    rw [Command.process, Command.ops, ixmrem]
    cases hread : readRem p with
    | error message => rfl
    | ok x =>
      dsimp only
      rw [List.foldl_map]
      rfl

end Commands

/-- The list after some commands. -/
def run (murmur_hash64a : Key → UInt64) (commands : List Command) (db : Db) : Db :=
  commands.foldl (fun db c => (c.process murmur_hash64a db).2) db

/-- What some commands should do to the records. -/
def events (murmur_hash64a : Key → UInt64) (commands : List Command) :
    List ((Key × Key) × Option ((List Key × Key) × Key)) :=
  (commands.flatMap (Command.ops murmur_hash64a)).map Op.event

theorem run_eq {murmur_hash64a : Key → UInt64} {commands : List Command}
    (hclear : ∀ c ∈ commands, c.Clear murmur_hash64a) (db : Db) :
    run murmur_hash64a commands db =
      (commands.flatMap (Command.ops murmur_hash64a)).foldl (fun db o => o.step db) db := by
  induction commands generalizing db with
  | nil => rfl
  | cons c commands ih =>
    rw [run, List.foldl_cons, ← run, ih (fun d hd => hclear d (List.mem_cons_of_mem c hd)),
      process_eq (hclear c List.mem_cons_self), List.flatMap_cons, List.foldl_append]

/-- If no token and no sort key has a separator in it, all tokens have room and no two records
share a key, then after any commands the control keys tell the distinct tokens and the sort keys
of the last commands, and the records have the keys of these and no other keys. -/
theorem run_tracked {murmur_hash64a : Key → UInt64} {commands : List Command}
    (hclear : ∀ c ∈ commands, c.Clear murmur_hash64a)
    (hapart : Apart scheme (events murmur_hash64a commands)) {db : Db}
    (hdb : Increasing Pair.key db)
    (hempty : ∀ now, ∀ e ∈ events murmur_hash64a commands, ∀ k ∈ made scheme e,
      holds now db k = none) (now : UInt64) :
    Tracked scheme validateTokensStored_withKeySort (fun r => some (r.1 ++ [r.2]))
      (events murmur_hash64a commands) (holds now db)
      (holds now (run murmur_hash64a commands db)) := by
  have hsound : ∀ o ∈ commands.flatMap (Command.ops murmur_hash64a), o.Sound := fun o ho => by
    obtain ⟨c, hc, ho⟩ := List.mem_flatMap.mp ho
    exact ops_sound (hclear c hc) o ho
  rw [run_eq hclear]
  refine tracked_run (fun o ho m db' hdb' h =>
    ⟨increasing_step hdb' o, consistent_step hsound hapart hdb' h ho⟩) hdb ?_ ?_ now
  · exact fun now o ho => hempty now _ (List.mem_map_of_mem (f := Op.event) ho)
  · intro o ho x hx
    obtain ⟨_, _, hver⟩ := hsound o ho
    exact decode_encode (hver x hx).1

/-- One record with two tokens. -/
theorem run_tracked_two :
    Tracked scheme validateTokensStored_withKeySort (fun r => some (r.1 ++ [r.2]))
      (events (fun _ => 0) [.IXMADD ZSet.quiet [[], [110], [115], [107], [44], [98, 44, 97]]])
      (holds 0 [])
      (holds 0 (run (fun _ => 0)
        [.IXMADD ZSet.quiet [[], [110], [115], [107], [44], [98, 44, 97]]] [])) := by
  refine run_tracked (fun c hc => ?_) ?_ .nil (fun now e _ k _ => rfl) 0
  · obtain rfl := List.mem_singleton.mp hc
    change (∀ x ∈ asked [(44, [98, 44, 97])], separator ∉ x) ∧ _
    exact ⟨by decide, by decide, by decide, by decide⟩
  · intro e he f hf hne
    obtain rfl := List.mem_singleton.mp he
    obtain rfl := List.mem_singleton.mp hf
    exact absurd rfl hne

/-- A token with a separator in it is decoded to others, and its key stays behind. -/
theorem run_not_tracked : ¬∀ (murmur_hash64a : Key → UInt64) (commands : List Command)
    (now : UInt64), Tracked scheme validateTokensStored_withKeySort (fun r => some (r.1 ++ [r.2]))
      (events murmur_hash64a commands) (holds now [])
      (holds now (run murmur_hash64a commands [])) := by
  intro hall
  have h := hall (fun _ => 0) [.IXMADD ZSet.quiet [[], [110], [115], [107], [44], [97, 126, 98]],
    .IXMADD ZSet.quiet [[], [110], [115], [107], [44], [99]]] 0
  have hstale := (h.1 _ List.mem_cons_self).2 _ List.mem_cons_self rfl _ rfl
    [110, 126, 97, 126, 98, 126, 107, 126, 115] (by decide)
  exact absurd hstale (by decide +kernel)

end HM4.RSet
