import HM4.StoreWrites
import HM4.RedisProtocol

/-!
# Setting many keys

`MSET` sets one key after another. `MSETXX` sets its keys only if all of them are there: it looks
for their pairs first, writes the values for which the pairs have room in place, and inserts the
others when it is done with these.
-/

namespace HM4.SetMany

open LexPrefix Bytes Pairs PairFactory MemList KeyedList Database Overlay MutableX

/-! ## The code -/

/-- The keys and values among the parameters. -/
def groups : List Key → List (Key × Key)
  | key :: val :: p => (key, val) :: groups p
  | _ => []

/-- The message of the first key or value that is not valid. -/
def checkGroups : List (Key × Key) → Option ErrorMessage
  | [] => none
  | (key, val) :: gs =>
    if ¬isKeyValid key then some .EMPTY_KEY
    else if ¬isValValid val then some .EMPTY_VAL
    else checkGroups gs

/-- The loop of `MSET` from a number of writes on. -/
def insertAll (env : Env) : (n : ℕ) → List (Key × Key) → Store → Store
  | _, [], s => s
  | n, (key, val) :: gs, s =>
    insertAll env (n + 1) gs (s.insertF (env.turn n) (normal key val 0 0) env.now)

/-- `MSET`. -/
def MSET (env : Env) (p : List Key) (s : Store) : Reply × Store :=
  if p.length < 3 ∨ (p.length - 1) % 2 ≠ 0 then (.error .NEED_GROUP_PARAMS_2, s)
  else
    match checkGroups (groups p.tail) with
    | some message => (.error message, s)
    | none => (.ok, insertAll env 0 (groups p.tail) s)

/-- `OutputBlob::ParamContainerSize`. -/
def ParamContainerSize : ℕ := 0xFF

/-- `canInsertHintValSize`. -/
def canInsertHintValSize (env : Env) (s : Store) (hint : Pair) (valSize : ℕ) : Bool :=
  env.canInsertHint s hint && decide (valSize ≤ hint.val.length)

/-- `proceedInsertHintF` of a normal pair. The hint leads to what is now the pair of the key in the
first list. -/
def proceedInsertHint (now : UInt64) (key val : Key) (s : Store) : Store :=
  if h : (normal key val 0 0).valid = true then
    match get key s.active with
    | some pair => s.withActive (put Pair.key ((normal key val 0 0).createHint h now pair) s.active)
        s.increasing_active.put
    | none => s
  else s

/-- The loop of `MSETXX` that fills its container, unless a key is missing. -/
def hints (env : Env) (s : Store) : List (Key × Key) → Option (List (Option Pair))
  | [] => some []
  | (key, val) :: gs =>
    match getPairPtr env.now key s.view with
    | some it =>
      let hint := if canInsertHintValSize env s it val.length = true then some it else none
      (hints env s gs).map (hint :: ·)
    | none => none

/-- The loop of `MSETXX` over its hints. -/
def putHints (now : UInt64) : List ((Key × Key) × Option Pair) → Store → Store
  | [], s => s
  | ((key, val), some _) :: l, s => putHints now l (proceedInsertHint now key val s)
  | (_, none) :: l, s => putHints now l s

/-- The loop of `MSETXX` over the others from a number of writes on. -/
def insertOthers (env : Env) : (n : ℕ) → List ((Key × Key) × Option Pair) → Store → Store
  | _, [], s => s
  | n, ((key, val), none) :: l, s =>
    insertOthers env (n + 1) l (s.insertF (env.turn n) (normal key val 0 0) env.now)
  | n, (_, some _) :: l, s => insertOthers env n l s

/-- `MSETXX`. -/
def MSETXX (env : Env) (p : List Key) (s : Store) : Reply × Store :=
  if p.length < 3 ∨ (p.length - 1) % 2 ≠ 0 then (.error .NEED_GROUP_PARAMS_2, s)
  else
    match checkGroups (groups p.tail) with
    | some message => (.error message, s)
    | none =>
      if ParamContainerSize < p.length / 2 then (.error .CONTAINER_CAPACITY, s)
      else
        match hints env s (groups p.tail) with
        | some pcontainer =>
          let l := (groups p.tail).zip pcontainer
          (.bool true, insertOthers env 0 l (putHints env.now l s))
        | none => (.bool false, s)

/-! ## What is left of a key -/

/-- The value and the expiration of a key. -/
def content (key : Key) (s : Store) : Option (Key × ℕ) :=
  (get key s.view).map fun p => (p.val, p.expires)

/-- The values for a key, one after another. -/
def valuesOf (key : Key) (gs : List (Key × Key)) : List Key :=
  (gs.filter fun g => g.1 = key).map Prod.snd

/-- What the last value for a key leaves. -/
def lastOf (key : Key) (gs : List (Key × Key)) : Option (Key × ℕ) :=
  (valuesOf key gs).getLast?.map fun val => (val, 0)

theorem valuesOf_filter (key : Key) (q : Key × Key → Bool) (gs : List (Key × Key)) :
    valuesOf key (gs.filter q) = (valuesOf key gs).filter fun val => q (key, val) := by
  unfold valuesOf
  rw [List.filter_map, List.filter_filter, List.filter_filter]
  refine congrArg _ (List.filter_congr fun g _ => ?_)
  by_cases hk : g.1 = key
  · subst hk
    simp
  · simp [hk]

theorem lastOf_cons (key : Key) (g : Key × Key) (gs : List (Key × Key)) :
    lastOf key (g :: gs) = (lastOf key gs).or (if g.1 = key then some (g.2, 0) else none) := by
  unfold lastOf valuesOf
  by_cases hk : g.1 = key
  · rw [List.filter_cons_of_pos (by simpa using hk), List.map_cons, List.getLast?_cons, if_pos hk]
    cases ((gs.filter fun g => g.1 = key).map Prod.snd).getLast? <;> rfl
  · rw [List.filter_cons_of_neg (by simpa using hk), if_neg hk, Option.or_none]

/-- Where the entries of a kind are moved to the front, the last one stays the last, just if it is
not of this kind or all are. -/
theorem getLast?_or_iff {α : Type*} (f : α → Bool) (l : List α) :
    (l.filter fun x => !f x).getLast?.or (l.filter f).getLast? = l.getLast? ↔
      ∀ x ∈ l.getLast?, f x = true → ∀ y ∈ l, f y = true := by
  rcases List.eq_nil_or_concat l with rfl | ⟨l, x, rfl⟩
  · simp
  · rw [List.concat_eq_append, List.getLast?_concat, List.filter_append, List.filter_append]
    by_cases hx : f x = true
    · have hfirst : [x].filter (fun x => !f x) = [] := by simp [hx]
      have hsecond : [x].filter f = [x] := by simp [hx]
      rw [hfirst, hsecond, List.append_nil, List.getLast?_concat]
      cases hrest : (l.filter fun x => !f x).getLast? with
      | none =>
        have hnil := List.filter_eq_nil_iff.mp (List.getLast?_eq_none_iff.mp hrest)
        simp only [Option.none_or, true_iff]
        intro _ _ _ y hy
        rcases List.mem_append.mp hy with hy | hy
        · simpa using hnil y hy
        · exact List.mem_singleton.mp hy ▸ hx
      | some y =>
        have hmem := List.mem_filter.mp (List.mem_of_getLast? hrest)
        simp only [Bool.not_eq_true'] at hmem
        constructor
        · intro heq
          rw [Option.some_or, Option.some_inj] at heq
          rw [heq, hx] at hmem
          exact Bool.noConfusion hmem.2
        · intro hall
          have hy := hall x rfl hx y (List.mem_append_left _ hmem.1)
          rw [hmem.2] at hy
          exact Bool.noConfusion hy
    · have hfirst : [x].filter (fun x => !f x) = [x] := by simp [hx]
      rw [hfirst, List.getLast?_concat, Option.some_or]
      simp only [true_iff]
      intro y hy hfy
      exact absurd (Option.some.inj hy ▸ hfy) hx

theorem isSome_getLast?_or {α : Type*} (f : α → Bool) (l : List α) :
    ((l.filter fun x => !f x).getLast?.or (l.filter f).getLast?).isSome =
      l.getLast?.isSome := by
  cases l with
  | nil => rfl
  | cons x l => by_cases hx : f x = true <;> simp [hx, List.getLast?_cons]

/-! ## One write -/

/-- The value and the expiration of a pair. -/
def Has (val : Key) (o : Option Pair) : Prop := (o.map fun p => (p.val, p.expires)) = some (val, 0)

section Writes

variable {now : UInt64} {key val : Key} {s s' : Store}

theorem normal_has (h : (normal key val 0 0).valid = true) (p : Pair)
    (hp : (normal key val 0 0).Leaves h now p) : p.created = now.toNat ∧ Has val (some p) := by
  obtain rfl := normal_leaves hp
  exact ⟨rfl, rfl⟩

theorem content_of_puts (h : Puts now key (Has val) s s') (k : Key) :
    content k s' = (if key = k then some (val, 0) else none).or (content k s) := by
  by_cases hk : key = k
  · subst hk
    rw [if_pos rfl]
    exact h.self
  · rw [if_neg hk, Option.none_or]
    unfold content
    rw [h.other k fun heq => hk heq.symm]

theorem puts_proceedInsertHint (h : (normal key val 0 0).valid = true) (hs : Timely now s)
    (hold : (get key s.active).isSome = true) :
    Puts now key (Has val) s (proceedInsertHint now key val s) := by
  obtain ⟨pair, hpair⟩ := Option.isSome_iff_exists.mp hold
  have hkey : pair.key = key := lookup_key hpair
  unfold proceedInsertHint
  rw [dif_pos h, hpair]
  obtain ⟨hcreated, hhas⟩ := normal_has h _ (.inr ⟨pair, hkey, rfl⟩)
  exact puts_put ((normal key val 0 0).createHint_key h now pair hkey) hcreated hhas (hs.at key)
    (.inl rfl)

theorem active_proceedInsertHint (hvalid : (normal key val 0 0).valid = true) {k : Key}
    (h : (get k s.active).isSome = true) :
    (get k (proceedInsertHint now key val s).active).isSome = true := by
  unfold proceedInsertHint
  rw [dif_pos hvalid]
  split
  · next pair hpair =>
    have hkey := (normal key val 0 0).createHint_key hvalid now pair (lookup_key hpair)
    change (get k (put Pair.key ((normal key val 0 0).createHint hvalid now pair)
      s.active)).isSome = true
    by_cases hk : ((normal key val 0 0).createHint hvalid now pair).key = k
    · rw [← hk]
      exact (congrArg Option.isSome (lookup_put_self Pair.key _ s.active)).trans rfl
    · exact (congrArg Option.isSome (lookup_put_of_ne hk s.active)).trans h
  · exact h

end Writes

/-! ## The loops -/

section Loops

variable {env : Env} {gs : List (Key × Key)}

/-- Keys and values that can be written. -/
def Writable (gs : List (Key × Key)) : Prop := ∀ g ∈ gs, (normal g.1 g.2 0 0).valid = true

theorem writable_of_checkGroups (h : checkGroups gs = none) : Writable gs := by
  induction gs with
  | nil => exact fun _ hg => absurd hg List.not_mem_nil
  | cons g gs ih =>
    unfold checkGroups at h
    split at h
    · exact nomatch h
    · next hkey =>
      split at h
      · exact nomatch h
      · next hval =>
        exact List.forall_mem_cons.mpr
          ⟨decide_eq_true ⟨not_not.mp hkey, not_not.mp hval⟩, ih h⟩

/-- Writes one after another leave the last value of each key. -/
theorem insertAll_content (hmemory : ∀ n, (env.turn n).memory = true) (hvalid : Writable gs)
    (n : ℕ) {s : Store} (hs : Timely env.now s) (k : Key) :
    content k (insertAll env n gs s) = (lastOf k gs).or (content k s) := by
  induction gs generalizing n s with
  | nil => rfl
  | cons g gs ih =>
    obtain ⟨hg, hgs⟩ := List.forall_mem_cons.mp hvalid
    have hputs : Puts env.now g.1 (Has g.2) s
        (s.insertF (env.turn n) (normal g.1 g.2 0 0) env.now) :=
      puts_insertF (hmemory n) hg rfl (normal_has hg) (hs.at g.1)
    rw [insertAll, ih hgs (n + 1) (hputs.timely hs), content_of_puts hputs, lastOf_cons,
      Option.or_assoc]

/-- Writes in place do so too, where the first list has their keys. -/
theorem putHints_content {l : List ((Key × Key) × Option Pair)} {now : UInt64}
    (hvalid : Writable (l.map Prod.fst)) {s : Store} (hs : Timely now s)
    (hactive : ∀ x ∈ l, x.2.isSome = true → (get x.1.1 s.active).isSome = true) :
    Timely now (putHints now l s) ∧ ∀ k, content k (putHints now l s) =
      (lastOf k ((l.filter fun x => x.2.isSome).map Prod.fst)).or (content k s) := by
  induction l generalizing s with
  | nil => exact ⟨hs, fun _ => rfl⟩
  | cons x l ih =>
    obtain ⟨⟨key, val⟩, hint⟩ := x
    obtain ⟨hx, hl⟩ := List.forall_mem_cons.mp hvalid
    obtain ⟨hxactive, hlactive⟩ := List.forall_mem_cons.mp hactive
    cases hint with
    | none =>
      rw [putHints, List.filter_cons_of_neg (by simp)]
      exact ih hl hs hlactive
    | some hint =>
      have hputs := puts_proceedInsertHint hx hs (hxactive rfl)
      obtain ⟨htimely, hcontent⟩ := ih hl (hputs.timely hs) fun y hy hhint =>
        active_proceedInsertHint hx (hlactive y hy hhint)
      refine ⟨htimely, fun k => ?_⟩
      rw [putHints, hcontent, content_of_puts hputs, List.filter_cons_of_pos (by simp),
        List.map_cons, lastOf_cons, Option.or_assoc]

theorem insertOthers_eq (n : ℕ) (l : List ((Key × Key) × Option Pair)) (s : Store) :
    insertOthers env n l s =
      insertAll env n ((l.filter fun x => !x.2.isSome).map Prod.fst) s := by
  induction l generalizing n s with
  | nil => rfl
  | cons x l ih =>
    obtain ⟨⟨key, val⟩, hint⟩ := x
    cases hint with
    | none =>
      rw [insertOthers, ih, List.filter_cons_of_pos (by simp)]
      rfl
    | some hint => rw [insertOthers, ih, List.filter_cons_of_neg (by simp)]

/-- The pair that has room for the value in place. -/
def hintOf (env : Env) (s : Store) (g : Key × Key) : Option Pair :=
  (getPairPtr env.now g.1 s.view).filter fun it => canInsertHintValSize env s it g.2.length

/-- All keys are there, and alive. -/
def AllLive (env : Env) (s : Store) (gs : List (Key × Key)) : Prop :=
  ∀ g ∈ gs, (getPairPtr env.now g.1 s.view).isSome = true

theorem hints_of_allLive {s : Store} (h : AllLive env s gs) :
    hints env s gs = some (gs.map (hintOf env s)) := by
  induction gs with
  | nil => rfl
  | cons g gs ih =>
    obtain ⟨hg, hgs⟩ := List.forall_mem_cons.mp h
    obtain ⟨it, hit⟩ := Option.isSome_iff_exists.mp hg
    rw [hints, hit]
    dsimp only
    rw [ih hgs, Option.map_some, List.map_cons, hintOf, hit, Option.filter_some]

theorem hints_of_not_allLive {s : Store} (h : ¬AllLive env s gs) : hints env s gs = none := by
  induction gs with
  | nil => exact absurd (fun _ hg => absurd hg List.not_mem_nil) h
  | cons g gs ih =>
    rw [hints]
    split
    · next it hit =>
      have hgs : ¬AllLive env s gs := fun hall => h (List.forall_mem_cons.mpr
        ⟨by rw [hit, Option.isSome_some], hall⟩)
      rw [ih hgs, Option.map_none]
    · rfl

end Loops

/-! ## Both commands -/

/-- The value is written in place. -/
def InPlace (env : Env) (s : Store) (g : Key × Key) : Bool := (hintOf env s g).isSome

/-- If the last value for a key is written in place, all values for the key are. -/
def InOrder (env : Env) (s : Store) (gs : List (Key × Key)) : Prop :=
  ∀ key, ∀ val ∈ (valuesOf key gs).getLast?, InPlace env s (key, val) = true →
    ∀ val' ∈ valuesOf key gs, InPlace env s (key, val') = true

/-- Parameters that the commands accept, no more than the protocol reads. -/
structure Params (p : List Key) : Prop where
  even : ¬(p.length < 3 ∨ (p.length - 1) % 2 ≠ 0)
  valid : checkGroups (groups p.tail) = none
  length_le : p.length ≤ RedisProtocol.maxParams

/-- `MSETXX` writes as `MSET` if all keys are there, and else nothing. -/
def Agrees (env env' : Env) (p : List Key) (s : Store) : Prop :=
  (AllLive env s (groups p.tail) → (MSETXX env p s).1 = .bool true ∧
    ∀ k, content k (MSETXX env p s).2 = content k (MSET env' p s).2) ∧
  (¬AllLive env s (groups p.tail) → MSETXX env p s = (.bool false, s))

section Commands

variable {env env' : Env} {p : List Key} {s : Store}

theorem MSET_eq (hp : Params p) : MSET env p s = (.ok, insertAll env 0 (groups p.tail) s) := by
  rw [MSET, if_neg hp.even, hp.valid]

theorem MSETXX_eq (hp : Params p) {r : Option (List (Option Pair))}
    (hr : hints env s (groups p.tail) = r) :
    MSETXX env p s = r.elim (.bool false, s) fun pcontainer =>
      (.bool true, insertOthers env 0 ((groups p.tail).zip pcontainer)
        (putHints env.now ((groups p.tail).zip pcontainer) s)) := by
  have hcapacity : ¬ParamContainerSize < p.length / 2 := by
    have hle := hp.length_le
    change ¬255 < p.length / 2
    change p.length ≤ 255 at hle
    omega
  rw [MSETXX, if_neg hp.even, hp.valid]
  dsimp only
  rw [if_neg hcapacity, hr]
  cases r <;> rfl

theorem InPlace.active {g : Key × Key} (h : InPlace env s g = true) :
    (get g.1 s.active).isSome = true := by
  obtain ⟨it, hit⟩ := Option.isSome_iff_exists.mp h
  obtain ⟨hfound, hroom⟩ := Option.filter_eq_some_iff.mp hit
  have hkey : it.key = g.1 := getPairPtr_key hfound
  unfold canInsertHintValSize Env.canInsertHint at hroom
  simp only [Bool.and_eq_true, decide_eq_true_eq] at hroom
  rw [← hkey, hroom.1.1]
  rfl

/-- What `MSETXX` leaves: the last of the values that are inserted, or else the last of those that
are written in place. -/
theorem MSETXX_content (hmemory : ∀ n, (env.turn n).memory = true) (hs : Timely env.now s)
    (hp : Params p) (hlive : AllLive env s (groups p.tail)) :
    (MSETXX env p s).1 = .bool true ∧ ∀ k, content k (MSETXX env p s).2 =
      (lastOf k ((groups p.tail).filter fun g => !InPlace env s g)).or
        ((lastOf k ((groups p.tail).filter (InPlace env s))).or (content k s)) := by
  have hwritable := writable_of_checkGroups hp.valid
  rw [MSETXX_eq hp (hints_of_allLive hlive)]
  generalize groups p.tail = gs at hlive hwritable ⊢
  have hzip : gs.zip (gs.map (hintOf env s)) = gs.map fun g => (g, hintOf env s g) := by
    simpa using List.zip_map' (f := id) (g := hintOf env s) (l := gs)
  have hfilter (q : Option Pair → Bool) :
      ((gs.map fun g => (g, hintOf env s g)).filter fun x => q x.2).map Prod.fst =
        gs.filter fun g => q (hintOf env s g) := by
    rw [List.filter_map, List.map_map]
    exact List.map_id _
  have hfst : (gs.map fun g => (g, hintOf env s g)).map Prod.fst = gs := by
    rw [List.map_map]
    exact List.map_id _
  refine ⟨rfl, fun k => ?_⟩
  rw [Option.elim_some, hzip]
  dsimp only
  obtain ⟨htimely, hcontent⟩ := @putHints_content (gs.map fun g => (g, hintOf env s g)) env.now
    (hfst.symm ▸ hwritable) s hs fun x hx hhint => by
      obtain ⟨g, -, rfl⟩ := List.mem_map.mp hx
      exact InPlace.active hhint
  rw [insertOthers_eq, hfilter fun hint => !hint.isSome, insertAll_content hmemory
    (fun g hg => hwritable g (List.mem_of_mem_filter hg)) 0 htimely, hcontent,
    hfilter Option.isSome]
  rfl

theorem lastOf_filter (key : Key) (q : Key × Key → Bool) (gs : List (Key × Key)) :
    lastOf key (gs.filter q) =
      ((valuesOf key gs).filter fun val => q (key, val)).getLast?.map fun val => (val, 0) := by
  rw [lastOf, valuesOf_filter]

/-- Of one key the same is left, just if its last value is not written in place before others. -/
theorem lastOf_or_iff (q : Key × Key → Bool) (gs : List (Key × Key)) (key : Key)
    (old : Option (Key × ℕ)) :
    (lastOf key (gs.filter fun g => !q g)).or ((lastOf key (gs.filter q)).or old) =
        (lastOf key gs).or old ↔
      ∀ val ∈ (valuesOf key gs).getLast?, q (key, val) = true →
        ∀ val' ∈ valuesOf key gs, q (key, val') = true := by
  rw [← getLast?_or_iff fun val => q (key, val), ← Option.or_assoc, lastOf_filter, lastOf_filter,
    ← Option.map_or, lastOf]
  have hsome := isSome_getLast?_or (fun val => q (key, val)) (valuesOf key gs)
  generalize ((valuesOf key gs).filter fun val => !q (key, val)).getLast?.or
    ((valuesOf key gs).filter fun val => q (key, val)).getLast? = last at hsome ⊢
  cases hlast : (valuesOf key gs).getLast? with
  | none =>
    rw [hlast, Option.isSome_none, Option.isSome_eq_false_iff, Option.isNone_iff_eq_none] at hsome
    simp [hsome]
  | some val =>
    rw [hlast, Option.isSome_some] at hsome
    obtain ⟨val', rfl⟩ := Option.isSome_iff_exists.mp hsome
    simp

/-- Where all keys are there, `MSETXX` writes as `MSET` just if no value is inserted behind the last
one of its key, which was written in place. -/
theorem agrees_iff_inOrder (hmemory : ∀ n, (env.turn n).memory = true)
    (hmemory' : ∀ n, (env'.turn n).memory = true) (hnow : env'.now = env.now)
    (hs : Timely env.now s) (hp : Params p) :
    Agrees env env' p s ↔ (AllLive env s (groups p.tail) → InOrder env s (groups p.tail)) := by
  have hMSET (k : Key) : content k (MSET env' p s).2 =
      (lastOf k (groups p.tail)).or (content k s) := by
    rw [MSET_eq hp]
    exact insertAll_content hmemory' (writable_of_checkGroups hp.valid) 0 (hnow ▸ hs) k
  constructor
  · intro hagrees hlive key
    obtain ⟨-, hcontent⟩ := MSETXX_content hmemory hs hp hlive
    have hsame := (hagrees.1 hlive).2 key
    rw [hcontent, hMSET, lastOf_or_iff] at hsame
    exact hsame
  · intro horder
    refine ⟨fun hlive => ?_, fun hlive => ?_⟩
    · obtain ⟨hreply, hcontent⟩ := MSETXX_content hmemory hs hp hlive
      refine ⟨hreply, fun k => ?_⟩
      rw [hcontent, hMSET, lastOf_or_iff]
      exact horder hlive k
    · rw [MSETXX_eq hp (hints_of_not_allLive hlive)]
      rfl

end Commands

/-! ## A key that is given twice -/

theorem valid_lone : (normal [107] [118] 0 1).valid = true :=
  valid_normal 107 118 0 1

/-- A pair with a value of one octet. -/
def lone : Pair := (normal [107] [118] 0 1).create valid_lone 0

theorem increasing_loneStore : ∀ l ∈ [[lone], [], []], Increasing Pair.key l :=
  List.forall_mem_cons.mpr ⟨List.pairwise_singleton _ _, List.forall_mem_cons.mpr
    ⟨List.Pairwise.nil, List.forall_mem_singleton.mpr List.Pairwise.nil⟩⟩

/-- A store of one pair, which lies in the first list. -/
def loneStore : Store where
  active := [lone]
  saved := []
  tables := [[]]
  version := 0
  cleared := 0
  increasing := increasing_loneStore

/-- The first list owns its pairs, and no write flushes it. -/
def owning : Env where
  et := .TOMBSTONE
  now := 0x400000000
  owns := fun _ => true
  hint := fun _ => ⟨false, true, true⟩
  turn := fun _ => ⟨false, true, true⟩

theorem timely_loneStore : Timely owning.now loneStore :=
  show ∀ l ∈ [[lone], [], []], ∀ p ∈ l, p.created ≤ owning.now.toNat by decide +kernel

/-- `MSETXX k a k b`: both values are written in place. -/
theorem agrees_iff_inOrder_twice :
    Agrees owning owning [[], [107], [97], [107], [98]] loneStore := by
  refine (agrees_iff_inOrder (fun _ => rfl) (fun _ => rfl) rfl timely_loneStore
    ⟨by decide, by decide, by decide⟩).mpr fun _ key _ _ _ val hval => ?_
  obtain ⟨g, hg, rfl⟩ := List.mem_map.mp hval
  obtain ⟨hmem, hkey⟩ := List.mem_filter.mp hg
  have hall : ∀ g ∈ groups [[107], [97], [107], [98]], InPlace owning loneStore g = true := by
    decide +kernel
  obtain rfl := of_decide_eq_true hkey
  exact hall g hmem

/-- `MSETXX k aa k b`: the first value is inserted behind the second one. -/
theorem not_agrees_long :
    ¬Agrees owning owning [[], [107], [97, 97], [107], [98]] loneStore := by
  intro h
  have hlive : AllLive owning loneStore (groups [[107], [97, 97], [107], [98]]) :=
    show ∀ g ∈ groups [[107], [97, 97], [107], [98]],
      (getPairPtr owning.now g.1 loneStore.view).isSome = true by decide +kernel
  have hXX : content [107] (MSETXX owning [[], [107], [97, 97], [107], [98]] loneStore).2 =
      some ([97, 97], 0) := by decide +kernel
  have hMSET : content [107] (MSET owning [[], [107], [97, 97], [107], [98]] loneStore).2 =
      some ([98], 0) := by decide +kernel
  have hsame := (h.1 hlive).2 [107]
  rw [hXX, hMSET] at hsame
  exact absurd hsame (by decide)

end HM4.SetMany
