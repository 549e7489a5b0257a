import HM4.ZSet
import HM4.MortonKeys
import HM4.ScanTails
import HM4.VectorSearchRuns

/-!
# Sets of points

The commands of the curves keep each point of a set under its code in hexadecimal text. A point
that is added again moves, and a point with an empty value is hidden: its code is still in the
control key, but its data key is a tombstone.
-/

namespace HM4.PointSets

open LexPrefix Bytes Pairs PairFactory MemList KeyedList Database Separated IndexToken IndexKeys
  RecordIndex
open ZSet (Env permutation1NoIndex makeKeyCtrl makeKeyData)

/-! ## The commands -/

/-- A code as it is in a key, `toHex` into an `MC1Buffer` or an `MCBuffer`. -/
@[irreducible]
def score (z : BitVec 64) : Key := MortonKeys.toHex z (List.replicate 16 0)

/-- What a command does to one point. -/
inductive Op
  | add (env : Env) (keyN keySub : Key) (z : BitVec 64) (value : Key)
  | rem (env : Env) (keyN keySub : Key)

namespace Op

/-- `zset::add` and `zset::rem`. -/
def step : Op → Db → Db
  | add env keyN keySub z value => ZSet.add permutation1NoIndex env keyN keySub [score z] value
  | rem env keyN keySub => ZSet.rem permutation1NoIndex env keyN keySub

/-- The point of an operation. -/
def id : Op → Key × Key
  | add _ keyN keySub _ _ => (keyN, keySub)
  | rem _ keyN keySub => (keyN, keySub)

/-- What an operation leaves of its point: its code and its value. -/
def version : Op → Option (BitVec 64 × Key)
  | add _ _ _ z value => some (z, value)
  | rem _ _ _ => none

end Op

/-- The list after some operations. -/
def run (ops : List Op) (db : Db) : Db := ops.foldl (fun db o => o.step db) db

/-- The points after some operations. -/
def points (ops : List Op) : Key × Key → Option (BitVec 64 × Key) :=
  ops.foldl (fun m o => Function.update m o.id o.version) fun _ => none

/-- What the commands that add points read of their parameters, in groups of `vstep`: the key of
a point, the texts of its coordinates and its value. -/
def readAdd (vstep : ℕ) (code : (ℕ → Key) → BitVec 64) (env : ℕ → Env) (p : List Key) :
    Except ErrorMessage (List Op) :=
  let varg := 2
  if p.length < varg + vstep ∨ (p.length - varg) % vstep ≠ 0 then .error .NEED_GROUP_PARAMS_4
  else
    let keyN := p.getD 1 []
    let itk (i j : ℕ) : Key := p.getD (varg + i * vstep + j) []
    let groups := List.range ((p.length - varg) / vstep)
    if keyN = [] then .error .EMPTY_KEY
    else
      let failed := groups.findSome? fun i =>
        if ¬(valid keyN ∧ valid (itk i 0)) then some ErrorMessage.INVALID_KEY_SIZE
        else if ¬isValValid (itk i (vstep - 1)) then some ErrorMessage.EMPTY_VAL
        else none
      match failed with
      | some message => .error message
      | none => .ok (groups.map fun i =>
          .add (env i) keyN (itk i 0) (code fun j => itk i (j + 1)) (itk i (vstep - 1)))

/-- What `cmdProcessRem` reads of its parameters. -/
def readRem (env : ℕ → Env) (p : List Key) : Except ErrorMessage (List Op) :=
  if p.length < 3 then .error .NEED_GROUP_PARAMS_3
  else
    let keyN := p.getD 1 []
    let keySubs := p.drop 2
    if ¬valid keyN then .error .INVALID_KEY_SIZE
    else if ¬∀ keySub ∈ keySubs, valid keySub then .error .INVALID_KEY_SIZE
    else .ok (keySubs.zipIdx.map fun x => .rem (env x.2) keyN x.1)

/-- The score of `MC1ADD`. -/
def code1 (t : ℕ → Key) : BitVec 64 := BitVec.ofNat 64 (fromString 64 (t 0) 0)

/-- An `MCVector`. -/
abbrev MCVector := Fin 2 → BitVec 32

theorem two_neZero : NeZero 2 := ⟨two_ne_zero⟩

/-- The vector of some texts. -/
def vectorOf (t : ℕ → Key) : MCVector := fun d => BitVec.ofNat 32 (fromString 32 (t d) 0)

/-- `toMorton2D32`. -/
def toMorton2D32 (v : MCVector) : BitVec 64 := MortonCurve.toMorton MortonCurve.curve2D32 v

/-- The commands that change points. -/
inductive Command
  | MC1ADD (env : ℕ → Env) (p : List Key)
  | MC1REM (env : ℕ → Env) (p : List Key)
  | MC2ADD (env : ℕ → Env) (p : List Key)
  | MC2REM (env : ℕ → Env) (p : List Key)

namespace Command

/-- What a command reads of its parameters. -/
def read : Command → Except ErrorMessage (List Op)
  | MC1ADD env p => readAdd 3 code1 env p
  | MC1REM env p => readRem env p
  | MC2ADD env p => readAdd 4 (fun t => toMorton2D32 (vectorOf t)) env p
  | MC2REM env p => readRem env p

/-- What a command answers if it is not wrong: `set` or `set_1`. -/
def done : Command → Reply
  | MC1ADD _ _ | MC2ADD _ _ => .ok
  | MC1REM _ _ | MC2REM _ _ => .bool true

/-- `process`. -/
def process (c : Command) (db : Db) : Reply × Db :=
  match c.read with
  | .error message => (.error message, db)
  | .ok ops => (c.done, run ops db)

/-- What a command does to the points. -/
def ops (c : Command) : List Op :=
  match c.read with
  | .error _ => []
  | .ok ops => ops

/-- The name of the set. -/
def keyN : Command → Key
  | MC1ADD _ p | MC1REM _ p | MC2ADD _ p | MC2REM _ p => p.getD 1 []

end Command

/-- The list after some commands. -/
def after (commands : List Command) : Db := commands.foldl (fun db c => (c.process db).2) []

/-! ## Keys -/

section Score

variable (z z' : BitVec 64)

theorem buffer_fits : HexConvert.hexSize 64 ≤ (List.replicate 16 (0 : Byte)).length := by decide

theorem length_score : (score z).length = 16 := by
  rw [score, MortonKeys.toHex, HexConvert.length_toHex _ (by decide) z buffer_fits]
  rfl

theorem score_lt_iff : score z < score z' ↔ z < z' := by
  rw [score, score, MortonKeys.toHex, MortonKeys.toHex,
    HexConvert.toHex_lt_iff _ (by decide) z z' buffer_fits buffer_fits]

theorem fromHex_score : HexConvert.fromHex 64 (score z) = z := by
  rw [score, MortonKeys.toHex, HexConvert.fromHex_toHex _ (by decide) z buffer_fits]

theorem score_injective : Function.Injective score :=
  Function.LeftInverse.injective (g := HexConvert.fromHex 64) fromHex_score

/-- The letters of a code come before the separator. -/
theorem lt_separator_of_mem_score {z : BitVec 64} : ∀ c ∈ score z, c < separator := by
  intro c hc
  rw [score, MortonKeys.toHex, HexConvert.toHex_eq _ (by decide) z buffer_fits] at hc
  obtain ⟨d, hd, rfl⟩ := List.mem_map.mp hc
  have hlt := FixedNumeral.digit_lt (by decide) d hd
  have hall : ∀ d < 16, HexConvert.letter false d < separator := by decide
  exact hall d hlt

theorem separator_notMem_score : separator ∉ score z := fun hmem =>
  absurd (lt_separator_of_mem_score _ hmem) (lt_irrefl _)

theorem valid_score : valid (score z) := by
  have hlen := length_score z
  refine ⟨fun hnil => ?_, ?_⟩
  · rw [hnil] at hlen
    exact absurd hlen (by decide)
  · rw [hlen]
    decide

theorem encodeIndex_score : ZSet.encodeIndex [score z] = score z := by
  have hlen := length_score z
  have hsum : ([score z].map List.length).sum ≤ maxKeySize := by
    rw [List.map_singleton, List.sum_singleton, hlen]
    decide
  have heq := concatenateBuffer_key hsum
  rw [List.flatten_singleton] at heq
  exact heq

end Score

/-- The names that make keys which no other names make. -/
def Used (i : Key × Key) : Prop := valid i.1 ∧ valid i.2 ∧ separator ∉ i.1

/-- The data key of a point with a code. -/
def dataKey (i : Key × Key) (z : BitVec 64) : Key := makeKeyData i.1 i.2 (score z)

/-- The keys of points; those with an empty value have no data key. -/
def scheme : Scheme (Key × Key) (BitVec 64 × Bool) Key Key where
  ctrl i := makeKeyCtrl i.1 i.2
  keys i r := if r.2 = true then [dataKey i r.1] else []
  encode r := score r.1

section Keys

variable {i j : Key × Key} {z : BitVec 64}

theorem dataKey_eq (hi : Used i) (z : BitVec 64) :
    dataKey i z = i.1 ++ separator :: (score z ++ separator :: i.2) := by
  rw [dataKey, (ZSet.makeKeyData_eq hi.1 hi.2.1 (valid_score z)).1, List.intercalate_cons_cons,
    List.intercalate_cons_cons, List.intercalate_singleton, List.append_assoc, List.append_assoc,
    List.singleton_append, List.singleton_append]

theorem isKeyValid_dataKey (hi : Used i) (z : BitVec 64) : isKeyValid (dataKey i z) := by
  have heq := dataKey_eq hi z
  refine ⟨?_, (ZSet.makeKeyData_eq hi.1 hi.2.1 (valid_score z)).2⟩
  rw [heq, List.length_append, List.length_cons]
  omega

theorem isDataKey (hi : Used i) (z : BitVec 64) : DataKey 0 i.1 i.2 (dataKey i z) := by
  refine ⟨score z, [], ?_, (valid_score z).1, rfl, fun u hu => ?_⟩
  · rw [dataKey_eq hi z, terminated_cons_append]
    rfl
  · rw [List.mem_singleton.mp hu]
    exact separator_notMem_score z

theorem isCtrlKey (hi : Used i) : CtrlKey i.1 i.2 (makeKeyCtrl i.1 i.2) :=
  (ZSet.makeKeyCtrl_eq hi.1 hi.2.1).1

theorem mem_keys {k : Key} {r : BitVec 64 × Bool} (hk : k ∈ scheme.keys i r) : k = dataKey i r.1 := by
  rw [scheme] at hk
  dsimp only at hk
  split at hk
  · exact List.mem_singleton.mp hk
  · exact absurd hk List.not_mem_nil

theorem dataKey_injective (hi : Used i) (hj : Used j) {z z' : BitVec 64}
    (h : dataKey i z = dataKey j z') : i = j ∧ z = z' := by
  obtain ⟨hname, hsub⟩ := recordKey_unique hi.2.2 hj.2.2 (.inr (isDataKey hi z))
    (.inr (h ▸ isDataKey hj z'))
  obtain rfl : i = j := Prod.ext hname hsub
  rw [dataKey_eq hi, dataKey_eq hi] at h
  have hrest := (List.cons.inj (List.append_cancel_left h)).2
  exact ⟨rfl, score_injective (List.append_cancel_right hrest)⟩

/-- Points do not share keys. -/
theorem separate : Separate scheme Used fun i _ => Used i where
  used hi := hi
  ctrl_inj hi hj heq := by
    obtain ⟨hname, hsub⟩ := recordKey_unique (L := 0) hi.2.2 hj.2.2 (.inl (isCtrlKey hi))
      (.inl (Eq.trans heq (isCtrlKey hj)))
    exact Prod.ext hname hsub
  ctrl_notMem {i j r} hi hj hmem := by
    have hkey := mem_keys hmem
    obtain ⟨hname, hsub⟩ := recordKey_unique hi.2.2 hj.2.2 (.inl (isCtrlKey hi))
      (.inr (hkey ▸ isDataKey hj r.1))
    have hdata := isDataKey hj r.1
    rw [← hkey, ← hname] at hdata
    exact hdata.not_ctrlKey (isCtrlKey hi)
  keys_inj hi hj hk hk' :=
    (dataKey_injective hi hj ((mem_keys hk).symm.trans (mem_keys hk'))).1

end Keys

/-! ## Runs -/

/-- What is known of an operation. -/
def Op.Sound (o : Op) : Prop := Used o.id ∧ ∀ x ∈ o.version, isValValid x.2

/-- A version, with whether it has a data key. -/
def tagged (x : BitVec 64 × Key) : (BitVec 64 × Bool) × Key := ((x.1, decide (x.2 ≠ [])), x.2)

/-- A list that holds some points and nothing else. -/
structure Holds (m : Key × Key → Option (BitVec 64 × Key)) (db : Db) : Prop where
  increasing : Increasing Pair.key db
  consistent : ∀ now, Consistent scheme Used (fun i _ => Used i) (fun _ => none)
    (fun i => (m i).map tagged) (holds now db)

/-- A value that is empty is not held. -/
theorem holds_insert_nil {key : Key} (hk : isKeyValid key) (w : Write) (now : UInt64) (db : Db) :
    holds now (insert w key [] db) = Function.update (holds now db) key none := by
  obtain ⟨p, hp, hval, -, hput⟩ := @insert_eq_put _ [] hk (Nat.zero_le _) w db
  have hdead : isOK now p = false := by
    rw [isOK, (isTombstone_iff p).mpr (.inr hval), Bool.not_true, Bool.false_and]
  funext k
  rw [hput]
  by_cases hkey : k = key
  · rw [hkey, Function.update_self, holds_put_dead hp hdead]
  · rw [Function.update_of_ne hkey]
    exact holds_put_of_ne fun heq => hkey (heq.symm.trans hp)

section Step

variable {db : Db} {i : Key × Key} {old : Option (BitVec 64)}

/-- What the control key of a point tells is proper. -/
theorem proper_old : ∀ x ∈ old.map fun z => [score z],
    x.length = permutation1NoIndex.N ∧ (∀ s ∈ x, valid s) ∧ ∀ s ∈ x, separator ∉ s := by
  intro x hx
  obtain ⟨z, -, hxz⟩ := Option.map_eq_some_iff.mp hx
  obtain rfl : x = [score z] := hxz.symm
  refine ⟨List.length_singleton, fun s hs => ?_, fun s hs => ?_⟩
  · rw [List.mem_singleton.mp hs]
    exact valid_score z
  · rw [List.mem_singleton.mp hs]
    exact separator_notMem_score z

variable (hdb : Increasing Pair.key db) (hi : Used i)
  (hctrl : ∀ now, holds now db (scheme.ctrl i) = old.map score)

theorem ctrl_encoded (hctrl : ∀ now, holds now db (scheme.ctrl i) = old.map score) (now : UInt64) :
    holds now db (makeKeyCtrl i.1 i.2) =
      (old.map fun z => [score z]).map ZSet.encodeIndex := by
  rw [Option.map_map]
  refine (hctrl now).trans (Option.map_congr fun z _ => ?_)
  rw [Function.comp_apply, encodeIndex_score]

/-- The data key that a point had before it is added again. -/
def oldKeys (i : Key × Key) (old : Option (BitVec 64)) (z : BitVec 64) : List Key :=
  old.elim [] fun x => if x = z then [] else [dataKey i x]

include hdb hi hctrl

/-- What `zset::add` writes. -/
theorem holds_add (env : Env) (z : BitVec 64) {value : Key} (hval : isValValid value)
    (now : UInt64) (k : Key) :
    holds now (ZSet.add permutation1NoIndex env i.1 i.2 [score z] value db) k =
      if k = scheme.ctrl i then some (score z)
      else if k ∈ scheme.keys i (z, decide (value ≠ [])) then some value
      else if k ∈ oldKeys i old z ++ scheme.keys i (z, decide (value = [])) then none
      else holds now db k := by
  have hlist : ((old.map fun z => [score z]).elim [] fun x => if x = [score z] then [] else
      permutation1NoIndex.forEach i.1 i.2 x) = oldKeys i old z := by
    cases old with
    | none => rfl
    | some x =>
      have hsame : [score x] = [score z] ↔ x = z := by
        rw [List.singleton_inj, score_injective.eq_iff]
      simp only [Option.map_some, Option.elim_some, hsame]
      rfl
  have hproper := @proper_old (some z) _ rfl
  have hkeys : permutation1NoIndex.forEach i.1 i.2 [score z] = [dataKey i z] := rfl
  by_cases hne : value = []
  · have hnot : decide (value ≠ []) = false := decide_eq_false (not_not.mpr hne)
    have henc := valid_score z
    have hencval : isValValid (score z) := henc.2.trans (by decide)
    have hnew : insertKeys env.insert [dataKey i z] [] =
        Database.insert (env.insert (dataKey i z)) (dataKey i z) [] := rfl
    rw [ZSet.add, ZSet.removePreviousIndexes_eq ZSet.lawful_noIndex proper_old
      (ctrl_encoded hctrl), hlist, hne, encodeIndex_score,
      Database.holds_insert (ZSet.makeKeyCtrl_eq hi.1 hi.2.1).2 hencval henc.1]
    change Function.update _ (scheme.ctrl i) _ k = _
    by_cases hk : k = scheme.ctrl i
    · rw [if_pos hk, hk, Function.update_self]
    · rw [if_neg hk, Function.update_of_ne hk, hkeys, hnew,
        holds_insert_nil (isKeyValid_dataKey hi z), decide_eq_false (not_not.mpr rfl),
        decide_eq_true rfl]
      simp only [scheme, Bool.false_eq_true, if_false, if_true, List.not_mem_nil, List.mem_append,
        List.mem_singleton]
      by_cases hkz : k = dataKey i z
      · rw [if_pos (.inr hkz), hkz, Function.update_self]
      · rw [Function.update_of_ne hkz, holds_eraseKeys hdb]
        simp only [hkz, or_false]
  · have hadd := ZSet.holds_add ZSet.lawful_noIndex hdb proper_old (ctrl_encoded hctrl) env hi.1
      hi.2.1 hproper.1 hproper.2.1 hproper.2.2 hval hne now k
    rw [hlist, encodeIndex_score, hkeys] at hadd
    rw [hadd, decide_eq_true hne, decide_eq_false hne]
    simp only [scheme, Bool.false_eq_true, if_false, if_true, List.append_nil]

omit hi in
/-- What `zset::rem` writes. -/
theorem holds_rem (env : Env) (now : UInt64) (k : Key) :
    holds now (ZSet.rem permutation1NoIndex env i.1 i.2 db) k =
      if k = scheme.ctrl i then none
      else if k ∈ old.elim [] (fun x => [dataKey i x]) then none else holds now db k := by
  have hrem := ZSet.holds_rem ZSet.lawful_noIndex hdb proper_old (ctrl_encoded hctrl) env now k
  have hlist : (old.map fun z => [score z]).elim [] (permutation1NoIndex.forEach i.1 i.2) =
      old.elim [] fun x => [dataKey i x] := by
    cases old with
    | none => rfl
    | some x => rfl
  rw [hlist] at hrem
  exact hrem

end Step

/-- A list without pairs holds no points. -/
theorem holds_nil : Holds (fun _ => none) [] where
  increasing := List.Pairwise.nil
  consistent _ := consistent_empty (fun _ _ => rfl) fun _ _ _ _ _ => rfl

section Operations

variable {m : Key × Key → Option (BitVec 64 × Key)} {db : Db}

theorem map_tagged_update (m : Key × Key → Option (BitVec 64 × Key)) (i : Key × Key)
    (x : Option (BitVec 64 × Key)) :
    (fun j => (Function.update m i x j).map tagged) =
      Function.update (fun j => (m j).map tagged) i (x.map tagged) := by
  funext j
  by_cases hj : j = i
  · rw [hj, Function.update_self, Function.update_self]
  · rw [Function.update_of_ne hj, Function.update_of_ne hj]

/-- An operation changes its point. -/
theorem Holds.step (h : Holds m db) {o : Op} (ho : o.Sound) :
    Holds (Function.update m o.id o.version) (o.step db) := by
  obtain ⟨hused, hval⟩ := ho
  have hctrl : ∀ now, holds now db (scheme.ctrl o.id) = ((m o.id).map Prod.fst).map score := by
    intro now
    rw [(h.consistent now).ctrl hused, Option.map_map, Option.map_map]
    rfl
  have hgood : ∀ {k : Key} {r}, k ∈ scheme.keys o.id r → ∃ r', Used o.id ∧ k ∈ scheme.keys o.id r' :=
    fun hk => ⟨_, hused, hk⟩
  have hdata (z : BitVec 64) : dataKey o.id z ∈ scheme.keys o.id (z, true) := List.mem_singleton_self _
  cases o with
  | add env keyN keySub z value =>
    have hold : ∀ k ∈ oldKeys (keyN, keySub) ((m (keyN, keySub)).map Prod.fst) z ++
        scheme.keys (keyN, keySub) (z, decide (value = [])),
        ∃ r', Used (keyN, keySub) ∧ k ∈ scheme.keys (keyN, keySub) r' := by
      intro k hk
      rcases List.mem_append.mp hk with hk | hk
      · cases hm : m (keyN, keySub) with
        | none =>
          rw [hm] at hk
          exact absurd hk List.not_mem_nil
        | some x =>
          rw [hm, Option.map_some, oldKeys, Option.elim_some] at hk
          split at hk
          · exact absurd hk List.not_mem_nil
          · rw [List.mem_singleton.mp hk]
            exact hgood (hdata x.1)
      · exact hgood hk
    have hcover : ∀ x, (m (keyN, keySub)).map tagged = some x →
        ∀ k ∈ scheme.keys (keyN, keySub) x.1,
          k ∈ oldKeys (keyN, keySub) ((m (keyN, keySub)).map Prod.fst) z ++
            scheme.keys (keyN, keySub) (z, decide (value = [])) ∨
          k ∈ scheme.keys (keyN, keySub) (z, decide (value ≠ [])) := by
      intro x hx k hk
      obtain ⟨y, hy, rfl⟩ := Option.map_eq_some_iff.mp hx
      rw [mem_keys hk, hy, Option.map_some, oldKeys, Option.elim_some]
      by_cases hyz : y.1 = z
      · have hmem : dataKey (keyN, keySub) y.1 ∈ scheme.keys (keyN, keySub) (z, true) := by
          rw [hyz]
          exact hdata z
        by_cases hne : value = []
        · rw [decide_eq_true hne]
          exact .inl (List.mem_append_right _ hmem)
        · rw [decide_eq_true hne]
          exact .inr hmem
      · rw [if_neg hyz]
        exact .inl (List.mem_append_left _ (List.mem_singleton_self _))
    refine ⟨ZSet.increasing_step h.increasing permutation1NoIndex
      (.add env keyN keySub [score z] value), fun now => ?_⟩
    rw [map_tagged_update]
    exact (h.consistent now).add separate hused value hold hcover
      (holds_add h.increasing hused hctrl env z (hval _ rfl) now)
  | rem env keyN keySub =>
    have hold : ∀ k ∈ ((m (keyN, keySub)).map Prod.fst).elim [] fun x => [dataKey (keyN, keySub) x],
        ∃ r', Used (keyN, keySub) ∧ k ∈ scheme.keys (keyN, keySub) r' := by
      intro k hk
      cases hm : m (keyN, keySub) with
      | none =>
        rw [hm] at hk
        exact absurd hk List.not_mem_nil
      | some x =>
        rw [hm] at hk
        rw [List.mem_singleton.mp hk]
        exact hgood (hdata x.1)
    have hcover : ∀ x, (m (keyN, keySub)).map tagged = some x →
        ∀ k ∈ scheme.keys (keyN, keySub) x.1,
          k ∈ ((m (keyN, keySub)).map Prod.fst).elim [] fun x => [dataKey (keyN, keySub) x] := by
      intro x hx k hk
      obtain ⟨y, hy, rfl⟩ := Option.map_eq_some_iff.mp hx
      rw [mem_keys hk, hy]
      exact List.mem_singleton_self _
    refine ⟨ZSet.increasing_step h.increasing permutation1NoIndex (.rem env keyN keySub),
      fun now => ?_⟩
    rw [map_tagged_update]
    exact (h.consistent now).rem separate hused hold hcover
      (holds_rem h.increasing hctrl env now)

/-- Operations change their points. -/
theorem Holds.run {ops : List Op} (h : Holds m db) (hops : ∀ o ∈ ops, o.Sound) :
    Holds (ops.foldl (fun m o => Function.update m o.id o.version) m) (run ops db) := by
  induction ops generalizing m db with
  | nil => exact h
  | cons o ops ih =>
    have hstep := h.step (hops o List.mem_cons_self)
    exact ih hstep fun o' ho' => hops o' (List.mem_cons_of_mem o ho')

end Operations

/-- What the commands that add points have checked. -/
theorem readAdd_sound {vstep : ℕ} {code : (ℕ → Key) → BitVec 64} {env : ℕ → Env} {p : List Key}
    {ops : List Op} (h : readAdd vstep code env p = .ok ops) (hkeyN : separator ∉ p.getD 1 []) :
    ∀ o ∈ ops, o.Sound := by
  unfold readAdd at h
  dsimp only at h
  split_ifs at h
  split at h
  · exact nomatch h
  · rename_i hfound
    obtain rfl := Except.ok.inj h
    intro o ho
    obtain ⟨i, hi, rfl⟩ := List.mem_map.mp ho
    have hnone := List.findSome?_eq_none_iff.mp hfound i hi
    split_ifs at hnone with hvalid hval
    exact ⟨⟨hvalid.1, hvalid.2, hkeyN⟩, fun x hx => by
      obtain rfl := Option.some.inj hx
      exact hval⟩

theorem readRem_sound {env : ℕ → Env} {p : List Key} {ops : List Op}
    (h : readRem env p = .ok ops) (hkeyN : separator ∉ p.getD 1 []) : ∀ o ∈ ops, o.Sound := by
  unfold readRem at h
  dsimp only at h
  split_ifs at h with _ hN hS
  obtain rfl := Except.ok.inj h
  intro o ho
  obtain ⟨x, hx, rfl⟩ := List.mem_map.mp ho
  have hmem := List.fst_mem_of_mem_zipIdx hx
  exact ⟨⟨hN, hS _ hmem, hkeyN⟩, fun _ hx => nomatch hx⟩

theorem Command.ops_sound {c : Command} (hkeyN : separator ∉ c.keyN) : ∀ o ∈ c.ops, o.Sound := by
  unfold Command.ops
  split
  · exact fun _ ho => absurd ho List.not_mem_nil
  · rename_i hread
    cases c with
    | MC1ADD env p => exact readAdd_sound hread hkeyN
    | MC1REM env p => exact readRem_sound hread hkeyN
    | MC2ADD env p =>
      have hread' : readAdd 4 (fun t => toMorton2D32 (vectorOf t)) env p = .ok _ := hread
      exact readAdd_sound hread' hkeyN
    | MC2REM env p => exact readRem_sound hread hkeyN

theorem Command.process_eq (c : Command) (db : Db) : (c.process db).2 = run c.ops db := by
  unfold Command.process Command.ops
  split <;> rfl

/-- After any commands the list holds the last version of each point. -/
theorem after_holds {commands : List Command} (hkeyN : ∀ c ∈ commands, separator ∉ c.keyN) :
    Holds (points (commands.flatMap Command.ops)) (after commands) := by
  have hrun : after commands = run (commands.flatMap Command.ops) [] := by
    rw [after, run, List.foldl_flatMap]
    simp only [Command.process_eq, run]
  rw [hrun]
  refine holds_nil.run fun o ho => ?_
  obtain ⟨c, hc, ho⟩ := List.mem_flatMap.mp ho
  exact Command.ops_sound (hkeyN c hc) o ho

/-! ## What is alive -/

section Live

variable {m : Key × Key → Option (BitVec 64 × Key)} {db : Db} (h : Holds m db)

include h

theorem holds_iff {now : UInt64} {k v : Key} :
    holds now db k = some v ↔ ∃ p ∈ db, p.key = k ∧ p.val = v ∧ isOK now p = true :=
  @VectorSearch.holds_iff (fun _ => now) db h.increasing k v

/-- A point is one that may be. -/
theorem used_of_point {i : Key × Key} {x : BitVec 64 × Key} (hx : m i = some x) : Used i := by
  refine (h.consistent 0).good (i := i) (x := tagged x) ?_
  rw [hx, Option.map_some]

/-- A point with a value has a live pair. -/
theorem exists_live {i : Key × Key} {x : BitVec 64 × Key} (hx : m i = some x) (hne : x.2 ≠ [])
    (now : UInt64) : ∃ p ∈ db, p.key = dataKey i x.1 ∧ p.val = x.2 ∧ isOK now p = true := by
  have hkeys : scheme.keys i (tagged x).1 = [dataKey i x.1] := by
    rw [tagged, decide_eq_true hne]
    rfl
  have hmem : dataKey i x.1 ∈ scheme.keys i (tagged x).1 := by
    rw [hkeys]
    exact List.mem_singleton_self _
  refine (holds_iff h).mp ?_
  rw [(h.consistent now).data (used_of_point h hx) _ hmem, hx, Option.map_some, Option.bind_some,
    if_pos hmem]
  rfl

/-- A live pair is under a data key of a point, with its value, or under its control key. -/
theorem live_cases {p : Pair} (hp : p ∈ db) {now : UInt64} (hok : isOK now p = true) :
    (∃ i x, m i = some x ∧ p.key = dataKey i x.1 ∧ p.val = x.2 ∧ x.2 ≠ []) ∨
      ∃ i, Used i ∧ p.key = makeKeyCtrl i.1 i.2 := by
  have hheld : holds now db p.key = some p.val := (holds_iff h).mpr ⟨p, hp, rfl, rfl, hok⟩
  by_cases hctrl : ∃ i, Used i ∧ p.key = scheme.ctrl i
  · exact .inr hctrl
  by_cases hdata : ∃ i r, Used i ∧ p.key ∈ scheme.keys i r
  · obtain ⟨i, r, hi, hk⟩ := hdata
    rw [(h.consistent now).data hi _ hk] at hheld
    cases hm : m i with
    | none =>
      rw [hm, Option.map_none, Option.bind_none] at hheld
      exact nomatch hheld
    | some x =>
      rw [hm, Option.map_some, Option.bind_some] at hheld
      split at hheld
      · next hmem =>
        have hval : x.2 = p.val := Option.some.inj hheld
        refine .inl ⟨i, x, hm, mem_keys hmem, hval.symm, fun hnil => ?_⟩
        rw [tagged, decide_eq_false (not_not.mpr hnil)] at hmem
        exact absurd hmem List.not_mem_nil
      · exact nomatch hheld
  · rw [(h.consistent now).frame (fun i hi heq => hctrl ⟨i, hi, heq⟩)
      fun i r hi hk => hdata ⟨i, r, hi, hk⟩] at hheld
    exact nomatch hheld

/-- Points do not expire. -/
theorem isOK_eq {p : Pair} (hp : p ∈ db) (now now' : UInt64) : isOK now p = isOK now' p := by
  have hsame : holds now db p.key = holds now' db p.key := by
    by_cases hctrl : ∃ i, Used i ∧ p.key = scheme.ctrl i
    · obtain ⟨i, hi, hk⟩ := hctrl
      rw [hk, (h.consistent now).ctrl hi, (h.consistent now').ctrl hi]
    by_cases hdata : ∃ i r, Used i ∧ p.key ∈ scheme.keys i r
    · obtain ⟨i, r, hi, hk⟩ := hdata
      rw [(h.consistent now).data hi _ hk, (h.consistent now').data hi _ hk]
    · have hframe (now : UInt64) := (h.consistent now).frame
        (fun i hi heq => hctrl ⟨i, hi, heq⟩) fun i r hi hk => hdata ⟨i, r, hi, hk⟩
      rw [hframe, hframe]
  have hiff (now : UInt64) : isOK now p = (holds now db p.key).isSome := by
    have hget : get p.key db = some p := h.increasing.lookup_of_mem hp
    rw [holds, getPairPtr, hget, Option.isSome_map, Option.filter_some]
    split
    · next hok => rw [hok, Option.isSome_some]
    · next hok => rw [Bool.eq_false_iff.mpr hok, Option.isSome_none]
  rw [hiff, hiff, hsame]

end Live

/-! ## Ranges of keys -/

/-- `makeKeyRangeN`. -/
def makeKeyRangeN (key a : Key) : Key :=
  if a = [] then concatenateBuffer bufferKeySize [key, [separator]]
  else concatenateBuffer bufferKeySize [key, [separator], a, [separator]]

/-- `StopRangePrefixPredicate`. -/
def StopRangePrefixPredicate (last key : Key) : Bool :=
  if last < key then !decide (last <+: key) else false

/-- What is in front of the keys of the points with a code. -/
def headKey (keyN : Key) (z : BitVec 64) : Key := makeKeyRangeN keyN (score z)

section Ranges

variable {keyN : Key} (hN : valid keyN)

include hN

theorem headKey_eq (z : BitVec 64) :
    headKey keyN z = keyN ++ separator :: (score z ++ [separator]) := by
  have hsum : ([keyN, [separator], score z, [separator]].map List.length).sum ≤ maxKeySize := by
    have hlenN := hN.2
    have hlen := length_score z
    simp only [List.map_cons, List.map_nil, List.sum_cons, List.sum_nil, List.length_singleton, hlen]
    unfold INDEX_TOKEN_SIZE at hlenN
    unfold maxKeySize
    omega
  rw [headKey, makeKeyRangeN, if_neg (valid_score z).1, concatenateBuffer_key hsum]
  simp only [List.flatten_cons, List.flatten_nil, List.append_nil, List.singleton_append]

theorem length_headKey (z : BitVec 64) : (headKey keyN z).length = keyN.length + 18 := by
  rw [headKey_eq hN, List.length_append, List.length_cons, List.length_append, length_score,
    List.length_singleton]

theorem dataKey_eq_append {keySub : Key} (hi : Used (keyN, keySub)) (z : BitVec 64) :
    dataKey (keyN, keySub) z = headKey keyN z ++ keySub := by
  rw [headKey_eq hN, dataKey_eq hi, List.append_assoc, List.cons_append, List.append_assoc,
    List.singleton_append]

theorem headKey_isPrefix {keySub : Key} (hi : Used (keyN, keySub)) (z : BitVec 64) :
    headKey keyN z <+: dataKey (keyN, keySub) z :=
  ⟨keySub, (dataKey_eq_append hN hi z).symm⟩

theorem headKey_lt {z z' : BitVec 64} (hlt : z < z') : headKey keyN z < headKey keyN z' := by
  by_contra hnot
  have htake := take_le_take (not_lt.mp hnot) (keyN.length + 17)
  have hcut (w : BitVec 64) : (headKey keyN w).take (keyN.length + 17) =
      (keyN ++ [separator]) ++ score w := by
    have hlen : (keyN ++ [separator] ++ score w).length = keyN.length + 17 := by
      rw [List.length_append, List.length_append, length_score, List.length_singleton]
    have hsplit : headKey keyN w = (keyN ++ [separator] ++ score w) ++ [separator] := by
      rw [headKey_eq hN]
      simp only [List.append_assoc, List.cons_append, List.nil_append]
    rw [hsplit, ← hlen, List.take_left']
    rfl
  rw [hcut, hcut] at htake
  exact absurd (Queue.append_lt_append _ ((score_lt_iff z z').mpr hlt)) (not_lt.mpr htake)

theorem headKey_le_iff {z z' : BitVec 64} : headKey keyN z ≤ headKey keyN z' ↔ z ≤ z' := by
  constructor
  · intro hle
    refine BitVec.not_lt.mp fun hlt => ?_
    exact absurd (headKey_lt hN hlt) (not_lt.mpr hle)
  · intro hle
    by_cases heq : z = z'
    · rw [heq]
    · have hne : z.toNat ≠ z'.toNat := fun h => heq (BitVec.eq_of_toNat_eq h)
      have hlt := BitVec.lt_def.mpr (Nat.lt_of_le_of_ne (BitVec.le_def.mp hle) hne)
      exact (headKey_lt hN hlt).le

end Ranges

/-- A key with a prefix is compared with a key of the length of the prefix as the prefix is. -/
theorem le_iff_of_isPrefix {a b k : Key} (ha : a <+: k) (hlen : a.length = b.length) :
    b ≤ k ↔ b ≤ a := by
  refine ⟨fun hle => ?_, fun hle => hle.trans (le_of_isPrefix ha)⟩
  have htake := take_le_take hle a.length
  rwa [← List.prefix_iff_eq_take.mp ha, hlen, List.take_length] at htake

theorem stop_eq_false_iff {a b k : Key} (ha : a <+: k) (hlen : a.length = b.length) :
    StopRangePrefixPredicate b k = false ↔ a ≤ b := by
  unfold StopRangePrefixPredicate
  by_cases hlt : b < k
  · rw [if_pos hlt, Bool.not_eq_false', decide_eq_true_iff]
    constructor
    · intro hb
      exact (List.IsPrefix.eq_of_length (List.prefix_of_prefix_length_le ha hb hlen.le) hlen).le
    · intro hle
      have hge := (le_iff_of_isPrefix ha hlen).mp hlt.le
      rw [le_antisymm hge hle]
      exact ha
  · rw [if_neg hlt]
    exact iff_of_true rfl ((le_of_isPrefix ha).trans (not_lt.mp hlt))

end HM4.PointSets
