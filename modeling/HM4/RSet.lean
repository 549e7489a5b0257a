import HM4.ZSet
import HM4.VFactory
import Mathlib.Data.List.Sort
import Mathlib.Data.List.Destutter

/-!
# Records under many tokens

A record has a key for each of its tokens and a sort key, and a control key that holds all tokens
and the sort key with separators between them. The next version of a record decodes the control
key to erase the keys of the old one. A control key that cannot be decoded leaves them behind: a
token or sort key with a separator in it is decoded to others, and one more piece than the
container has room for is refused.
-/

namespace HM4.RSet

open LexPrefix Bytes Pairs PairFactory MemList KeyedList Database Separated IndexToken RecordIndex
open ZSet (Env)

/-! ## Keys -/

/-- `makeKeyCtrl`. -/
def makeKeyCtrl (keyN keySub : Key) : Key := ZSet.makeKeyCtrl keyN keySub

/-- `makeKeyData`. -/
def makeKeyData (keyN keySub keySort text : Key) : Key :=
  concatenateBuffer bufferKeySize
    [keyN, [separator], text, [separator], keySort, [separator], keySub]

/-- `OutputBlob::ContainerSize`. -/
def ContainerSize : ℕ := 0xFFFF

/-- A digit of `toHex`. -/
def hexDigit (n : ℕ) : Byte := if n < 10 then Fin.ofNat 256 (48 + n) else Fin.ofNat 256 (55 + n)

/-- `toHex` of a number of so many digits. -/
def toHex (digits n : ℕ) : Key :=
  (List.range digits).map fun i => hexDigit (n / 16 ^ (digits - 1 - i) % 16)

/-- `makeHashKeySort`. -/
def makeHashKeySort (murmur_hash64a : Key → UInt64) (keySub keySort : Key) : Key :=
  if keySort = [] then toHex 16 (murmur_hash64a keySub).toNat else keySort

/-! ## Tokens -/

/-- `validateTokensUser_`. -/
def validateTokensUser_ (delimiter : Byte) (tokens : Key) (container : List Key) : List Key :=
  (pieces delimiter tokens).foldl
    (fun container x =>
      if container.length = ContainerSize then container
      else if valid x then container ++ [x] else container)
    container

/-- `std::sort` and `std::unique`. -/
def sortUnique (container : List Key) : List Key :=
  (container.insertionSort (· ≤ ·)).destutter (· ≠ ·)

/-- `validateTokensUser` of delimiters and tokens. -/
def validateTokensUser (groups : List (Byte × Key)) : Option (List Key) :=
  let container := groups.foldl (fun container g => validateTokensUser_ g.1 g.2 container) []
  if container = [] then none else some (sortUnique container)

/-- `validateTokensStored_withKeySort`. -/
def validateTokensStored_withKeySort (tokens : Key) : Option (List Key) :=
  let container := (pieces separator tokens).foldlM
    (fun container x =>
      if container.length = ContainerSize then none
      else if ¬valid x then none else some (container ++ [x]))
    []
  container.filter fun container =>
    2 ≤ container.length ∧ container.dropLast.IsChain (· ≤ ·)

/-- What `IXMADDFactory` writes. -/
def encode (tokens : List Key) (keySort : Key) : Key := terminated separator tokens ++ keySort

/-- `IXMADDFactory`. -/
def iXMADDFactory (key : Key) (tokens : List Key) (keySort : Key) : Factory where
  getKey := key
  getCreated := 0
  bytes := sizeofPair + key.length + (encode tokens keySort).length
  valid := isKeyValid key ∧ isValValid (encode tokens keySort)
  create h now := full key (encode tokens keySort) 0 now (of_decide_eq_true h).1
    (of_decide_eq_true h).2
  createHint h now old := VFactory.withValue old (encode tokens keySort) now
    (of_decide_eq_true h).2
  valid_key h := (of_decide_eq_true h).1
  create_key _ _ := rfl
  create_bytes _ _ := rfl
  createHint_key _ _ _ hold := hold

/-- In place of a pair of the key the factory leaves what it would write. -/
theorem iXMADDFactory_createHint {key : Key} {tokens : List Key} {keySort : Key}
    (h : (iXMADDFactory key tokens keySort).valid = true) (now : UInt64) {old : Pair}
    (hold : old.key = key) :
    (iXMADDFactory key tokens keySort).createHint h now old =
      (iXMADDFactory key tokens keySort).create h now := by
  subst hold
  rfl

/-! ## Operations -/

/-- `removeKeys`. -/
def removeKeys (write : Key → Write) (container : List Key) (keyN keySub keySort : Key) (db : Db) :
    Db :=
  container.foldl
    (fun db txt =>
      if valid keyN ∧ valid keySub ∧ valid keySort ∧ valid txt then
        Database.erase (write (makeKeyData keyN keySub keySort txt))
          (makeKeyData keyN keySub keySort txt) db
      else db)
    db

/-- `insertKeys`. -/
def insertKeys (write : Key → Write) (container : List Key) (keyN keySub keySort : Key) (db : Db) :
    Db :=
  container.foldl
    (fun db txt =>
      if valid keyN ∧ valid keySub ∧ valid keySort ∧ valid txt then
        Database.insert (write (makeKeyData keyN keySub keySort txt))
          (makeKeyData keyN keySub keySort txt) keySub db
      else db)
    db

/-- `getIndexes`. -/
def getIndexes (check : UInt64) (keyCtrl : Key) (db : Db) : Option (List Key) :=
  (getPairPtr check keyCtrl db).bind fun pair => validateTokensStored_withKeySort pair.val

/-- The old keys of a record are removed; its old sort key is the last of its indexes. -/
def removeOld (env : Env) (icontainer : List Key) (keyN keySub : Key) (db : Db) : Db :=
  removeKeys env.erase icontainer.dropLast keyN keySub (icontainer.getLastD []) db

/-- `add`. -/
def add (env : Env) (keyN keySub keySort : Key) (tokens : List Key) (db : Db) : Db :=
  let keyCtrl := makeKeyCtrl keyN keySub
  let db1 := (getIndexes env.check keyCtrl db).elim db fun old => removeOld env old keyN keySub db
  let db2 := insertF env.ctrl.owned (iXMADDFactory keyCtrl tokens keySort) env.ctrl.now db1
  insertKeys env.insert tokens keyN keySub keySort db2

/-- `rem`. -/
def rem (env : Env) (keyN keySub : Key) (db : Db) : Db :=
  let keyCtrl := makeKeyCtrl keyN keySub
  (getIndexes env.check keyCtrl db).elim db fun old =>
    Database.erase env.ctrl keyCtrl (removeOld env old keyN keySub db)

/-! ## Commands -/

/-- What `IXMADD` reads of its parameters. -/
structure AddArgs where
  keyN : Key
  keySub : Key
  keySort : Key
  groups : List (Byte × Key)

/-- Parameters in pairs. -/
def inPairs : List Key → List (Key × Key)
  | a :: b :: rest => (a, b) :: inPairs rest
  | _ => []

/-- What `IXMADD` checks before it reads tokens. -/
def readAdd (murmur_hash64a : Key → UInt64) (p : List Key) : Except ErrorMessage AddArgs :=
  if p.length < 4 + 2 ∨ (p.length - 4) % 2 ≠ 0 then .error .NEED_GROUP_PARAMS_5
  else
    let keyN := p.getD 1 []
    if keyN = [] then .error .EMPTY_KEY
    else
      let keySub := p.getD 2 []
      if ∃ g ∈ inPairs (p.drop 4), g.1.length ≠ 1 then .error .INVALID_PARAMETERS
      else if keySub = [] then .error .EMPTY_KEY
      else
        let keySort := makeHashKeySort murmur_hash64a keySub (p.getD 3 [])
        if ¬(valid keyN ∧ valid keySub ∧ valid keySort) then .error .INVALID_KEY_SIZE
        else .ok ⟨keyN, keySub, keySort, (inPairs (p.drop 4)).map fun g => (g.1.headD 0, g.2)⟩

/-- `IXMADD`. -/
def ixmadd (murmur_hash64a : Key → UInt64) (env : Env) (p : List Key) (db : Db) : Reply × Db :=
  match readAdd murmur_hash64a p with
  | .error message => (.error message, db)
  | .ok a =>
    match validateTokensUser a.groups with
    | none => (.error .INVALID_PARAMETERS, db)
    | some tokens => (.bool true, add env a.keyN a.keySub a.keySort tokens db)

/-- What `IXMREM` checks. -/
def readRem (p : List Key) : Except ErrorMessage (Key × List Key) :=
  if p.length < 3 then .error .NEED_GROUP_PARAMS_2
  else
    let keyN := p.getD 1 []
    if keyN = [] then .error .EMPTY_KEY
    else
      -- the first parameter that fails a check tells the error
      match (p.drop 2).find? fun keySub => keySub = [] ∨ ¬(valid keyN ∧ valid keySub) with
      | some keySub => if keySub = [] then .error .EMPTY_KEY else .error .INVALID_KEY_SIZE
      | none => .ok (keyN, p.drop 2)

/-- `IXMREM`. -/
def ixmrem (env : ℕ → Env) (p : List Key) (db : Db) : Reply × Db :=
  match readRem p with
  | .error message => (.error message, db)
  | .ok (keyN, keySubs) =>
    (.bool true, keySubs.zipIdx.foldl (fun db x => rem (env x.2) keyN x.1 db) db)

/-! ## Tokens that are read -/

/-- The valid tokens that are asked for. -/
def asked (groups : List (Byte × Key)) : List Key :=
  groups.flatMap fun g => (pieces g.1 g.2).filter fun x => valid x

theorem asked_cons (g : Byte × Key) (groups : List (Byte × Key)) :
    asked (g :: groups) = ((pieces g.1 g.2).filter fun x => valid x) ++ asked groups :=
  List.flatMap_cons

theorem mem_sortUnique {container : List Key} {x : Key} :
    x ∈ sortUnique container ↔ x ∈ container := by
  have hsorted := List.pairwise_insertionSort (· ≤ ·) container
  rw [sortUnique, hsorted.destutter_eq_dedup, List.mem_dedup, List.mem_insertionSort]

theorem sortUnique_pairwise (container : List Key) : (sortUnique container).Pairwise (· < ·) := by
  have hsorted := List.pairwise_insertionSort (· ≤ ·) container
  have hle : (sortUnique container).Pairwise (· ≤ ·) :=
    hsorted.sublist (List.destutter_sublist (· ≠ ·) _)
  have hne : (sortUnique container).Nodup := by
    rw [sortUnique, hsorted.destutter_eq_dedup]
    exact List.nodup_dedup _
  exact (hle.and hne).imp fun h => lt_of_le_of_ne h.1 h.2

/-- Only the set of tokens matters. -/
theorem sortUnique_congr {l l' : List Key} (h : ∀ x, x ∈ l ↔ x ∈ l') :
    sortUnique l = sortUnique l' := by
  have hperm : (sortUnique l).Perm (sortUnique l') :=
    (List.perm_ext_iff_of_nodup ((sortUnique_pairwise l).imp ne_of_lt)
      ((sortUnique_pairwise l').imp ne_of_lt)).mpr fun x => by
        rw [mem_sortUnique, mem_sortUnique, h]
  exact hperm.eq_of_pairwise (fun x y _ _ hxy hyx => absurd hxy (lt_asymm hyx))
    (sortUnique_pairwise l) (sortUnique_pairwise l')

/-- Valid tokens are taken as long as there is room. -/
theorem validateTokensUser_eq_take (delimiter : Byte) (tokens : Key) (container : List Key)
    (h : container.length ≤ ContainerSize) :
    validateTokensUser_ delimiter tokens container =
      (container ++ (pieces delimiter tokens).filter fun x => valid x).take ContainerSize := by
  unfold validateTokensUser_
  induction pieces delimiter tokens generalizing container with
  | nil => rw [List.foldl_nil, List.filter_nil, List.append_nil, List.take_of_length_le h]
  | cons x ps ih =>
    rw [List.foldl_cons]
    by_cases hfull : container.length = ContainerSize
    · rw [if_pos hfull, ih container h, ← hfull, List.take_left, List.take_left]
    · rw [if_neg hfull]
      by_cases hx : valid x
      · have hroom : (container ++ [x]).length ≤ ContainerSize := by
          rw [List.length_append, List.length_singleton]
          omega
        rw [if_pos hx, List.filter_cons, if_pos (decide_eq_true hx), ih _ hroom, List.append_assoc,
          List.singleton_append]
      · rw [if_neg hx, List.filter_cons, if_neg fun hc => hx (of_decide_eq_true hc), ih container h]

/-- What did not fit before does not fit with more behind it. -/
theorem take_take_append {α : Type*} (n : ℕ) (l l' : List α) :
    (l.take n ++ l').take n = (l ++ l').take n := by
  rw [List.take_append, List.take_append, List.take_take, Nat.min_self, List.length_take]
  congr 2
  omega

theorem foldl_validateTokensUser (groups : List (Byte × Key)) (container : List Key)
    (h : container.length ≤ ContainerSize) :
    groups.foldl (fun container g => validateTokensUser_ g.1 g.2 container) container =
      (container ++ asked groups).take ContainerSize := by
  induction groups generalizing container with
  | nil =>
    rw [List.foldl_nil, asked, List.flatMap_nil, List.append_nil, List.take_of_length_le h]
  | cons g groups ih =>
    have hstep := validateTokensUser_eq_take g.1 g.2 container h
    have hroom : (validateTokensUser_ g.1 g.2 container).length ≤ ContainerSize := by
      rw [hstep]
      exact List.length_take_le _ _
    rw [List.foldl_cons, ih _ hroom, hstep, asked_cons, ← List.append_assoc, take_take_append]

/-- If no token is left out, the tokens are the distinct ones in their order. -/
theorem validateTokensUser_eq {groups : List (Byte × Key)}
    (h : ∀ x ∈ asked groups, x ∈ (asked groups).take ContainerSize) :
    validateTokensUser groups =
      if asked groups = [] then none else some (sortUnique (asked groups)) := by
  have hfold := foldl_validateTokensUser groups [] (Nat.zero_le _)
  rw [List.nil_append] at hfold
  have hnil : (asked groups).take ContainerSize = [] ↔ asked groups = [] := by
    refine ⟨fun hnil => List.eq_nil_iff_forall_not_mem.mpr fun x hx => ?_, fun hnil => ?_⟩
    · have hmem := h x hx
      rw [hnil] at hmem
      exact List.not_mem_nil hmem
    · rw [hnil, List.take_nil]
  have hsame : sortUnique ((asked groups).take ContainerSize) = sortUnique (asked groups) :=
    sortUnique_congr fun x => ⟨List.mem_of_mem_take, h x⟩
  rw [validateTokensUser, hfold, hsame]
  exact if_congr hnil rfl rfl

/-! ## What is stored -/

/-- Tokens that have room and are valid are all taken. -/
theorem foldlM_stored {ps container : List Key} (hvalid : ∀ x ∈ ps, valid x)
    (hroom : container.length + ps.length ≤ ContainerSize) :
    ps.foldlM (fun container x =>
      if container.length = ContainerSize then none
      else if ¬valid x then none else some (container ++ [x])) container = some (container ++ ps) := by
  induction ps generalizing container with
  | nil => rw [List.foldlM_nil, List.append_nil]; rfl
  | cons x ps ih =>
    rw [List.length_cons] at hroom
    have hfull : container.length ≠ ContainerSize := by omega
    have hx := hvalid x List.mem_cons_self
    rw [List.foldlM_cons, if_neg hfull, if_neg (not_not.mpr hx), Option.bind_eq_bind,
      Option.bind_some, ih (fun y hy => hvalid y (List.mem_cons_of_mem x hy))]
    · rw [List.append_assoc, List.singleton_append]
    · rw [List.length_append, List.length_singleton]
      omega

/-- What is needed of a version to be decoded. -/
structure Proper (r : List Key × Key) : Prop where
  ne_nil : r.1 ≠ []
  tokens : ∀ x ∈ r.1, valid x
  keySort : valid r.2
  sorted : r.1.Pairwise (· < ·)
  room : r.1.length < ContainerSize
  tokens_clear : ∀ x ∈ r.1, separator ∉ x
  keySort_clear : separator ∉ r.2

theorem terminated_length_le {l : List Key} (h : ∀ x ∈ l, valid x) :
    (terminated separator l).length ≤ l.length * (INDEX_TOKEN_SIZE + 1) := by
  induction l with
  | nil => exact Nat.zero_le _
  | cons x l ih =>
    have hx := (h x List.mem_cons_self).2
    have hl := ih fun y hy => h y (List.mem_cons_of_mem x hy)
    rw [terminated_cons, List.length_append, List.length_cons, List.length_cons, Nat.succ_mul]
    omega

section Version

variable {r : List Key × Key} (hr : Proper r)

include hr

/-- A version is decoded from its control key. -/
theorem decode_encode :
    validateTokensStored_withKeySort (encode r.1 r.2) = some (r.1 ++ [r.2]) := by
  have hpieces : pieces separator (encode r.1 r.2) = r.1 ++ [r.2] := by
    rw [encode, pieces_terminated hr.tokens_clear, pieces_of_notMem hr.keySort_clear hr.keySort.1]
  have hvalid : ∀ x ∈ r.1 ++ [r.2], valid x := fun x hx => by
    rcases List.mem_append.mp hx with hx | hx
    · exact hr.tokens x hx
    · rw [List.mem_singleton.mp hx]
      exact hr.keySort
  have hroom : ([] : List Key).length + (r.1 ++ [r.2]).length ≤ ContainerSize := by
    rw [List.length_nil, List.length_append, List.length_singleton]
    have hlt := hr.room
    omega
  have hlen : 2 ≤ (r.1 ++ [r.2]).length := by
    rw [List.length_append, List.length_singleton]
    have hpos := List.length_pos_of_ne_nil hr.ne_nil
    omega
  have hchain : (r.1 ++ [r.2]).dropLast.IsChain (· ≤ ·) := by
    rw [List.dropLast_concat]
    exact (hr.sorted.imp le_of_lt).isChain
  rw [validateTokensStored_withKeySort, hpieces, foldlM_stored hvalid hroom, List.nil_append]
  exact if_pos (decide_eq_true ⟨hlen, hchain⟩)

theorem encode_ne_nil : encode r.1 r.2 ≠ [] := fun hnil =>
  hr.keySort.1 (List.append_eq_nil_iff.mp hnil).2

theorem isValValid_encode : isValValid (encode r.1 r.2) := by
  have hterm := terminated_length_le hr.tokens
  have hroom := hr.room
  have hsort := hr.keySort.2
  rw [isValValid, encode, List.length_append]
  unfold INDEX_TOKEN_SIZE ContainerSize maxValSize at *
  omega

end Version

theorem makeKeyData_eq {keyN keySub keySort text : Key} (hN : valid keyN) (hS : valid keySub)
    (hsort : valid keySort) (ht : valid text) :
    makeKeyData keyN keySub keySort text =
        keyN ++ separator :: (terminated separator [text, keySort] ++ keySub) ∧
      isKeyValid (makeKeyData keyN keySub keySort text) := by
  have hlenN := hN.2
  have hlenS := hS.2
  have hlenO := hsort.2
  have hlenT := ht.2
  have hsum : ([keyN, [separator], text, [separator], keySort, [separator], keySub].map
      List.length).sum ≤ maxKeySize := by
    simp only [List.map_cons, List.map_nil, List.sum_cons, List.sum_nil, List.length_singleton]
    unfold INDEX_TOKEN_SIZE at *
    unfold maxKeySize
    omega
  have heq : makeKeyData keyN keySub keySort text =
      keyN ++ separator :: (terminated separator [text, keySort] ++ keySub) := by
    rw [makeKeyData, concatenateBuffer_key hsum]
    simp only [terminated, List.flatten_cons, List.flatten_nil, List.flatMap_cons,
      List.flatMap_nil, List.append_assoc, List.append_nil, List.cons_append, List.nil_append]
  refine ⟨heq, ?_, ?_⟩
  · rw [heq, List.length_append]
    have hpos := List.length_pos_of_ne_nil hN.1
    omega
  · rw [makeKeyData, concatenateBuffer_key hsum, List.length_flatten]
    exact hsum

/-- All keys of records. -/
def scheme : Scheme (Key × Key) (List Key × Key) Key Key where
  ctrl i := makeKeyCtrl i.1 i.2
  keys i r := r.1.map (makeKeyData i.1 i.2 r.2)
  encode r := encode r.1 r.2

section Keys

variable {i : Key × Key} (hN : valid i.1) (hS : valid i.2) {r : List Key × Key} (hr : Proper r)

include hN hS hr

theorem dataKey_of_mem {k : Key} (hk : k ∈ scheme.keys i r) :
    DataKey 1 i.1 i.2 k ∧ isKeyValid k := by
  obtain ⟨text, ht, rfl⟩ := List.mem_map.mp hk
  have htext := hr.tokens text ht
  obtain ⟨heq, hkey⟩ := makeKeyData_eq hN hS hr.keySort htext
  refine ⟨⟨text, [r.2], heq, htext.1, rfl, fun u hu => ?_⟩, hkey⟩
  rcases List.mem_cons.mp hu with rfl | hu
  · exact hr.tokens_clear u ht
  · rw [List.mem_singleton.mp hu]
    exact hr.keySort_clear

theorem ctrl_notMem : scheme.ctrl i ∉ scheme.keys i r := fun hmem =>
  (dataKey_of_mem hN hS hr hmem).1.not_ctrlKey (ZSet.makeKeyCtrl_eq hN hS).1

/-- The control key of a version is written. -/
theorem holds_iXMADDFactory (owned : Bool) (written now : UInt64) (db : Db) :
    holds now (insertF owned (iXMADDFactory (makeKeyCtrl i.1 i.2) r.1 r.2) written db) =
      Function.update (holds now db) (scheme.ctrl i) (some (scheme.encode r)) := by
  have hvalid : (iXMADDFactory (makeKeyCtrl i.1 i.2) r.1 r.2).valid = true :=
    decide_eq_true ⟨(ZSet.makeKeyCtrl_eq hN hS).2, isValValid_encode hr⟩
  exact holds_insertF hvalid rfl (fun written old hold => iXMADDFactory_createHint hvalid written hold)
    (fun _ => rfl) (fun _ => rfl) (encode_ne_nil hr) owned written now db

/-- All keys of a version are removed. -/
theorem removeKeys_eq (write : Key → Write) (db : Db) :
    removeKeys write r.1 i.1 i.2 r.2 db = eraseKeys write (scheme.keys i r) db := by
  rw [removeKeys, eraseKeys, scheme, List.foldl_map]
  refine List.foldl_ext _ _ _ fun db txt htxt => ?_
  exact if_pos ⟨hN, hS, hr.keySort, hr.tokens txt htxt⟩

/-- All keys of a version are inserted. -/
theorem insertKeys_eq (write : Key → Write) (db : Db) :
    insertKeys write r.1 i.1 i.2 r.2 db =
      Database.insertKeys write (scheme.keys i r) i.2 db := by
  rw [insertKeys, Database.insertKeys, scheme, List.foldl_map]
  refine List.foldl_ext _ _ _ fun db txt htxt => ?_
  exact if_pos ⟨hN, hS, hr.keySort, hr.tokens txt htxt⟩

end Keys

end HM4.RSet
