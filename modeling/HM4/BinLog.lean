import HM4.AVLContents
import HM4.SkipListRuns

/-!
# The log of a list and its replay

A list may write every pair that it takes to a log, and a tombstone for each pair that it erases.
Read back from the log the pairs are cloned into an empty list. There the creation time of a clone
is the low half of the time of its pair, the microseconds, and these are taken as seconds: a pair of
the same key is replaced only if it is not newer than that.
-/

namespace HM4.BinLog

open LexPrefix Bytes Pairs PairFactory MemList KeyedList ListSteps ListRuns

/-! ## The lists -/

/-- The lists that are logged, and into which a log is read. -/
inductive Kind
  | avllist
  | skiplist

namespace Kind

variable {σ : Type}

/-- A list with its allocator; a skip list has the random numbers that are still to come. -/
def Memlist (σ : Type) : Kind → Type
  | avllist => AVLList.AVL σ
  | skiplist => SkipList.State σ × (ℕ → ℕ)

/-- A new list. -/
def empty (alloc : σ) (random : ℕ → ℕ) : (kind : Kind) → kind.Memlist σ
  | avllist => AVLList.AVL.empty alloc
  | skiplist => (SkipList.State.empty alloc, random)

/-- One operation. -/
def step (allocator : Allocator σ) :
    (kind : Kind) → Op → kind.Memlist σ → Option (Option InsertResult × kind.Memlist σ)
  | avllist, op, list => AVLList.step allocator list op
  | skiplist, op, list => SkipListRuns.drawStep allocator op list

/-- `getPair___`. -/
def getPair : (kind : Kind) → kind.Memlist σ → Key → Option (Option Pair)
  | avllist, list, key => AVLList.getPair list key
  | skiplist, list, key => SkipList.getPair list.1 key

/-- What the allocator of a list says to an operation. -/
def answers (allocator : Allocator σ) : (kind : Kind) → kind.Memlist σ → Op → Answer → Prop
  | avllist, list, op, a => AVLContents.answers allocator list op a
  | skiplist, list, op, a => SkipListRuns.answers allocator list op a

/-- The keys that a list tells apart as a map does. -/
def Suits (keys : Set Key) : Kind → Prop
  | avllist => True
  | skiplist => Decided keys

/-- A list holds the pairs of a plain map. -/
def Holds (keys : Set Key) : (kind : Kind) → kind.Memlist σ → List Pair → Prop
  | avllist, list, m => AVLContents.Represents list m
  | skiplist, list, m => ∃ l, SkipListRuns.Represents keys list.1 l ∧ l.map SkipListLanes.pair = m

section Holds

variable {keys : Set Key} {kind : Kind}

theorem holds_empty (alloc : σ) (random : ℕ → ℕ) : kind.Holds keys (kind.empty alloc random) [] := by
  cases kind with
  | avllist => exact ⟨_, AVLContents.valid_empty alloc, rfl⟩
  | skiplist =>
    exact ⟨[], ⟨SkipListLanes.valid_empty alloc, fun _ hx => absurd hx List.not_mem_nil⟩, rfl⟩

/-- An operation on keys that are told apart is the one on the plain map. -/
theorem Holds.step {allocator : Allocator σ} (hkeys : kind.Suits keys) {op : Op} (hop : On keys op)
    {list : kind.Memlist σ} {m : List Pair} (h : kind.Holds keys list m) :
    ∃ r list' m' a, kind.answers allocator list op a ∧ kind.step allocator op list = some (r, list') ∧
      plainStep op a m = (r, m') ∧ kind.Holds keys list' m' := by
  cases kind with
  | avllist =>
    obtain ⟨t, hv, rfl⟩ := h
    obtain ⟨r, list', t', a, ha, hlist, hplain, hv'⟩ := AVLContents.step_spec allocator op hv
    exact ⟨r, list', AVLSearch.pairsOf t', a, ha, hlist, hplain, t', hv', rfl⟩
  | skiplist =>
    obtain ⟨l, hr, rfl⟩ := h
    obtain ⟨list, rest⟩ := list
    obtain ⟨r, list', l', hlist, hst, hv'⟩ :=
      SkipListContents.step_spec allocator (rest 0) hr.valid hop.keyed
    obtain ⟨a, ha, hplain, hknown⟩ := hr.known.stepped hkeys hst ⟨_, 0, rfl⟩ hop
    have hlist' : SkipList.step allocator list (rest 0) op = some (r, list') := hlist
    have hdraw : SkipListRuns.drawStep allocator op (list, rest) =
        some (r, list', fun n => rest (n + 1)) := by
      simp only [SkipListRuns.drawStep, hlist', Option.bind_eq_bind, Option.bind_some,
        Option.pure_def]
    exact ⟨r, (list', fun n => rest (n + 1)), l'.map SkipListLanes.pair, a, ha, hdraw, hplain, l',
      ⟨hv', hknown⟩, rfl⟩

theorem Holds.getPair (hkeys : kind.Suits keys) {list : kind.Memlist σ} {m : List Pair}
    (h : kind.Holds keys list m) {key : Key} (hk : key ∈ keys) (hne : key ≠ []) :
    kind.getPair list key = some (get key m) := by
  cases kind with
  | avllist =>
    obtain ⟨t, hv, rfl⟩ := h
    exact AVLContents.getPair_valid hv key
  | skiplist =>
    obtain ⟨l, hr, rfl⟩ := h
    exact hr.getPair hkeys hne hk

/-- A run beside a plain map. -/
theorem exists_together (allocator : Allocator σ) (hkeys : kind.Suits keys) {ops : List Op}
    (hops : ∀ op ∈ ops, On keys op) {list : kind.Memlist σ} {m : List Pair}
    (h : kind.Holds keys list m) :
    ∃ list' m', Together (kind.step allocator) (kind.answers allocator) list m ops list' m' ∧
      kind.Holds keys list' m' :=
  Together.exists_of_steps (fun _ _ _ hop h => h.step hkeys hop) hops h

end Holds

/-- An allocator that refuses nothing. -/
def Generous (allocator : Allocator σ) : Prop := ∀ size s, (allocator.xallocate size s).1 ≠ none

theorem Generous.not_refuses {allocator : Allocator σ} (h : Generous allocator) (sizes : List ℕ)
    (s : σ) : ¬Refuses allocator sizes s := by
  induction sizes generalizing s with
  | nil => exact id
  | cons size sizes ih => exact fun hr => hr.elim (h size s) (ih _)

/-- It has memory for every insert. -/
theorem Generous.memory {allocator : Allocator σ} (h : Generous allocator) (kind : Kind)
    {list : kind.Memlist σ} {factory : Factory} {now : UInt64} {a : Answer}
    (ha : kind.answers allocator list (.insert factory now) a) :
    a.memory = true ∧ a.refused = false := by
  cases kind with
  | avllist =>
    refine ⟨?_, ha.2.2⟩
    rw [ha.1, Option.isSome_iff_ne_none]
    exact h _ _
  | skiplist =>
    have hnot := h.not_refuses [factory.bytes, SkipList.calcSize (SkipList.getRandomHeight (list.2 0))]
      list.1.alloc
    have hboth := not_or.mp fun hc => hnot (ha.2 hc)
    exact ⟨Bool.eq_true_of_not_eq_false hboth.2, Bool.eq_false_of_not_eq_true hboth.1⟩

end Kind

/-! ## The log -/

/-- A list and the pairs that were written to its log. -/
structure BinLogList (S : Type) where
  list_ : S
  binlogger_ : List Pair

/-- A call of a list that is logged, at a time. -/
inductive Call
  | insertF (factory : Factory) (now : UInt64)
  | erase (key : Key) (now : UInt64)

namespace Call

/-- What the list below is asked to do. -/
def op : Call → Op
  | insertF factory now => .insert factory now
  | erase key _ => .erase key

/-- The time of the call. -/
def now : Call → UInt64
  | insertF _ now => now
  | erase _ now => now

/-- The pairs that the call would write have the time of the call. -/
def Stamped : Call → Prop
  | insertF factory now => ∀ h, (factory.create h now).created = now.toNat ∧
      ∀ old, (factory.createHint h now old).created = now.toNat
  | erase _ _ => True

end Call

/-- `makePairTombstone`. -/
def makePairTombstone (key : Key) (now : UInt64) : Option Pair :=
  if hk : isKeyValid key then some (full key [] 0 (prepareCreateTime 0 now) hk (Nat.zero_le _))
  else none

section Code

variable {S : Type} (step : Op → S → Option (Option InsertResult × S))

/-- `BinLogList::insertF` and `BinLogList::erase___`. -/
def BinLogList.call (b : BinLogList S) : Call → Option (BinLogList S)
  | .insertF factory now => do
    let (result, list) ← step (.insert factory now) b.list_
    let result ← result
    return ⟨list, b.binlogger_ ++ result.pair.toList⟩
  | .erase key now =>
    if key = [] then none
    else do
      let (result, list) ← step (.erase key) b.list_
      let result ← result
      if result.status = .DELETED then
        let pair ← makePairTombstone key now
        return ⟨list, b.binlogger_ ++ [pair]⟩
      else return ⟨list, b.binlogger_ ++ result.pair.toList⟩

/-- Some calls, one after another. -/
def BinLogList.run (b : BinLogList S) (calls : List Call) : Option (BinLogList S) :=
  calls.foldlM (BinLogList.call step) b

/-- `binlogFileReplay`. A clone does not read the clock, and no pair has an empty key. -/
def binlogFileReplay (list : S) (inputList : List Pair) : Option S :=
  inputList.foldlM (fun list pair => do
    let (_, list) ← step (.insert (clone pair) 0) list
    return list) list

end Code

/-! ## What is found -/

/-- The pair that was logged last with a key. -/
def lastOf (key : Key) (log : List Pair) : Option Pair := log.reverse.find? fun p => p.key = key

/-- A key has the same pair after a replay, or it has none and then nothing or a tombstone. -/
def Reproduced (live replayed : Option Pair) : Prop :=
  replayed = live ∨ live = none ∧ ∃ p, replayed = some p ∧ p.isTombstone = true

/-- A pair that is logged now would be taken by a replay: it would replace the pair that was logged
last with its key. Where this is a tombstone and the pair is erased, it does not matter. -/
def Taken (log : List Pair) : Call → Prop
  | .insertF factory now => factory.valid = true → ∀ p, lastOf factory.getKey log = some p →
      isValidForReplace (UInt32.ofNat now.toNat) p = true
  | .erase key now => ∀ p, lastOf key log = some p → p.isTombstone = true ∨
      isValidForReplace (UInt32.ofNat now.toNat) p = true

/-- All calls of a run write to the log what a replay would take. -/
def AllTaken {S : Type} (step : Op → S → Option (Option InsertResult × S)) (b : BinLogList S) :
    List Call → Prop
  | [] => True
  | call :: calls => Taken b.binlogger_ call ∧
      ∀ b', b.call step call = some b' → AllTaken step b' calls

theorem lastOf_append_self (log : List Pair) (q : Pair) : lastOf q.key (log ++ [q]) = some q := by
  rw [lastOf, List.reverse_append, List.reverse_singleton, List.singleton_append,
    List.find?_cons_of_pos (by simp)]

theorem lastOf_append_of_ne {key : Key} {q : Pair} (h : q.key ≠ key) (log : List Pair) :
    lastOf key (log ++ [q]) = lastOf key log := by
  rw [lastOf, List.reverse_append, List.reverse_singleton, List.singleton_append,
    List.find?_cons_of_neg (by simpa using h), lastOf]

/-! ## A replay on a plain map -/

/-- A clone is put into a plain map. -/
def cloneInto (m : List Pair) (p : Pair) : List Pair :=
  match get p.key m with
  | none => put Pair.key p m
  | some old => if isValidForReplace (UInt32.ofNat p.created) old then put Pair.key p m else m

theorem plainStep_clone {a : Answer} (ha : a.memory = true ∧ a.refused = false) (p : Pair)
    (m : List Pair) : ∃ r, plainStep (.insert (clone p) 0) a m = (some r, cloneInto m p) ∧
      ∀ old, get p.key m = some old →
        (r.pair = some p ↔ isValidForReplace (UInt32.ofNat p.created) old = true) := by
  have hv : (clone p).valid = true := rfl
  have hkey : (clone p).getKey = p.key := rfl
  have hcreated : (clone p).getCreated = UInt32.ofNat p.created := rfl
  have hrefused : ¬((clone p).valid = true ∧ a.refused = true) := fun h =>
    Bool.false_ne_true (ha.2.symm.trans h.2)
  rw [plainStep, if_neg hrefused]
  unfold plainInsert cloneInto
  rw [dif_pos hv, hkey, hcreated, ha.1]
  cases hget : get p.key m with
  | none => exact ⟨_, rfl, fun old hold => absurd hold.symm (Option.some_ne_none old)⟩
  | some old =>
    by_cases hvalid : isValidForReplace (UInt32.ofNat p.created) old = true
    · dsimp only
      rw [if_neg (not_not.mpr hvalid), if_pos hvalid]
      split
      · exact ⟨_, rfl, fun old' hold => by
          obtain rfl := Option.some.inj hold
          exact iff_of_true rfl hvalid⟩
      · exact ⟨_, rfl, fun old' hold => by
          obtain rfl := Option.some.inj hold
          exact iff_of_true rfl hvalid⟩
    · dsimp only
      rw [if_pos hvalid, if_neg hvalid]
      exact ⟨_, rfl, fun old' hold => by
        obtain rfl := Option.some.inj hold
        exact iff_of_false (fun h => absurd h.symm (Option.some_ne_none p)) hvalid⟩

/-- What a list, its log and the replay of its log have of a key: nothing, the same pair, or two
tombstones of a pair that was erased. -/
inductive Tracks : Option Pair → Option Pair → Option Pair → Prop
  | nothing : Tracks none none none
  | same (q : Pair) : Tracks (some q) (some q) (some q)
  | erased {q p : Pair} (hq : q.isTombstone = true) (hp : p.isTombstone = true)
      (hle : p.created ≤ q.created) : Tracks none (some q) (some p)

theorem Tracks.reproduced {live logged replayed : Option Pair} (h : Tracks live logged replayed) :
    Reproduced live replayed := by
  cases h with
  | nothing => exact .inl rfl
  | same q => exact .inl rfl
  | erased hq hp hle => exact .inr ⟨rfl, _, rfl, hp⟩

/-- What is there in a list was logged last and is there after a replay. -/
theorem Tracks.of_live {q : Pair} {logged replayed : Option Pair}
    (h : Tracks (some q) logged replayed) : logged = some q ∧ replayed = some q := by
  cases h with
  | same => exact ⟨rfl, rfl⟩

/-- What is there after a replay was logged, and what was logged last is not older. -/
theorem Tracks.of_replayed {p : Pair} {live logged : Option Pair} (h : Tracks live logged (some p)) :
    ∃ q, logged = some q ∧ p.created ≤ q.created := by
  cases h with
  | same => exact ⟨p, rfl, le_rfl⟩
  | erased hq hp hle => exact ⟨_, rfl, hle⟩

/-- A list, its log and the replay of its log. -/
def AllTracks (m log m' : List Pair) : Prop :=
  ∀ key, Tracks (get key m) (lastOf key log) (get key m')

theorem get_cloneInto_of_ne {key : Key} {q : Pair} (h : q.key ≠ key) (m : List Pair) :
    get key (cloneInto m q) = get key m := by
  unfold cloneInto
  split
  · exact lookup_put_of_ne h m
  · split
    · exact lookup_put_of_ne h m
    · rfl

/-- A pair is replaced by clones that replace pairs that are not older. -/
theorem isValidForReplace_mono {created : UInt32} {p q : Pair} (hle : p.created ≤ q.created)
    (h : isValidForReplace created q = true) : isValidForReplace created p = true :=
  decide_eq_true (hle.trans (of_decide_eq_true h))

/-- After a clone that is taken its pair is there. -/
theorem get_cloneInto_self {q : Pair} {m : List Pair}
    (h : ∀ p, get q.key m = some p → isValidForReplace (UInt32.ofNat q.created) p = true) :
    get q.key (cloneInto m q) = some q := by
  unfold cloneInto
  cases hget : get q.key m with
  | none => exact lookup_put_self Pair.key q m
  | some p =>
    dsimp only
    rw [if_pos (h p hget)]
    exact lookup_put_self Pair.key q m

variable {m log m' : List Pair}

/-- A pair is written and logged. -/
theorem AllTracks.insert (h : AllTracks m log m') {q : Pair}
    (htaken : ∀ p, lastOf q.key log = some p →
      isValidForReplace (UInt32.ofNat q.created) p = true) :
    AllTracks (put Pair.key q m) (log ++ [q]) (cloneInto m' q) := by
  intro key
  by_cases hkey : q.key = key
  · subst hkey
    have hself : get q.key (cloneInto m' q) = some q := by
      refine get_cloneInto_self fun p hp => ?_
      obtain ⟨q', hlast, hle⟩ := (hp ▸ h q.key).of_replayed
      exact isValidForReplace_mono hle (htaken q' hlast)
    have hput : get q.key (put Pair.key q m) = some q := lookup_put_self Pair.key q m
    rw [hput, lastOf_append_self, hself]
    exact .same q
  · have hput : get key (put Pair.key q m) = get key m := lookup_put_of_ne hkey m
    rw [hput, lastOf_append_of_ne hkey, get_cloneInto_of_ne hkey]
    exact h key

/-- A pair is erased and its tombstone is logged. -/
theorem AllTracks.erase (h : AllTracks m log m') (hm : Increasing Pair.key m) {q t : Pair}
    (hq : get t.key m = some q) (ht : t.isTombstone = true) (hle : q.created ≤ t.created)
    (htaken : q.isTombstone = true ∨ isValidForReplace (UInt32.ofNat t.created) q = true) :
    AllTracks (remove Pair.key t.key m) (log ++ [t]) (cloneInto m' t) := by
  intro key
  by_cases hkey : t.key = key
  · subst hkey
    have hremove : get t.key (remove Pair.key t.key m) = none := hm.lookup_remove_self
    have hreplayed : get t.key m' = some q := (hq ▸ h t.key).of_live.2
    rw [hremove, lastOf_append_self]
    by_cases hvalid : isValidForReplace (UInt32.ofNat t.created) q = true
    · rw [get_cloneInto_self fun p hp => ?_]
      · exact .erased ht ht le_rfl
      · obtain rfl := Option.some.inj (hreplayed.symm.trans hp)
        exact hvalid
    · have hkept : cloneInto m' t = m' := by
        unfold cloneInto
        rw [hreplayed]
        exact if_neg hvalid
      rw [hkept, hreplayed]
      exact .erased ht (htaken.resolve_right hvalid) hle
  · have hremove : get key (remove Pair.key t.key m) = get key m :=
      lookup_remove_of_ne hkey m
    rw [hremove, lastOf_append_of_ne hkey, get_cloneInto_of_ne hkey]
    exact h key

/-! ## Runs -/

/-- An insert into a plain map leaves it as it is or puts the pair that it gives. -/
theorem plainStep_insert_cases (factory : Factory) (now : UInt64) (a : Answer) (m : List Pair) :
    (∃ r : InsertResult, plainStep (.insert factory now) a m = (some r, m) ∧ r.pair = none) ∨
      ∃ (hv : factory.valid = true) (r : InsertResult) (q : Pair),
        plainStep (.insert factory now) a m = (some r, put Pair.key q m) ∧ r.pair = some q ∧
        q.key = factory.getKey ∧
        (q = factory.create hv now ∨ ∃ old, q = factory.createHint hv now old) := by
  by_cases hrefused : factory.valid = true ∧ a.refused = true
  · left
    rw [plainStep, if_pos hrefused]
    exact ⟨_, rfl, rfl⟩
  rw [plainStep, if_neg hrefused]
  by_cases hv : factory.valid = true
  · have hnew := factory.create_key hv now
    unfold plainInsert
    rw [dif_pos hv]
    cases hget : get factory.getKey m with
    | none =>
      dsimp only
      split
      · exact .inr ⟨hv, _, _, rfl, rfl, hnew, .inl rfl⟩
      · exact .inl ⟨_, rfl, rfl⟩
    | some old =>
      have hhint := factory.createHint_key hv now old (lookup_key hget)
      dsimp only
      split
      · exact .inl ⟨_, rfl, rfl⟩
      · split
        · exact .inr ⟨hv, _, _, rfl, rfl, hhint, .inr ⟨old, rfl⟩⟩
        · split
          · exact .inr ⟨hv, _, _, rfl, rfl, hnew, .inl rfl⟩
          · exact .inl ⟨_, rfl, rfl⟩
  · left
    rw [plainInsert_invalid hv]
    exact ⟨_, rfl, rfl⟩

/-- What the log reads back to. -/
def readBack (log : List Pair) : List Pair := log.foldl cloneInto []

theorem readBack_append (log : List Pair) (q : Pair) :
    readBack (log ++ [q]) = cloneInto (readBack log) q := by
  rw [readBack, List.foldl_append, List.foldl_cons, List.foldl_nil, readBack]

/-- What a call gives: new pairs have its time, the log has pairs of known keys only, and what is
taken by a replay is read back. -/
structure Logs (keys : Set Key) (call : Call) (m log m1 log1 : List Pair) : Prop where
  increasing : Increasing Pair.key m1
  created : ∀ p ∈ m1, p ∈ m ∨ p.created = call.now.toNat
  known : (∀ p ∈ log, p.key ∈ keys) → ∀ p ∈ log1, p.key ∈ keys
  tracks : Taken log call → (∀ p ∈ m, p.created ≤ call.now.toNat) →
    AllTracks m log (readBack log) → AllTracks m1 log1 (readBack log1)

section Run

variable {S : Type} {step : Op → S → Option (Option InsertResult × S)} {keys : Set Key}
  {s s1 : S} {m1 : List Pair} {call : Call} {r : Option InsertResult} {a : Answer}

/-- One call beside a plain map. -/
theorem call_spec (hm : Increasing Pair.key m) (hon : On keys call.op) (hstamped : call.Stamped)
    (hlist : step call.op s = some (r, s1)) (hplain : plainStep call.op a m = (r, m1))
    (log : List Pair) : ∃ log1, BinLogList.call step ⟨s, log⟩ call = some ⟨s1, log1⟩ ∧
      Logs keys call m log m1 log1 := by
  cases call with
  | insertF factory now =>
    have hlist' : step (.insert factory now) s = some (r, s1) := hlist
    have hplain' : plainStep (.insert factory now) a m = (r, m1) := hplain
    rcases plainStep_insert_cases factory now a m with
      ⟨r', hres, hnone⟩ | ⟨hv, r', q, hres, hsome, hkey, hq⟩
    · obtain ⟨rfl, rfl⟩ := Prod.mk.inj (hplain'.symm.trans hres)
      refine ⟨log, ?_, hm, fun p hp => .inl hp, fun hknown => hknown, fun _ _ h => h⟩
      simp [BinLogList.call, hlist', hnone]
    · obtain ⟨rfl, rfl⟩ := Prod.mk.inj (hplain'.symm.trans hres)
      have htime : q.created = now.toNat := by
        rcases hq with rfl | ⟨old, rfl⟩
        · exact (hstamped hv).1
        · exact (hstamped hv).2 old
      have hin : q.key ∈ keys := hkey ▸ (hon factory.getKey (if_pos hv)).2
      refine ⟨log ++ [q], ?_, hm.put, fun p hp => ?_, fun hknown p hp => ?_, fun htaken _ h => ?_⟩
      · simp [BinLogList.call, hlist', hsome]
      · rcases mem_put hp with rfl | hp
        · exact .inr htime
        · exact .inl hp
      · rcases List.mem_append.mp hp with hp | hp
        · exact hknown p hp
        · rw [List.mem_singleton.mp hp]
          exact hin
      · have hlow : UInt32.ofNat q.created = UInt32.ofNat now.toNat := by rw [htime]
        rw [readBack_append]
        refine h.insert fun p hp => ?_
        rw [hlow]
        exact htaken hv p (hkey ▸ hp)
  | erase key now =>
    have hlist' : step (.erase key) s = some (r, s1) := hlist
    have hne : key ≠ [] := (hon key rfl).1
    have hin : key ∈ keys := (hon key rfl).2
    have hplain' : (some (plainErase key m).1, (plainErase key m).2) = (r, m1) := hplain
    unfold plainErase at hplain'
    cases hget : get key m with
    | none =>
      rw [hget] at hplain'
      obtain ⟨rfl, rfl⟩ := Prod.mk.inj hplain'
      refine ⟨log, ?_, hm, fun p hp => .inl hp, fun hknown => hknown, fun _ _ h => h⟩
      simp [BinLogList.call, hlist', hne]
    | some q =>
      rw [hget] at hplain'
      obtain ⟨rfl, rfl⟩ := Prod.mk.inj hplain'
      have hkey : q.key = key := lookup_key hget
      have hk : isKeyValid key := hkey ▸ q.keyValid
      have htomb : makePairTombstone key now =
          some (full key [] 0 (prepareCreateTime 0 now) hk (Nat.zero_le _)) := dif_pos hk
      generalize ht : full key [] 0 (prepareCreateTime 0 now) hk (Nat.zero_le _) = t at htomb
      have htkey : t.key = key := by rw [← ht]; rfl
      have htime : t.created = now.toNat := by rw [← ht]; rfl
      have hdead : t.isTombstone = true := by rw [← ht]; rfl
      refine ⟨log ++ [t], ?_, hm.remove, fun p hp => .inl (mem_of_mem_remove hp),
        fun hknown p hp => ?_, fun htaken hle h => ?_⟩
      · simp [BinLogList.call, hlist', hne, htomb]
      · rcases List.mem_append.mp hp with hp | hp
        · exact hknown p hp
        · rw [List.mem_singleton.mp hp, htkey]
          exact hin
      · have hlast := (hget ▸ h key).of_live.1
        have hold : q.created ≤ t.created := by
          rw [htime]
          exact hle q (mem_of_lookup hget)
        have hcase := htaken q hlast
        rw [← htime] at hcase
        subst htkey
        rw [readBack_append]
        exact h.erase hm hget hdead hold hcase

/-- A run of calls beside a plain map. -/
theorem run_spec {answers : S → Op → Answer → Prop} {calls : List Call} {s' : S}
    {m' : List Pair} (h : Together step answers s m (calls.map Call.op) s' m')
    (hm : Increasing Pair.key m) (hon : ∀ call ∈ calls, On keys call.op)
    (hstamped : ∀ call ∈ calls, call.Stamped) (log : List Pair)
    (hknown : ∀ p ∈ log, p.key ∈ keys) :
    ∃ log', BinLogList.run step ⟨s, log⟩ calls = some ⟨s', log'⟩ ∧ (∀ p ∈ log', p.key ∈ keys) ∧
      (AllTaken step ⟨s, log⟩ calls → calls.Pairwise (fun x y => x.now < y.now) →
        (∀ p ∈ m, ∀ call ∈ calls, p.created ≤ call.now.toNat) →
        AllTracks m log (readBack log) → AllTracks m' log' (readBack log')) := by
  induction calls generalizing s m log with
  | nil =>
    cases h with
    | nil => exact ⟨log, rfl, hknown, fun _ _ _ h => h⟩
  | cons call calls ih =>
    obtain ⟨honcall, honrest⟩ := List.forall_mem_cons.mp hon
    obtain ⟨hstampedcall, hstampedrest⟩ := List.forall_mem_cons.mp hstamped
    rw [List.map_cons] at h
    cases h with
    | cons a ha hlist hplain hrest =>
      obtain ⟨log1, hcall, hlogs⟩ := call_spec hm honcall hstampedcall hlist hplain log
      obtain ⟨log', hrun, hknown', htracks⟩ :=
        ih hrest hlogs.increasing honrest hstampedrest log1 (hlogs.known hknown)
      refine ⟨log', ?_, hknown', fun htaken hclock hold h => ?_⟩
      · rw [BinLogList.run, List.foldlM_cons, hcall]
        exact hrun
      · obtain ⟨hfirst, hlater⟩ := List.pairwise_cons.mp hclock
        refine htracks (htaken.2 _ hcall) hlater (fun p hp later hmem => ?_) ?_
        · rcases hlogs.created p hp with hp | htime
          · exact hold p hp later (List.mem_cons_of_mem call hmem)
          · rw [htime]
            exact (hfirst later hmem).le
        · exact hlogs.tracks htaken.1 (fun p hp => hold p hp call List.mem_cons_self) h

/-- A replay beside a plain map. -/
theorem replay_spec {answers : S → Op → Answer → Prop} {log : List Pair} {s' : S} {m' : List Pair}
    (hmemory : ∀ list factory now a, answers list (.insert factory now) a →
      a.memory = true ∧ a.refused = false)
    (h : Together step answers s m (log.map fun p => .insert (clone p) 0) s' m') :
    binlogFileReplay step s log = some s' ∧ m' = log.foldl cloneInto m := by
  induction log generalizing s m with
  | nil =>
    cases h with
    | nil => exact ⟨rfl, rfl⟩
  | cons p log ih =>
    rw [List.map_cons] at h
    cases h with
    | cons a ha hlist hplain hrest =>
      obtain ⟨r', hclone, -⟩ := plainStep_clone (hmemory _ _ _ _ ha) p m
      obtain ⟨rfl, rfl⟩ := Prod.mk.inj (hplain.symm.trans hclone)
      obtain ⟨hreplay, hread⟩ := ih hrest
      refine ⟨?_, hread⟩
      rw [binlogFileReplay, List.foldlM_cons, hlist]
      exact hreplay

end Run

/-- The list under a log of its own, and a new list into which the log is read. -/
structure Setting where
  σ : Type
  allocator : Allocator σ
  alloc : σ
  random : ℕ → ℕ
  kind : Kind

namespace Setting

/-- The operations of the list. -/
def step (t : Setting) : Op → t.kind.Memlist t.σ → Option (Option InsertResult × t.kind.Memlist t.σ) :=
  t.kind.step t.allocator

/-- The list when it is new. -/
def empty (t : Setting) : t.kind.Memlist t.σ := t.kind.empty t.alloc t.random

/-- The new list after some operations. -/
def after (t : Setting) (ops : List Op) : Option (t.kind.Memlist t.σ) :=
  ops.foldlM (fun list op => (t.step op list).map Prod.snd) t.empty

/-- The new list with a log after some calls. -/
def logged (t : Setting) (calls : List Call) : Option (BinLogList (t.kind.Memlist t.σ)) :=
  BinLogList.run t.step ⟨t.empty, []⟩ calls

/-- The new list after a replay. -/
def replayed (t : Setting) (log : List Pair) : Option (t.kind.Memlist t.σ) :=
  binlogFileReplay t.step t.empty log

end Setting

theorem foldlM_of_together {S : Type} {step : Op → S → Option (Option InsertResult × S)}
    {answers : S → Op → Answer → Prop} {ops : List Op} {s s' : S} {m m' : List Pair}
    (h : Together step answers s m ops s' m') :
    ops.foldlM (fun list op => (step op list).map Prod.snd) s = some s' := by
  induction h with
  | nil => rfl
  | cons a ha hlist hplain hrest ih =>
    rw [List.foldlM_cons, hlist]
    exact ih

/-- A list with a log, and a new list after a replay of the log, have the same pairs. -/
def Replays (live replay : Setting) (keys : Set Key) (calls : List Call) : Prop :=
  ∃ b list, live.logged calls = some b ∧ replay.replayed b.binlogger_ = some list ∧
    ∀ key ∈ keys, key ≠ [] → ∃ p p', live.kind.getPair b.list_ key = some p ∧
      replay.kind.getPair list key = some p' ∧ Reproduced p p'

/-- Of a key that has a pair, a clone replaces this pair. -/
def CloneReplaces (t : Setting) (list : t.kind.Memlist t.σ) (p : Pair) : Prop :=
  ∃ r list', t.step (.insert (clone p) 0) list = some (some r, list') ∧ r.pair = some p

/-- An `AVLList` whose allocator always has memory. -/
def avl : Setting := ⟨ℕ, growing, 0, fun n => n, .avllist⟩

/-- A write of a value under the key "k". -/
def writeOf (b : Byte) (now : UInt64) : Call := .insertF (normal [107] [b] 0 0) now

theorem generous_growing : Kind.Generous growing := fun _ _ h => nomatch h

theorem on_writeOf {b : Byte} {now : UInt64} : On {[107]} (writeOf b now).op := by
  intro key hk
  obtain rfl := Option.some.inj hk
  exact ⟨List.cons_ne_nil _ _, rfl⟩

theorem stamped_normal {key val : Key} {exp : UInt32} {now : UInt64} :
    (Call.insertF (normal key val exp 0) now).Stamped := fun _ => ⟨rfl, fun _ => rfl⟩

end HM4.BinLog
