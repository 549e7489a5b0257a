import HM4.ExpireAt

/-!
# Copying and moving a pair

A copy is written as a new pair under the other key. It is given the seconds that the source has
left, as many as are whole at one reading of the clock, and its time of creation is a later reading.
No seconds at all are no expiration.
-/

namespace HM4.CopyMove

open LexPrefix Bytes Pairs PairFactory MemList KeyedList Database
open MutableX hiding Env
open ConcurrentFlushList (DualListEraseType)
open ExpireAt (Env isOKReadings)

/-- `CPMVOperation`. -/
inductive CPMVOperation
  | MV
  | MV_NX
  | CP
  | CP_NX
  deriving DecidableEq

/-- The source is erased. -/
def CPMVOperation.moves : CPMVOperation → Bool
  | MV => true
  | MV_NX => true
  | CP => false
  | CP_NX => false

/-- The destination must not be alive. -/
def CPMVOperation.nx : CPMVOperation → Bool
  | MV => false
  | MV_NX => true
  | CP => false
  | CP_NX => true

/-- How many readings `getTTL` takes. -/
def ttlReadings (p : Pair) : ℕ := if p.expires = 0 then 0 else 1

/-- How many readings the look at the destination takes. -/
def nxReadings (op : CPMVOperation) (newkey : Key) (s : Store) : ℕ :=
  if op.nx = true then ((get newkey s.view).map isOKReadings).getD 0 else 0

/-- The destination is alive when the command looks at it. -/
def taken (env : Env) (op : CPMVOperation) (newkey : Key) (s : Store) : Bool :=
  op.nx && (getPairPtr (env.clock 0) newkey s.view).isSome

/-- The reading at which the life of the source is measured. -/
def ttlReading (op : CPMVOperation) (newkey : Key) (it : Pair) (s : Store) : ℕ :=
  nxReadings op newkey s + isOKReadings it

/-- The reading at which the copy is created. -/
def createReading (op : CPMVOperation) (newkey : Key) (it : Pair) (s : Store) : ℕ :=
  ttlReading op newkey it s + ttlReadings it

/-- The copy of a pair is inserted. -/
def insertCopy (env : Env) (op : CPMVOperation) (newkey : Key) (it : Pair) (s : Store) : Store :=
  let ttl := UInt32.ofNat (Expiration.getTTL (env.clock (ttlReading op newkey it s)) it)
  s.insertF (env.turn 0) (normal newkey it.val ttl 0) (env.clock (createReading op newkey it s))

/-- `cpmv`: the reply and the store. -/
def cpmv (env : Env) (op : CPMVOperation) (p : List Key) (s : Store) : Reply × Store :=
  let key := p.getD 1 []
  let newkey := p.getD 2 []
  if p.length ≠ 3 then (.error .NEED_EXACT_PARAMS_2, s)
  else if ¬isKeyValid key then (.error .EMPTY_KEY, s)
  else if ¬isKeyValid newkey then (.error .EMPTY_KEY, s)
  else if key = newkey then (.error .INVALID_PARAMETERS, s)
  else if taken env op newkey s = true then (.bool false, s)
  else
    match getPairPtr (env.clock (nxReadings op newkey s)) key s.view with
    | some it =>
      let s' := insertCopy env op newkey it s
      if op.moves = true then
        let now := env.clock (createReading op newkey it s + 1)
        (.bool true, s'.erase env.et (env.turn 1) key now)
      else (.bool true, s')
    | none => (.bool false, s)

/-- What a copy should be: alive with the value, given an expiration just if the source has one, and
dead a second after the source would be. -/
structure Copies (now : UInt64) (it q : Pair) : Prop where
  alive : isOK now q = true
  val : q.val = it.val
  expires : q.expires ≠ 0 ↔ it.expires ≠ 0
  dies : ∀ d t : UInt64, isOK d it = false → d.toNat + 2 ^ 32 ≤ t.toNat → isOK t q = false

/-- What the commands should do. -/
structure Carries (env : Env) (op : CPMVOperation) (p : List Key) (s : Store) : Prop where
  copied : (cpmv env op p s).1 = .bool true →
    ∃ it, getPairPtr (env.clock (nxReadings op (p.getD 2 []) s)) (p.getD 1 []) s.view = some it ∧
      Found (Copies (env.clock (createReading op (p.getD 2 []) it s)) it)
        (get (p.getD 2 []) (cpmv env op p s).2.view)
  gone : (cpmv env op p s).1 = .bool true → op.moves = true →
    ∀ t, getPairPtr t (p.getD 1 []) (cpmv env op p s).2.view = none
  other : ∀ k, k ≠ p.getD 1 [] → k ≠ p.getD 2 [] →
    get k (cpmv env op p s).2.view = get k s.view
  refused : (cpmv env op p s).1 ≠ .bool true → (cpmv env op p s).2 = s
  kept : op.nx = true → (getPairPtr (env.clock 0) (p.getD 2 []) s.view).isSome = true →
    (cpmv env op p s).2 = s

/-- A pair that expires has a whole second left at the one reading, but not so many that they mark
a tombstone, and the other reading is at most a second and the fraction of a second that is left
later, unless time itself ends before. -/
def Lasts (ttl create : UInt64) (it : Pair) : Prop :=
  it.expires = 0 ∨
    ttl.toNat + 2 ^ 32 ≤ addTime it.created it.expires ∧
      to32 (addTime it.created it.expires - ttl.toNat) ≠ expiresTombstone ∧
      (it.created + it.expires * 2 ^ 32 + 2 ^ 32 + 1 < 2 ^ 64 →
        create.toNat ≤
          ttl.toNat + 2 ^ 32 + (it.created + it.expires * 2 ^ 32 - ttl.toNat) % 2 ^ 32)

/-- The store behind a command that succeeds. -/
def result (env : Env) (op : CPMVOperation) (key newkey : Key) (it : Pair) (s : Store) : Store :=
  if op.moves = true then
    (insertCopy env op newkey it s).erase env.et (env.turn 1) key
      (env.clock (createReading op newkey it s + 1))
  else insertCopy env op newkey it s

section Cases

variable (env : Env) (op : CPMVOperation) (p : List Key) (s : Store)

/-- A command does nothing, or it finds its source and does all. -/
theorem cpmv_cases :
    (∃ r, r ≠ .bool true ∧ cpmv env op p s = (r, s)) ∨
      isKeyValid (p.getD 1 []) ∧ isKeyValid (p.getD 2 []) ∧ p.getD 1 [] ≠ p.getD 2 [] ∧
        taken env op (p.getD 2 []) s = false ∧
        ∃ it, getPairPtr (env.clock (nxReadings op (p.getD 2 []) s)) (p.getD 1 []) s.view = some it ∧
          cpmv env op p s = (.bool true, result env op (p.getD 1 []) (p.getD 2 []) it s) := by
  unfold cpmv
  dsimp only
  split
  · exact .inl ⟨_, Reply.noConfusion, rfl⟩
  · split
    · exact .inl ⟨_, Reply.noConfusion, rfl⟩
    · next hkey =>
      split
      · exact .inl ⟨_, Reply.noConfusion, rfl⟩
      · next hnewkey =>
        split
        · exact .inl ⟨_, Reply.noConfusion, rfl⟩
        · next hne =>
          split
          · exact .inl ⟨_, by simp, rfl⟩
          · next htaken =>
            cases hit : getPairPtr (env.clock (nxReadings op (p.getD 2 []) s)) (p.getD 1 [])
              s.view with
            | none => exact .inl ⟨_, by simp, rfl⟩
            | some it =>
              refine .inr ⟨not_not.mp hkey, not_not.mp hnewkey, hne,
                Bool.eq_false_iff.mpr htaken, it, rfl, ?_⟩
              unfold result
              dsimp only
              split <;> rfl

end Cases

/-! ## The life of a copy -/

section Life

variable {it q : Pair}

theorem isTombstone_of_isOK {now : UInt64} (h : isOK now q = true) : q.isTombstone = false := by
  unfold isOK at h
  simp only [Bool.and_eq_true, Bool.not_eq_true'] at h
  exact h.1

/-- A pair that is no tombstone is alive up to its end. -/
theorem isOK_eq_false_iff (h : q.isTombstone = false) (now : UInt64) :
    isOK now q = false ↔ q.expires ≠ 0 ∧ q.created + q.expires * 2 ^ 32 < now.toNat := by
  unfold isOK isExpired
  simp [h, Expiration.addTime_lt_iff]

/-- What the copy is made of. -/
structure Copied (ttl create : UInt64) (it q : Pair) : Prop where
  val : q.val = it.val
  created : q.created = create.toNat
  expires : q.expires = Expiration.getTTL ttl it

theorem getTTL_lt (now : UInt64) (p : Pair) : Expiration.getTTL now p < 2 ^ 32 := by
  unfold Expiration.getTTL addTime to32
  have hcreated := p.created_lt
  split_ifs <;> omega

theorem copied_left {newkey : Key} {ttl create : UInt64}
    (h : (normal newkey it.val (UInt32.ofNat (Expiration.getTTL ttl it)) 0).valid = true) (p : Pair)
    (hp : (normal newkey it.val (UInt32.ofNat (Expiration.getTTL ttl it)) 0).Leaves h create p) :
    p.created = create.toNat ∧ Found (Copied ttl create it) (some p) := by
  obtain rfl := normal_leaves hp
  have hexp : (UInt32.ofNat (Expiration.getTTL ttl it)).toNat = Expiration.getTTL ttl it :=
    UInt32.toNat_ofNat_of_lt' (getTTL_lt ttl it)
  exact ⟨rfl, _, rfl, rfl, rfl, hexp⟩

/-- The seconds that are left of a pair that is alive. -/
theorem getTTL_eq {now : UInt64} (hexp : it.expires ≠ 0) :
    Expiration.getTTL now it = to32 (addTime it.created it.expires - now.toNat) := by
  unfold Expiration.getTTL
  rw [if_neg hexp]
  split
  · next hlt =>
    have hzero : addTime it.created it.expires - now.toNat = 0 := by omega
    rw [hzero]
    rfl
  · rfl

theorem le_of_to32_ne_zero {a b : ℕ} (h : to32 (a - b) ≠ 0) : b + 2 ^ 32 ≤ a := by
  unfold to32 at h
  omega

theorem to32_ne_zero {a b : ℕ} (h : b + 2 ^ 32 ≤ a) : to32 (a - b) ≠ 0 := by
  unfold to32
  omega

theorem addTime_of_lt {created exp : ℕ} (h : created + exp * 2 ^ 32 < 2 ^ 64) :
    addTime created exp = created + exp * 2 ^ 32 := by
  unfold addTime
  exact if_neg (by omega)

theorem exists_toNat_eq {n : ℕ} (h : n < 2 ^ 64) : ∃ t : UInt64, t.toNat = n :=
  ⟨UInt64.ofNat n, UInt64.toNat_ofNat_of_lt' h⟩

/-- A copy ends a second behind its source at the latest if it is created soon enough. -/
theorem end_le_iff {a r : ℕ} (w : ℕ) (h : r ≤ a) :
    w + to32 (a - r) * 2 ^ 32 ≤ a + 2 ^ 32 ↔ w ≤ r + 2 ^ 32 + (a - r) % 2 ^ 32 := by
  have hsum := Nat.div_add_mod (a - r) (2 ^ 32)
  unfold to32
  omega

theorem val_ne_nil_of_isOK {now : UInt64} (hit : isOK now it = true) : it.val ≠ [] := by
  intro hnil
  have htomb := (isTombstone_iff it).mpr (.inr hnil)
  exact absurd (htomb.symm.trans (isTombstone_of_isOK hit)) (by simp)

/-- A copy is a tombstone if the seconds that are left are the mark of one. -/
theorem Copied.isTombstone_iff {ttl create : UInt64} (hq : Copied ttl create it q)
    (hval : it.val ≠ []) :
    q.isTombstone = true ↔ Expiration.getTTL ttl it = expiresTombstone := by
  rw [Database.isTombstone_iff, hq.expires, hq.val]
  exact or_iff_left hval

/-- The copy of a pair that never expires never expires. -/
theorem copies_of_endless {now ttl create : UInt64} (hit : isOK now it = true)
    (hq : Copied ttl create it q) (hexp : it.expires = 0) : Copies create it q := by
  have hval := val_ne_nil_of_isOK hit
  have hqexp : q.expires = 0 := hq.expires.trans (if_pos hexp)
  refine ⟨isOK_of_forever (hq.val ▸ hval) hqexp create, hq.val, ?_, fun d t hd _ => ?_⟩
  · simp [hqexp, hexp]
  · exact absurd ((isOK_of_forever hval hexp d).symm.trans hd) (by simp)

section Expires

variable {now ttl create : UInt64} (hit : isOK now it = true) (hq : Copied ttl create it q)
  (hexp : it.expires ≠ 0)
include hit hq hexp

/-- A copy that is what it should be has time left, less than the mark, and was created in time. -/
theorem lasts_of_copies (h : Copies create it q) : Lasts ttl create it := by
  have hlive := isTombstone_of_isOK hit
  have httl := hq.expires.trans (getTTL_eq hexp)
  have hmark := hq.isTombstone_iff (val_ne_nil_of_isOK hit)
  rw [getTTL_eq hexp] at hmark
  have htomb := isTombstone_of_isOK h.alive
  have hpos := h.expires.mpr hexp
  rw [httl] at hpos
  have hleft := le_of_to32_ne_zero hpos
  refine .inr ⟨hleft, fun ht => ?_, fun hroom => ?_⟩
  · exact absurd ((hmark.mpr ht).symm.trans htomb) (by simp)
  · rw [addTime_of_lt (by omega)] at httl hleft
    have hdies := h.dies
    have hend := isOK_eq_false_iff hlive
    have hend' := isOK_eq_false_iff htomb
    rw [hq.created, httl] at hend'
    generalize it.created + it.expires * 2 ^ 32 = e at *
    -- the first moment at which the source is dead, and a second behind its end
    obtain ⟨d, hd⟩ := @exists_toNat_eq (e + 1) (by omega)
    obtain ⟨t, ht⟩ := exists_toNat_eq hroom
    have hsource : isOK d it = false := (hend d).mpr ⟨hexp, by omega⟩
    obtain ⟨-, hdead⟩ := (hend' t).mp (hdies d t hsource (by omega))
    exact (end_le_iff _ (by omega)).mp (by omega)

/-- A copy of a pair that has so much time left is what it should be. -/
theorem copies_of_lasts (h : Lasts ttl create it) : Copies create it q := by
  obtain ⟨hleft, hne, hsoon⟩ := h.resolve_left hexp
  have hlive := isTombstone_of_isOK hit
  have httl := hq.expires.trans (getTTL_eq hexp)
  have hmark := hq.isTombstone_iff (val_ne_nil_of_isOK hit)
  rw [getTTL_eq hexp] at hmark
  have htomb : q.isTombstone = false := Bool.eq_false_iff.mpr fun ht => hne (hmark.mp ht)
  have hpos := to32_ne_zero hleft
  refine ⟨?_, hq.val, ?_, fun d t hd ht => ?_⟩
  · rw [← Bool.not_eq_false, isOK_eq_false_iff htomb, hq.created]
    omega
  · rw [httl]
    exact iff_of_true hpos hexp
  · obtain ⟨-, hd⟩ := (isOK_eq_false_iff hlive d).mp hd
    have hlt := t.toNat_lt
    rw [isOK_eq_false_iff htomb, httl, hq.created]
    rw [addTime_of_lt (by omega)] at hleft hpos ⊢
    have hend := (end_le_iff create.toNat (show ttl.toNat ≤ _ by omega)).mpr (hsoon (by omega))
    exact ⟨hpos, by omega⟩

end Expires

/-- A copy is what it should be if the source lasts long enough, and then only. -/
theorem copies_iff {now ttl create : UInt64} (hit : isOK now it = true)
    (hq : Copied ttl create it q) : Copies create it q ↔ Lasts ttl create it := by
  by_cases hexp : it.expires = 0
  · exact iff_of_true (copies_of_endless hit hq hexp) (.inl hexp)
  · exact ⟨lasts_of_copies hit hq hexp, copies_of_lasts hit hq hexp⟩

end Life

/-! ## The commands -/

/-- If a command succeeds, then its source lasts long enough. -/
def Enough (env : Env) (op : CPMVOperation) (p : List Key) (s : Store) : Prop :=
  (cpmv env op p s).1 = .bool true → ∀ it,
    getPairPtr (env.clock (nxReadings op (p.getD 2 []) s)) (p.getD 1 []) s.view = some it →
      Lasts (env.clock (ttlReading op (p.getD 2 []) it s))
        (env.clock (createReading op (p.getD 2 []) it s)) it

section Commands

variable {env : Env} {op : CPMVOperation} {s : Store} {key newkey : Key}

theorem timelyAt_clock {k : Key} (h : TimelyAt (env.clock 0) k s) (i : ℕ) :
    TimelyAt (env.clock i) k s :=
  fun p hp hk => (h p hp hk).trans (env.steady (Nat.zero_le i))

/-- What a command leaves. -/
theorem result_spec (het : env.et = .TOMBSTONE ∨ env.et = .SMART_TOMBSTONE)
    (hmemory : ∀ n, (env.turn n).memory = true) (hkey : isKeyValid key)
    (hnewkey : isKeyValid newkey) (hne : key ≠ newkey) (hnew : TimelyAt (env.clock 0) newkey s)
    (hold : op.moves = true → TimelyAt (env.clock 0) key s) (it : Pair) :
    Found (Copied (env.clock (ttlReading op newkey it s))
        (env.clock (createReading op newkey it s)) it)
        (get newkey (result env op key newkey it s).view) ∧
      (op.moves = true → Gone (get key (result env op key newkey it s).view)) ∧
      ∀ k, k ≠ key → k ≠ newkey → get k (result env op key newkey it s).view = get k s.view := by
  have hvalid : (normal newkey it.val (UInt32.ofNat (Expiration.getTTL
      (env.clock (ttlReading op newkey it s)) it)) 0).valid = true :=
    decide_eq_true ⟨hnewkey, it.valValid⟩
  have hcopy : Puts (env.clock (createReading op newkey it s)) newkey _ s
      (insertCopy env op newkey it s) :=
    puts_insertF (hmemory 0) hvalid rfl (copied_left hvalid) (timelyAt_clock hnew _)
  unfold result
  split
  · next hmoves =>
    have hclock := env.steady (Nat.le_succ (createReading op newkey it s))
    have herase := puts_erase het (hmemory 1) hkey
      (hcopy.timelyAt hclock (timelyAt_clock (hold hmoves) _))
    refine ⟨?_, fun _ => herase.self, fun k hk hk' => ?_⟩
    · rw [herase.other newkey hne.symm]
      exact hcopy.self
    · rw [herase.other k hk, hcopy.other k hk']
  · next hmoves => exact ⟨hcopy.self, fun h => absurd h hmoves, fun k _ hk' => hcopy.other k hk'⟩

theorem getPairPtr_of_gone {o : Option Pair} (h : Gone o) (t : UInt64) :
    o.filter (isOK t) = none := by
  cases o with
  | none => rfl
  | some p => rw [Option.filter_some, isOK_of_isTombstone (h p rfl), if_neg Bool.false_ne_true]

end Commands

/-- The commands carry the expiration over just for the sources that last long enough. -/
theorem carries_iff (env : Env) (het : env.et = .TOMBSTONE ∨ env.et = .SMART_TOMBSTONE)
    (hmemory : ∀ n, (env.turn n).memory = true) (op : CPMVOperation) (p : List Key) (s : Store)
    (hnew : TimelyAt (env.clock 0) (p.getD 2 []) s)
    (hold : op.moves = true → TimelyAt (env.clock 0) (p.getD 1 []) s) :
    Carries env op p s ↔ Enough env op p s := by
  unfold Enough
  rcases cpmv_cases env op p s with ⟨r, hr, heq⟩ | ⟨hkey, hnewkey, hne, htaken, it, hit, heq⟩
  · have hfail : (cpmv env op p s).1 ≠ .bool true := fun h => hr ((congrArg Prod.fst heq).symm.trans h)
    have hsame : (cpmv env op p s).2 = s := congrArg Prod.snd heq
    refine iff_of_true ⟨fun h => absurd h hfail, fun h => absurd h hfail, fun k _ _ => ?_,
      fun _ => hsame, fun _ _ => hsame⟩ fun h => absurd h hfail
    rw [hsame]
  · obtain ⟨hcopied, hgone, hother⟩ := result_spec het hmemory hkey hnewkey hne hnew hold it
    have hok := (Option.filter_eq_some_iff.mp hit).2
    obtain ⟨q, hq, hmade⟩ := hcopied
    rw [heq]
    constructor
    · intro h _ it' hit'
      obtain rfl := Option.some.inj (hit.symm.trans hit')
      obtain ⟨it', hit', q', hq', hcopies⟩ := h.copied (congrArg Prod.fst heq)
      obtain rfl := Option.some.inj (hit.symm.trans hit')
      rw [heq] at hq'
      obtain rfl := Option.some.inj (hq.symm.trans hq')
      exact (copies_iff hok hmade).mp hcopies
    · intro h
      have hlasts := h rfl it hit
      refine ⟨fun _ => ⟨it, hit, q, ?_, (copies_iff hok hmade).mpr hlasts⟩, fun _ hmoves t => ?_,
        fun k hk hk' => ?_, fun hfail => ?_, fun hnx hsome => ?_⟩
      · rw [heq]
        exact hq
      · rw [heq]
        exact getPairPtr_of_gone (hgone hmoves) t
      · rw [heq]
        exact hother k hk hk'
      · exact absurd (congrArg Prod.fst heq) hfail
      · unfold taken at htaken
        rw [hnx, hsome] at htaken
        exact absurd htaken (by simp)

/-! ## A pair with a second to live -/

theorem valid_short : (normal [107] [118] 4 1).valid = true :=
  valid_normal 107 118 4 1

/-- A pair that is alive up to the fifth second. -/
def short : Pair := (normal [107] [118] 4 1).create valid_short 0

theorem increasing_short : ∀ l ∈ [[], [], [short]], Increasing Pair.key l :=
  List.forall_mem_cons.mpr ⟨List.Pairwise.nil, List.forall_mem_cons.mpr
    ⟨List.Pairwise.nil, List.forall_mem_singleton.mpr (List.pairwise_singleton _ _)⟩⟩

/-- A table of one pair. -/
def shortStore : Store where
  active := []
  saved := []
  tables := [[short]]
  version := 0
  cleared := 0
  increasing := increasing_short

/-- A clock that stands still. -/
def still (now : UInt64) : Env where
  et := .TOMBSTONE
  owns := fun _ => false
  turn := fun _ => ⟨false, true, true⟩
  clock := fun _ => now
  steady := monotone_const

theorem timelyAt_short (key : Key) : TimelyAt 0x400000000 key shortStore := by
  have hle : ∀ l ∈ [[], [], [short]], ∀ p ∈ l, p.created ≤ (0x400000000 : UInt64).toNat := by
    decide +kernel
  exact fun p ⟨l, hl, hp⟩ _ => hle l hl p hp

/-- `RENAME k l` in the fourth second. -/
theorem carries_iff_short : Carries (still 0x400000000) .MV [[], [107], [108]] shortStore := by
  refine (carries_iff (still 0x400000000) (.inl rfl) (fun _ => rfl) .MV [[], [107], [108]]
    shortStore (timelyAt_short _) fun _ => timelyAt_short _).mpr fun _ it hit => .inr ?_
  have hfound : getPairPtr 0x400000000 [107] shortStore.view = some short := by
    have hview : shortStore.view = [short] := by decide +kernel
    rw [hview]
    exact Option.filter_eq_some_iff.mpr ⟨rfl, by decide +kernel⟩
  obtain rfl : short = it := Option.some.inj (hfound.symm.trans hit)
  decide +kernel

/-- `COPY k l` half a second later: the copy lives for ever. -/
theorem not_carries : ¬Carries (still 0x480000000) .CP [[], [107], [108]] shortStore := by
  intro h
  obtain ⟨it, hit, q, hq, hcopies⟩ := h.copied (by decide +kernel)
  have hsource : (getPairPtr 0x480000000 [107] shortStore.view).map Pair.expires = some 4 := by
    decide +kernel
  have hcopy : (get [108] (cpmv (still 0x480000000) .CP [[], [107], [108]] shortStore).2.view).map
      Pair.expires = some 0 := by decide +kernel
  have hit4 : it.expires = 4 := by
    have hmap := (congrArg (Option.map Pair.expires) hit).symm.trans hsource
    exact Option.some.inj hmap
  have hq0 : q.expires = 0 := by
    have hmap := (congrArg (Option.map Pair.expires) hq).symm.trans hcopy
    exact Option.some.inj hmap
  have hiff := hcopies.expires
  rw [hit4, hq0] at hiff
  exact hiff.mpr (by decide) rfl

end HM4.CopyMove
