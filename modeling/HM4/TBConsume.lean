import HM4.Database
import HM4.General.TokenBucket
import Mathlib.Data.Rat.Floor

/-!
# Token buckets as pairs

A pair holds what is left in a bucket, and the time of its creation tells since when. The pair
expires some time after the first draw, and a bucket without a live pair is full. A draw
rewrites the pair with the rest of its time to live, unless that has run out.
-/

namespace HM4.TBConsume

open LexPrefix Bytes Pairs PairFactory MemList KeyedList Database RedisProtocol TokenBucket

/-! ## The command -/

/-- `calcTokens`, over rational numbers. -/
def calcTokens (maxTokens maxSeconds created now tokens : ℕ) : ℕ :=
  let maxTokensF : ℚ := maxTokens
  let refillRate := maxTokensF / maxSeconds
  let elapsed := if created ≤ now then now - created else 0
  let tokensNewF := min maxTokensF (tokens + elapsed * refillRate)
  ⌊tokensNewF⌋₊

/-- What a call reads of its surroundings: three times from the clock, and whether the pair of
the key may be changed in place. -/
structure Env where
  /-- The pair is owned by the list in memory. -/
  owned : Bool
  /-- The clock when the pair is checked. -/
  check : UInt64
  /-- The clock when the tokens are counted. -/
  now : UInt64
  /-- The clock when the pair is written. -/
  write : UInt64

/-- The string "0". -/
def denied : Key := [48]

/-- The string "1". -/
def passed : Key := [49]

/-- `TBCONSUME` after its parameters are read. -/
def consume (env : Env) (key maxTokensSV maxSecondsSV : Key) (price : ℕ) (db : Db) :
    Reply × Db :=
  let maxTokens := fromString 64 maxTokensSV 1
  let maxSeconds := fromString 32 maxSecondsSV 1
  if ¬isKeyValid key then (.error .EMPTY_KEY, db)
  else if price = 0 ∨ maxTokens < price then (.error .INVALID_PARAMETERS, db)
  else
    match getPairPtr env.check key db with
    | some it =>
      let now := to32 env.now.toNat
      let tokens :=
        calcTokens maxTokens maxSeconds (to32 it.created) now (fromString 64 it.val 0)
      let expireAt := getExpiresAt it
      if tokens < price then (.container [denied, numeral tokens], db)
      else if expireAt ≤ now then (.container [passed, maxTokensSV], db)
      else
        let val := numeral (tokens - price)
        let exp := expireAt - now
        (.container [passed, val],
          insertHint env.owned it (normal key val (UInt32.ofNat exp) 0) env.write db)
    | none =>
      let val := numeral (maxTokens - price)
      (.container [passed, val],
        insertF env.owned (normal key val (UInt32.ofNat maxSeconds) 0) env.write db)

/-- `TBCONSUME`. -/
def tbconsume (env : Env) (p : List Key) (db : Db) : Reply × Db :=
  match p with
  | [_, key, maxTokensSV, maxSecondsSV] => consume env key maxTokensSV maxSecondsSV 1 db
  | [_, key, maxTokensSV, maxSecondsSV, priceSV] =>
    consume env key maxTokensSV maxSecondsSV (fromString 16 priceSV 1) db
  | _ => (.error .NEED_EXACT_PARAMS_3, db)

/-! ## Runs -/

/-- A call on some key with some bounds. -/
structure Call extends Env where
  /-- The name of the command. -/
  cmd : Key
  /-- The last parameter. -/
  price : Option Key

/-- The parameters of a call. -/
def Call.params (c : Call) (key maxTokensSV maxSecondsSV : Key) : List Key :=
  c.cmd :: key :: maxTokensSV :: maxSecondsSV :: c.price.toList

/-- The price of a call. -/
def Call.cost (c : Call) : ℕ := c.price.elim 1 fun s => fromString 16 s 1

/-- The second in which a call is made. -/
def Call.second (c : Call) : ℕ := to32 c.now.toNat

/-- The clock readings of a run. -/
def readings (calls : List Call) : List UInt64 := calls.flatMap fun c => [c.check, c.now, c.write]

/-- What a client takes from a reply. -/
def grantOf (price : ℕ) : Reply → ℕ
  | .container (flag :: _) => if flag = passed then price else 0
  | _ => 0

theorem grantOf_passed (price : ℕ) (rest : List Key) :
    grantOf price (.container (passed :: rest)) = price := by
  rw [grantOf]
  exact if_pos rfl

theorem grantOf_denied (price : ℕ) (rest : List Key) :
    grantOf price (.container (denied :: rest)) = 0 := by
  rw [grantOf]
  exact if_neg (by decide)

section Runs

variable (key maxTokensSV maxSecondsSV : Key)

/-- One call. -/
def step (c : Call) (db : Db) : Reply × Db :=
  tbconsume c.toEnv (c.params key maxTokensSV maxSecondsSV) db

/-- The list after a run. -/
def after (calls : List Call) (db : Db) : Db :=
  calls.foldl (fun db c => (step key maxTokensSV maxSecondsSV c db).2) db

/-- What the calls of a run are granted, and when. -/
def grants : List Call → Db → List (ℚ × ℚ)
  | [], _ => []
  | c :: calls, db =>
    ((c.second : ℚ), (grantOf c.cost (step key maxTokensSV maxSecondsSV c db).1 : ℚ)) ::
      grants calls (step key maxTokensSV maxSecondsSV c db).2

/-- What a run is granted. -/
def total (calls : List Call) (db : Db) : ℚ :=
  ((grants key maxTokensSV maxSecondsSV calls db).map Prod.snd).sum

/-- A call with a valid price finds its bucket in order: if it takes from a live pair, the pair
has not reached the second in which it expires, and if the pair is dead after something
was granted, then the bucket has been refilled. -/
def InOrder (granted : ℚ) (c : Call) (db : Db) : Prop :=
  0 < c.cost → c.cost ≤ fromString 64 maxTokensSV 1 → ∀ p ∈ get key db,
    let tokens := calcTokens (fromString 64 maxTokensSV 1) (fromString 32 maxSecondsSV 1)
      (to32 p.created) c.second (fromString 64 p.val 0)
    (isOK c.check p = true → c.cost ≤ tokens → c.second < getExpiresAt p) ∧
      (isOK c.check p = false → granted ≠ 0 → fromString 64 maxTokensSV 1 ≤ tokens)

end Runs

/-! ## One call -/

section Tokens

variable (maxTokens maxSeconds : ℕ) {created now : ℕ} (tokens : ℕ)

/-- The level before it is rounded down. -/
theorem calcTokens_le (hcreated : created ≤ now) :
    (calcTokens maxTokens maxSeconds created now tokens : ℚ) ≤
      min (maxTokens : ℚ) (tokens + ((now : ℚ) - created) * (maxTokens / maxSeconds)) := by
  have hsub : ((now - created : ℕ) : ℚ) = (now : ℚ) - created := Nat.cast_sub hcreated
  unfold calcTokens
  dsimp only
  rw [if_pos hcreated, hsub]
  refine Nat.floor_le (le_min (Nat.cast_nonneg _) ?_)
  have helapsed : (0 : ℚ) ≤ (now : ℚ) - created := sub_nonneg.mpr (Nat.cast_le.mpr hcreated)
  exact add_nonneg (Nat.cast_nonneg _)
    (mul_nonneg helapsed (div_nonneg (Nat.cast_nonneg _) (Nat.cast_nonneg _)))

theorem calcTokens_le_max (created now : ℕ) :
    calcTokens maxTokens maxSeconds created now tokens ≤ maxTokens := by
  unfold calcTokens
  exact Nat.floor_le_of_le (min_le_left _ _)

/-- A bucket that is full again has been refilled. -/
theorem le_refill (hcreated : created ≤ now)
    (h : maxTokens ≤ calcTokens maxTokens maxSeconds created now tokens) :
    (maxTokens : ℚ) ≤ tokens + ((now : ℚ) - created) * (maxTokens / maxSeconds) :=
  (Nat.cast_le.mpr h).trans ((calcTokens_le _ _ _ hcreated).trans (min_le_right _ _))

end Tokens

/-- The pair of a key tells the level of a bucket. -/
def Keeps (key : Key) (db : Db) (b : Bucket ℚ) : Prop :=
  ∃ p v, get key db = some p ∧ p.val = numeral v ∧ v < 2 ^ 64 ∧
    b = ⟨(v : ℚ), (to32 p.created : ℚ)⟩

section Step

variable {key : Key} {env : Env} {db : Db}

theorem valid_numeral (hk : isKeyValid key) {n : ℕ} (hn : n < 2 ^ 64) (exp : UInt32) :
    (normal key (numeral n) exp 0).valid = true := by
  have hlen : (numeral n).length ≤ 19 + 1 := numeral_length_le (hn.trans (by norm_num))
  have hval : isValValid (numeral n) := hlen.trans (by decide)
  exact decide_eq_true ⟨hk, hval⟩

theorem keeps_put (hk : isKeyValid key) {n : ℕ} (hn : n < 2 ^ 64) (exp : UInt32) (now : UInt64) :
    Keeps key (put Pair.key
      ((normal key (numeral n) exp 0).create (valid_numeral hk hn exp) now) db)
      ⟨(n : ℚ), (to32 now.toNat : ℚ)⟩ :=
  ⟨_, n, lookup_put_self Pair.key
    ((normal key (numeral n) exp 0).create (valid_numeral hk hn exp) now) db, rfl, hn, rfl⟩

/-- A new pair keeps its bucket. -/
theorem keeps_insertF (hk : isKeyValid key) {n : ℕ} (hn : n < 2 ^ 64) (owned : Bool)
    (exp : UInt32) (now : UInt64) :
    Keeps key (insertF owned (normal key (numeral n) exp 0) now db)
      ⟨(n : ℚ), (to32 now.toNat : ℚ)⟩ := by
  have hv := valid_numeral hk hn exp
  rw [insertF_eq owned hv rfl fun old hold => normal_createHint now hv hold]
  exact keeps_put hk hn exp now

/-- So does a pair that is written in place of another. -/
theorem keeps_insertHint (hk : isKeyValid key) {n : ℕ} (hn : n < 2 ^ 64) (owned : Bool) {it : Pair}
    (hit : it.key = key) (exp : UInt32) (now : UInt64) :
    Keeps key (insertHint owned it (normal key (numeral n) exp 0) now db)
      ⟨(n : ℚ), (to32 now.toNat : ℚ)⟩ := by
  have hv := valid_numeral hk hn exp
  rw [insertHint_eq now owned hv rfl (fun old hold => normal_createHint now hv hold) hit]
  exact keeps_put hk hn exp now

variable {maxTokensSV maxSecondsSV : Key} {price : ℕ}

/-- The tokens that a call finds in a pair. -/
def found (maxTokensSV maxSecondsSV : Key) (env : Env) (p : Pair) : ℕ :=
  calcTokens (fromString 64 maxTokensSV 1) (fromString 32 maxSecondsSV 1) (to32 p.created)
    (to32 env.now.toNat) (fromString 64 p.val 0)

/-- What a call does: it grants nothing and leaves the list, or its price is valid and it is
granted from a live pair, which is rewritten before the second in which it expires, or in place
of a dead one. -/
theorem consume_cases (env : Env) (key maxTokensSV maxSecondsSV : Key) (price : ℕ) (db : Db) :
    let r := consume env key maxTokensSV maxSecondsSV price db
    let maxTokens := fromString 64 maxTokensSV 1
    (grantOf price r.1 = 0 ∧ r.2 = db) ∨
      (grantOf price r.1 = price ∧ 0 < price ∧ price ≤ maxTokens ∧
        ((∃ it, get key db = some it ∧ isOK env.check it = true ∧
            price ≤ found maxTokensSV maxSecondsSV env it ∧
            (to32 env.now.toNat < getExpiresAt it → Keeps key r.2
              ⟨((found maxTokensSV maxSecondsSV env it - price : ℕ) : ℚ),
                (to32 env.write.toNat : ℚ)⟩)) ∨
          ((∀ it ∈ get key db, isOK env.check it = false) ∧
            Keeps key r.2 ⟨((maxTokens - price : ℕ) : ℚ), (to32 env.write.toNat : ℚ)⟩))) := by
  have hmax : fromString 64 maxTokensSV 1 < 2 ^ 64 := fromString_lt _ (by norm_num)
  unfold consume
  dsimp only
  by_cases hk : isKeyValid key
  · rw [if_neg (not_not.mpr hk)]
    by_cases hprice : price = 0 ∨ fromString 64 maxTokensSV 1 < price
    · rw [if_pos hprice]
      exact .inl ⟨rfl, rfl⟩
    · rw [if_neg hprice]
      obtain ⟨hpos, hle⟩ := not_or.mp hprice
      have hgrant := grantOf_passed price
      cases hget : getPairPtr env.check key db with
      | some it =>
        dsimp only
        have hit := Option.filter_eq_some_iff.mp hget
        have hfound : calcTokens (fromString 64 maxTokensSV 1) (fromString 32 maxSecondsSV 1)
            (to32 it.created) (to32 env.now.toNat) (fromString 64 it.val 0) =
            found maxTokensSV maxSecondsSV env it := rfl
        rw [hfound]
        by_cases htokens : found maxTokensSV maxSecondsSV env it < price
        · rw [if_pos htokens]
          exact .inl ⟨grantOf_denied _ _, rfl⟩
        · rw [if_neg htokens]
          refine .inr ?_
          by_cases hexpire : getExpiresAt it ≤ to32 env.now.toNat
          · rw [if_pos hexpire]
            exact ⟨hgrant _, Nat.pos_of_ne_zero hpos, not_lt.mp hle,
              .inl ⟨it, hit.1, hit.2, not_lt.mp htokens, fun h => absurd h hexpire.not_gt⟩⟩
          · rw [if_neg hexpire]
            have hlt : found maxTokensSV maxSecondsSV env it - price < 2 ^ 64 :=
              ((Nat.sub_le _ _).trans (calcTokens_le_max _ _ _ _ _)).trans_lt hmax
            exact ⟨hgrant _, Nat.pos_of_ne_zero hpos, not_lt.mp hle,
              .inl ⟨it, hit.1, hit.2, not_lt.mp htokens, fun _ =>
                keeps_insertHint hk hlt env.owned (getPairPtr_key hget) _ _⟩⟩
      | none =>
        dsimp only
        have hlt := (Nat.sub_le (fromString 64 maxTokensSV 1) price).trans_lt hmax
        refine .inr ⟨hgrant _, Nat.pos_of_ne_zero hpos, not_lt.mp hle,
          .inr ⟨fun it hit => ?_, keeps_insertF hk hlt env.owned _ _⟩⟩
        have hdead := Option.filter_eq_none_iff.mp hget it hit
        exact Bool.not_eq_true _ ▸ hdead
  · rw [if_pos hk]
    exact .inl ⟨rfl, rfl⟩

end Step

/-! ## Whole runs -/

section Run

variable {key maxTokensSV maxSecondsSV : Key}

theorem step_eq (c : Call) (db : Db) : step key maxTokensSV maxSecondsSV c db =
    consume c.toEnv key maxTokensSV maxSecondsSV c.cost db := by
  unfold step Call.params Call.cost
  cases c.price <;> rfl

theorem to32_le {s t : UInt64} (h : s ≤ t) : (to32 s.toNat : ℚ) ≤ to32 t.toNat :=
  Nat.cast_le.mpr (Nat.div_le_div_right (UInt64.le_iff_toNat_le.mp h))

theorem total_nil (db : Db) : total key maxTokensSV maxSecondsSV [] db = 0 := rfl

/-- What the clock readings of a call and of the later ones are to each other. -/
theorem readings_cons {c : Call} {calls : List Call}
    (h : (readings (c :: calls)).Pairwise (· ≤ ·)) :
    c.check ≤ c.now ∧ c.now ≤ c.write ∧ (∀ t ∈ readings calls, c.write ≤ t) ∧
      (readings calls).Pairwise (· ≤ ·) := by
  have hcons : readings (c :: calls) = c.check :: c.now :: c.write :: readings calls := rfl
  rw [hcons] at h
  obtain ⟨h1, h⟩ := List.pairwise_cons.mp h
  obtain ⟨h2, h⟩ := List.pairwise_cons.mp h
  obtain ⟨h3, h⟩ := List.pairwise_cons.mp h
  exact ⟨h1 _ List.mem_cons_self, h2 _ List.mem_cons_self, h3, h⟩

/-- Some buckets in order along a run are so along what follows its first call. -/
theorem inOrder_tail {n : ℚ} {c : Call} {calls : List Call} {db : Db}
    (h : ∀ pre c' post, c :: calls = pre ++ c' :: post →
      InOrder key maxTokensSV maxSecondsSV (n + total key maxTokensSV maxSecondsSV pre db) c'
        (after key maxTokensSV maxSecondsSV pre db)) :
    let r := step key maxTokensSV maxSecondsSV c db
    ∀ pre c' post, calls = pre ++ c' :: post →
      InOrder key maxTokensSV maxSecondsSV
        (n + (grantOf c.cost r.1 : ℚ) + total key maxTokensSV maxSecondsSV pre r.2) c'
        (after key maxTokensSV maxSecondsSV pre r.2) := by
  intro r pre c' post heq
  have hpre := h (c :: pre) c' post (congrArg (c :: ·) heq)
  have htotal : total key maxTokensSV maxSecondsSV (c :: pre) db =
      (grantOf c.cost r.1 : ℚ) + total key maxTokensSV maxSecondsSV pre r.2 := List.sum_cons
  rw [htotal, ← add_assoc] at hpre
  exact hpre

/-- The bound that a run is measured by. -/
def rateOf (maxTokensSV maxSecondsSV : Key) : ℚ :=
  (fromString 64 maxTokensSV 1 : ℚ) / (fromString 32 maxSecondsSV 1 : ℚ)

/-- After something was granted, a run whose buckets are in order draws from the bucket that the
pair keeps. -/
theorem drawn_of_keeps (calls : List Call) {db : Db} {b : Bucket ℚ} {n : ℚ} (hn : 0 < n)
    (hkeeps : Keeps key db b) (hclock : (readings calls).Pairwise (· ≤ ·))
    (hb : ∀ t ∈ readings calls, b.time ≤ to32 t.toNat)
    (horder : ∀ pre c post, calls = pre ++ c :: post →
      InOrder key maxTokensSV maxSecondsSV (n + total key maxTokensSV maxSecondsSV pre db) c
        (after key maxTokensSV maxSecondsSV pre db)) :
    Drawn (fromString 64 maxTokensSV 1 : ℚ) (rateOf maxTokensSV maxSecondsSV) b
      (grants key maxTokensSV maxSecondsSV calls db) := by
  induction calls generalizing db b n with
  | nil => exact .nil b
  | cons c calls ih =>
    obtain ⟨_, hwrite, hlater, hclock'⟩ := readings_cons hclock
    have hhead : b.time ≤ c.second := hb c.now (List.mem_cons_of_mem _ List.mem_cons_self)
    have hnow : InOrder key maxTokensSV maxSecondsSV n c db := by
      have h := horder [] c calls rfl
      rw [total_nil, add_zero] at h
      exact h
    have htail := inOrder_tail horder
    have hcases := consume_cases c.toEnv key maxTokensSV maxSecondsSV c.cost db
    rw [← step_eq] at hcases
    dsimp only at htail hcases
    rw [grants]
    rcases hcases with ⟨hgrant, hdb⟩ | ⟨hgrant, hpos, hle, hcase⟩
    · -- nothing is granted and the pair stays
      rw [hgrant, hdb, Nat.cast_zero] at htail ⊢
      rw [add_zero] at htail
      refine .idle _ (ih hn hkeeps hclock' (fun t ht => hb t ?_) htail)
      exact List.mem_cons_of_mem _ (List.mem_cons_of_mem _ (List.mem_cons_of_mem _ ht))
    · rw [hgrant] at htail ⊢
      obtain ⟨p, v, hget, hval, hv, rfl⟩ := hkeeps
      have hlevel : fromString 64 p.val 0 = v := by rw [hval, fromString_numeral hv]
      have hcreated : to32 p.created ≤ c.second := Nat.cast_le.mp hhead
      obtain ⟨halive, hdead⟩ := hnow hpos hle p hget
      rw [hlevel] at halive hdead
      have hn' : 0 < n + (c.cost : ℚ) := add_pos hn (Nat.cast_pos.mpr hpos)
      have hnext : ∀ t ∈ readings calls, (to32 c.write.toNat : ℚ) ≤ to32 t.toNat := fun t ht =>
        to32_le (hlater t ht)
      rcases hcase with ⟨it, hit, hok, htokens, hkeeps'⟩ | ⟨hno, hkeeps'⟩
      · -- the rest of what the pair held stays
        obtain rfl : p = it := Option.some.inj (hget.symm.trans hit)
        have hfound : found maxTokensSV maxSecondsSV c.toEnv p =
            calcTokens (fromString 64 maxTokensSV 1) (fromString 32 maxSecondsSV 1)
              (to32 p.created) c.second v := by
          rw [← hlevel]
          rfl
        rw [hfound] at htokens hkeeps'
        have hkeeps'' := hkeeps' (halive hok htokens)
        have hrest : (((calcTokens (fromString 64 maxTokensSV 1) (fromString 32 maxSecondsSV 1)
            (to32 p.created) c.second v - c.cost : ℕ) : ℚ)) + c.cost =
            calcTokens (fromString 64 maxTokensSV 1) (fromString 32 maxSecondsSV 1)
              (to32 p.created) c.second v := by
          rw [Nat.cast_sub htokens, sub_add_cancel]
        have hbound := calcTokens_le (fromString 64 maxTokensSV 1) (fromString 32 maxSecondsSV 1) v
          hcreated
        refine .draw ⟨hhead, to32_le hwrite, Nat.cast_nonneg _, Nat.cast_nonneg _, ?_, ?_⟩
          (ih hn' hkeeps'' hclock' hnext htail)
        · exact hrest.trans_le (hbound.trans (min_le_left _ _))
        · exact hrest.trans_le (hbound.trans (min_le_right _ _))
      · -- the bucket has been refilled
        have hfull := le_refill _ _ _ hcreated (hdead (hno p hget) hn.ne')
        have hrest : (((fromString 64 maxTokensSV 1 - c.cost : ℕ) : ℚ)) + c.cost =
            fromString 64 maxTokensSV 1 := by
          rw [Nat.cast_sub hle, sub_add_cancel]
        refine .draw ⟨hhead, to32_le hwrite, Nat.cast_nonneg _, Nat.cast_nonneg _, hrest.le, ?_⟩
          (ih hn' hkeeps' hclock' hnext htail)
        exact hrest.trans_le hfull

/-- The grants of a run whose buckets are in order are draws from one bucket. -/
theorem exists_drawn (calls : List Call) (db : Db)
    (hclock : (readings calls).Pairwise (· ≤ ·))
    (horder : ∀ pre c post, calls = pre ++ c :: post →
      InOrder key maxTokensSV maxSecondsSV (total key maxTokensSV maxSecondsSV pre db) c
        (after key maxTokensSV maxSecondsSV pre db)) :
    ∃ b, Drawn (fromString 64 maxTokensSV 1 : ℚ) (rateOf maxTokensSV maxSecondsSV) b
      (grants key maxTokensSV maxSecondsSV calls db) := by
  induction calls generalizing db with
  | nil => exact ⟨⟨0, 0⟩, .nil _⟩
  | cons c calls ih =>
    obtain ⟨_, hwrite, hlater, hclock'⟩ := readings_cons hclock
    have htail := inOrder_tail (n := 0) fun pre c' post heq => by
      rw [zero_add]
      exact horder pre c' post heq
    have hcases := consume_cases c.toEnv key maxTokensSV maxSecondsSV c.cost db
    rw [← step_eq] at hcases
    dsimp only at htail hcases
    rw [grants]
    rcases hcases with ⟨hgrant, hdb⟩ | ⟨hgrant, hpos, hle, hcase⟩
    · rw [hgrant, hdb, Nat.cast_zero] at htail ⊢
      simp only [add_zero, zero_add] at htail
      obtain ⟨b, hb⟩ := ih db hclock' htail
      exact ⟨b, .idle _ hb⟩
    · rw [hgrant] at htail ⊢
      rw [zero_add] at htail
      have hcost : (0 : ℚ) < c.cost := Nat.cast_pos.mpr hpos
      have hnext : ∀ t ∈ readings calls, (to32 c.write.toNat : ℚ) ≤ to32 t.toNat := fun t ht =>
        to32_le (hlater t ht)
      -- the first grant is drawn from a full bucket
      have hfirst : ∀ level : ℕ, level ≤ fromString 64 maxTokensSV 1 → c.cost ≤ level →
          Keeps key (step key maxTokensSV maxSecondsSV c db).2
            ⟨((level - c.cost : ℕ) : ℚ), (to32 c.write.toNat : ℚ)⟩ →
          ∃ b, Drawn (fromString 64 maxTokensSV 1 : ℚ) (rateOf maxTokensSV maxSecondsSV) b
            (((c.second : ℚ), (c.cost : ℚ)) :: grants key maxTokensSV maxSecondsSV calls
              (step key maxTokensSV maxSecondsSV c db).2) := fun level hlevel hlc hkeeps => by
        have hrest : ((level - c.cost : ℕ) : ℚ) + c.cost ≤ fromString 64 maxTokensSV 1 := by
          rw [Nat.cast_sub hlc, sub_add_cancel]
          exact Nat.cast_le.mpr hlevel
        refine ⟨⟨(fromString 64 maxTokensSV 1 : ℚ), (c.second : ℚ)⟩, .draw ⟨le_rfl,
          to32_le hwrite, Nat.cast_nonneg _, Nat.cast_nonneg _, hrest, ?_⟩
          (drawn_of_keeps calls hcost hkeeps hclock' hnext htail)⟩
        rw [sub_self, zero_mul, add_zero]
        exact hrest
      rcases hcase with ⟨it, hit, hok, htokens, hkeeps⟩ | ⟨_, hkeeps⟩
      · have hnow := (horder [] c calls rfl hpos hle it hit).1 hok htokens
        exact hfirst _ (calcTokens_le_max _ _ _ _ _) htokens (hkeeps hnow)
      · exact hfirst _ le_rfl hle hkeeps

/-- In a run whose buckets are in order, at most the maximum and what is refilled meanwhile is
granted in any interval of time. -/
theorem grants_bounded (key maxTokensSV maxSecondsSV : Key) (calls : List Call) (db : Db)
    (hclock : (readings calls).Pairwise (· ≤ ·))
    (horder : ∀ pre c post, calls = pre ++ c :: post →
      InOrder key maxTokensSV maxSecondsSV (total key maxTokensSV maxSecondsSV pre db) c
        (after key maxTokensSV maxSecondsSV pre db)) (t1 t2 : ℚ) (ht : t1 ≤ t2) :
    drawnIn t1 t2 (grants key maxTokensSV maxSecondsSV calls db) ≤
      (fromString 64 maxTokensSV 1 : ℚ) +
        (t2 - t1) * ((fromString 64 maxTokensSV 1 : ℚ) / (fromString 32 maxSecondsSV 1 : ℚ)) := by
  obtain ⟨b, hb⟩ := exists_drawn calls db hclock horder
  have hrate : 0 ≤ rateOf maxTokensSV maxSecondsSV :=
    div_nonneg (Nat.cast_nonneg _) (Nat.cast_nonneg _)
  exact hb.le_capacity (Nat.cast_nonneg _) hrate ht

end Run

/-- A call at one moment. -/
def callAt (second usec : UInt64) (price : Key) : Call where
  owned := true
  check := second <<< 32 ||| usec
  now := second <<< 32 ||| usec
  write := second <<< 32 ||| usec
  cmd := []
  price := some price

/-- A bucket of ten tokens and ten seconds is emptied, and used again when it is half full. -/
theorem grants_bounded_twice :
    drawnIn 1000 1005 (grants [107] [49, 48] [49, 48] [callAt 1000 500 [49, 48],
      callAt 1005 500 [53]] []) ≤ (fromString 64 [49, 48] 1 : ℚ) +
        (1005 - 1000) * ((fromString 64 [49, 48] 1 : ℚ) / (fromString 32 [49, 48] 1 : ℚ)) := by
  refine grants_bounded [107] [49, 48] [49, 48] _ [] (by decide) (fun pre c post heq => ?_) 1000
    1005 (by norm_num)
  rcases pre with _ | ⟨d, _ | ⟨e, pre⟩⟩
  · exact fun _ _ p hp => absurd hp (Option.not_mem_none p)
  · obtain ⟨hd, heq⟩ := List.cons.inj heq
    obtain ⟨hc, _⟩ := List.cons.inj heq
    rw [← hd, ← hc]
    unfold InOrder
    decide +kernel
  · have hlen := congrArg List.length heq
    simp at hlen

/-- The bucket is emptied; nine seconds later nine tokens are taken, and the pair expires one
second after that, when only one token has been refilled. -/
theorem grants_not_bounded : ¬∀ (key maxTokensSV maxSecondsSV : Key) (calls : List Call),
    1 ≤ fromString 64 maxTokensSV 1 → 1 ≤ fromString 32 maxSecondsSV 1 →
    (readings calls).Pairwise (· ≤ ·) → ∀ t1 t2 : ℚ, t1 ≤ t2 →
    drawnIn t1 t2 (grants key maxTokensSV maxSecondsSV calls []) ≤
      (fromString 64 maxTokensSV 1 : ℚ) +
        (t2 - t1) * ((fromString 64 maxTokensSV 1 : ℚ) / (fromString 32 maxSecondsSV 1 : ℚ)) := by
  intro h
  have hbound := h [107] [49, 48] [49, 48]
    [callAt 1000 500 [49, 48], callAt 1009 500 [57], callAt 1010 501 [49, 48]]
    (by decide) (by decide) (by decide) 1009 1010 (by norm_num)
  exact absurd hbound (by decide +kernel)

end HM4.TBConsume
