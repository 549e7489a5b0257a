import HM4.Bytes
import HM4.General.Decimal
import Mathlib.Data.List.TakeWhile

/-!
# The Redis request parser

A request is a count of parameters and the parameters, each with its length in
front. The parser works on what has arrived so far: it tells a request that is
not complete yet from one that is wrong, and leaves the position behind the last
parameter. Every read of the buffer is explicit, so that a read behind its end
would show as no result at all.
-/

namespace HM4.RedisProtocol

open Bytes Decimal

/-- `ProtocolStatus`. -/
inductive Status
  | ok
  | bufferNotRead
  | error
  deriving DecidableEq

/-- `RedisProtocol::STAR`. -/
def star : Byte := 42

/-- `RedisProtocol::DOLLAR`. -/
def dollar : Byte := 36

/-- The octets of `RedisProtocol::ENDLN`. -/
def cr : Byte := 13

@[inherit_doc cr]
def lf : Byte := 10

/-- `RedisProtocol::ENDLN`. -/
def endln : Key := [cr, lf]

/-- `RedisProtocol::MAX_PARAMS`. -/
def maxParams : ℕ := 0xFF

/-- `MAX_PARAM_SIZE`, the largest size of a value. -/
def maxParamSize : ℕ := 0xFFFFFFF

/-- `INT_BUFFER_SIZE`. -/
def intBufferSize : ℕ := 16

/-- The letters of a number, in the order of the code. -/
def minus : Byte := 45

@[inherit_doc minus]
def plus : Byte := 43

/-- A decimal digit as a letter. -/
def isDigit (c : Byte) : Bool := 48 ≤ c.val && c.val ≤ 57

/-- The letters that `readInt_` collects. -/
def isIntChar (c : Byte) : Bool := c == minus || c == plus || isDigit c

/-- `atoi` on the collected letters: a sign, then digits up to the first other letter,
as a 32-bit number. -/
def atoi (buff : Key) : ℤ :=
  let number (ds : Key) : ℤ := value ((ds.takeWhile isDigit).map (fun c => c.val - 48))
  match buff with
  | [] => 0
  | c :: cs =>
    Int.bmod (if c = minus then -number cs else if c = plus then number cs else number (c :: cs))
      (2 ^ 32)

/-- `static_cast<size_t>` of a number. -/
def toSize (n : ℤ) : ℕ := (n % 2 ^ 64).toNat

/-- The loop of `readInt_` with the room that is left in its buffer: the letters it
collects and the position behind them. -/
def readIntLoop (src : Key) : (room : ℕ) → (pos : ℕ) → Option (Key × ℕ)
  | 0, pos => some ([], pos)
  | room + 1, pos =>
    if pos < src.length then
      (src[pos]?).bind fun c =>
        if isIntChar c then
          (readIntLoop src room (pos + 1)).map fun r => (c :: r.1, r.2)
        else some ([], pos)
    else some ([], pos)

/-- `readInt_`, with the conversion of its result to `size_t`. -/
def readInt (src : Key) (pos : ℕ) : Option (ℕ × ℕ) :=
  (readIntLoop src intBufferSize pos).map fun r => (toSize (atoi r.1), r.2)

/-- `readLn_`. -/
def readLn (src : Key) (pos : ℕ) : Option (Status × ℕ) :=
  if pos + 2 > src.length then some (.bufferNotRead, pos)
  else
    (src[pos]?).bind fun a =>
      if a = cr then
        (src[pos + 1]?).bind fun b =>
          if b = lf then some (.ok, pos + 2) else some (.error, pos)
      else some (.error, pos)

/-- What `readParam_` returns, and the position it leaves. -/
structure Param where
  status : Status
  data : Key
  pos : ℕ

/-- `readParam_` behind the length: the line end, the data and another line end. -/
def readData (src : Key) (size pos : ℕ) : Option Param :=
  (readLn src pos).bind fun r =>
    if r.1 ≠ .ok then some ⟨r.1, [], r.2⟩
    else if r.2 + size > src.length then some ⟨.bufferNotRead, [], r.2 + size⟩
    else
      (readLn src (r.2 + size)).bind fun e =>
        if e.1 ≠ .ok then some ⟨e.1, [], e.2⟩
        else (src[r.2]?).map fun _ => ⟨.ok, (src.drop r.2).take size, e.2⟩

/-- `readParam_`. -/
def readParam (src : Key) (pos : ℕ) : Option Param :=
  if pos + 2 > src.length then some ⟨.bufferNotRead, [], pos⟩
  else
    (src[pos]?).bind fun c =>
      if c ≠ dollar then some ⟨.error, [], pos⟩
      else
        (readInt src (pos + 1)).bind fun r =>
          if r.1 > maxParamSize then some ⟨.error, [], r.2⟩
          else readData src r.1 r.2

/-- What the parser returns, the parameters it has stored and its position. -/
structure Parsed where
  status : Status
  params : List Key
  pos : ℕ

/-- The loop over the parameters. -/
def readParams (src : Key) : (count : ℕ) → (pos : ℕ) → List Key → Option Parsed
  | 0, pos, params => some ⟨.ok, params, pos⟩
  | count + 1, pos, params =>
    (readParam src pos).bind fun r =>
      if r.status = .ok then readParams src count r.pos (params ++ [r.data])
      else some ⟨r.status, params, r.pos⟩

/-- `RedisProtocolParser::operator()` with the parameters of the request before. -/
def parse (src : Key) (params : List Key) : Option Parsed :=
  if 2 > src.length then some ⟨.bufferNotRead, params, 0⟩
  else
    (src[0]?).bind fun c =>
      if c ≠ star then some ⟨.error, params, 0⟩
      else
        (readInt src 1).bind fun r =>
          if r.1 = 0 ∨ r.1 > maxParams then some ⟨.error, params, r.2⟩
          else
            (readLn src r.2).bind fun e =>
              if e.1 ≠ .ok then some ⟨e.1, [], e.2⟩
              else readParams src r.1 e.2 []

/-- A number as decimal letters. -/
def numeral (n : ℕ) : Key := (digits n).map (fun d => Fin.ofNat 256 (48 + d))

/-- A parameter of a request. -/
def encodeParam (p : Key) : Key := dollar :: (numeral p.length ++ (endln ++ (p ++ endln)))

/-- A request in the multi-bulk encoding. -/
def encode (ps : List Key) : Key :=
  star :: (numeral ps.length ++ (endln ++ ps.flatMap encodeParam))

/-- The value of the digits in a buffer. -/
def numberOf (ds : Key) : ℕ := value (ds.map (fun c => c.val - 48))

theorem isDigit_numeral (n : ℕ) : ∀ c ∈ numeral n, isDigit c = true := by
  intro c hc
  obtain ⟨d, hd, rfl⟩ := List.mem_map.mp hc
  have hlt := digit_lt_ten n d hd
  have hval : (Fin.ofNat 256 (48 + d)).val = 48 + d := Nat.mod_eq_of_lt (by omega)
  rw [isDigit, hval]
  simp only [Bool.and_eq_true, decide_eq_true_eq]
  omega

theorem map_numeral (n : ℕ) : (numeral n).map (fun c => c.val - 48) = digits n := by
  rw [numeral, List.map_map]
  refine (List.map_congr_left fun d hd => ?_).trans (List.map_id _)
  have hlt := digit_lt_ten n d hd
  have hval : (Fin.ofNat 256 (48 + d)).val = 48 + d := Nat.mod_eq_of_lt (by omega)
  rw [Function.comp_apply, hval]
  exact Nat.add_sub_cancel_left 48 d

theorem numberOf_numeral (n : ℕ) : numberOf (numeral n) = n := by
  rw [numberOf, map_numeral, value_digits]

theorem numeral_ne_nil (n : ℕ) : numeral n ≠ [] := by
  rw [numeral, ne_eq, List.map_eq_nil_iff]
  exact digits_ne_nil n

theorem numeral_length_le {k n : ℕ} (h : n < 10 ^ (k + 1)) : (numeral n).length ≤ k + 1 := by
  rw [numeral, List.length_map]
  exact digits_length_le h

theorem isIntChar_of_isDigit {c : Byte} (h : isDigit c = true) : isIntChar c = true := by
  rw [isIntChar, h, Bool.or_true]

theorem ne_sign_of_isDigit {c : Byte} (h : isDigit c = true) : c ≠ minus ∧ c ≠ plus := by
  rw [isDigit, Bool.and_eq_true, decide_eq_true_eq] at h
  refine ⟨fun hc => ?_, fun hc => ?_⟩
  · rw [hc] at h
    exact absurd h.1 (by decide)
  · rw [hc] at h
    exact absurd h.1 (by decide)

/-- `atoi` reads digits as their number. -/
theorem toSize_atoi {ds : Key} (hds : ∀ c ∈ ds, isDigit c = true) (hlt : numberOf ds < 2 ^ 31) :
    toSize (atoi ds) = numberOf ds := by
  cases ds with
  | nil => rfl
  | cons c cs =>
    have hsign := ne_sign_of_isDigit (hds c List.mem_cons_self)
    have hall : (c :: cs).takeWhile isDigit = c :: cs := List.takeWhile_eq_self_iff.mpr hds
    have hbmod : Int.bmod (numberOf (c :: cs) : ℤ) (2 ^ 32) = numberOf (c :: cs) := by
      rw [Int.bmod_eq_of_le (by omega) (by omega)]
    rw [atoi]
    simp only [if_neg hsign.1, if_neg hsign.2, hall]
    rw [numberOf] at hbmod hlt ⊢
    rw [hbmod, toSize]
    omega

/-- Where a number ends: at the end of the buffer or before another letter. -/
def NumberEnds (rest : Key) : Prop := ∀ c ∈ rest.head?, isIntChar c = false

/-- The loop collects all digits up to where the number ends. -/
theorem readIntLoop_digits (lead rest : Key) {ds : Key} {room : ℕ}
    (hds : ∀ c ∈ ds, isDigit c = true) (hroom : ds.length ≤ room) (hrest : NumberEnds rest) :
    readIntLoop (lead ++ (ds ++ rest)) room lead.length = some (ds, lead.length + ds.length) := by
  induction ds generalizing lead room with
  | nil =>
    cases room with
    | zero => rfl
    | succ room =>
      rw [readIntLoop, List.nil_append]
      cases rest with
      | nil => rw [List.append_nil, if_neg (Nat.lt_irrefl _), List.length_nil, Nat.add_zero]
      | cons c rest =>
        have hstop : isIntChar c = false := hrest c rfl
        rw [if_pos (by simp), List.getElem?_append_right le_rfl, Nat.sub_self,
          List.getElem?_cons_zero, Option.bind_some, hstop]
        rfl
  | cons c ds ih =>
    obtain ⟨room, rfl⟩ : ∃ k, room = k + 1 :=
      ⟨room - 1, by rw [List.length_cons] at hroom; omega⟩
    have htail := ih (lead ++ [c]) (fun d hd => hds d (List.mem_cons_of_mem _ hd))
      (Nat.le_of_succ_le_succ hroom)
    rw [List.append_assoc, List.singleton_append, List.length_append, List.length_singleton] at htail
    rw [List.cons_append, readIntLoop, if_pos (by simp), List.getElem?_append_right le_rfl,
      Nat.sub_self, List.getElem?_cons_zero, Option.bind_some,
      if_pos (isIntChar_of_isDigit (hds c List.mem_cons_self)), htail, Option.map_some,
      List.length_cons, Nat.add_assoc, Nat.add_comm 1]

/-- The first letters of a numeral are read as a number that is not greater. -/
theorem readInt_numeral (lead rest : Key) {ds es : Key} {n : ℕ} (hn : n < 2 ^ 31)
    (hds : ds ++ es = numeral n) (hrest : NumberEnds rest) :
    readInt (lead ++ (ds ++ rest)) lead.length = some (numberOf ds, lead.length + ds.length) ∧
      numberOf ds ≤ n := by
  have hdigit : ∀ c ∈ ds, isDigit c = true := fun c hc =>
    isDigit_numeral n c (by rw [← hds]; exact List.mem_append_left _ hc)
  have hlen : ds.length ≤ intBufferSize := by
    have hall := numeral_length_le (n := n) (k := 15) (by omega)
    rw [← hds, List.length_append] at hall
    exact le_trans (Nat.le_add_right _ _) hall
  have hle : numberOf ds ≤ n := by
    have h := value_le_append (ds.map (fun c => c.val - 48)) (es.map (fun c => c.val - 48))
    rw [← List.map_append, hds, map_numeral, value_digits] at h
    exact h
  rw [readInt, readIntLoop_digits lead rest hdigit hlen hrest, Option.map_some,
    toSize_atoi hdigit (lt_of_le_of_lt hle hn)]
  exact ⟨rfl, hle⟩

theorem readLn_endln (lead rest : Key) :
    readLn (lead ++ (endln ++ rest)) lead.length = some (.ok, lead.length + 2) := by
  have hlen : ¬ lead.length + 2 > (lead ++ (endln ++ rest)).length := by
    simp only [endln, List.length_append, List.length_cons, List.length_nil]
    omega
  have hone : lead.length + 1 - lead.length = 1 := by omega
  rw [readLn, if_neg hlen, List.getElem?_append_right le_rfl, Nat.sub_self,
    List.getElem?_append_right (Nat.le_succ _), hone]
  rfl

/-- With less than a line end left the buffer is not ready. -/
theorem readLn_short {src : Key} {pos : ℕ} (h : src.length < pos + 2) :
    readLn src pos = some (.bufferNotRead, pos) := if_pos h

theorem numberEnds_nil : NumberEnds [] := fun _ h => by cases h

theorem numberEnds_endln (rest : Key) : NumberEnds (endln ++ rest) := fun c h => by
  obtain rfl : cr = c := Option.some.inj h
  decide

theorem numberEnds_of_append {next rest more : Key} (h : next ++ rest = endln ++ more) :
    NumberEnds next := by
  intro c hc
  cases next with
  | nil => cases hc
  | cons d next =>
    obtain rfl : d = c := Option.some.inj hc
    exact numberEnds_endln more d (by rw [← h]; rfl)

/-- What has arrived of a piece and more goes through the piece or is cut inside it. -/
theorem through_or_cut {got rest piece more : Key} (h : got ++ rest = piece ++ more) :
    (∃ next, got = piece ++ next ∧ next ++ rest = more) ∨
      ∃ tail, got ++ tail = piece ∧ tail ≠ [] := by
  rcases List.append_eq_append_iff.mp h with ⟨tail, hpiece, hmore⟩ | ⟨next, hgot, hmore⟩
  · cases tail with
    | nil =>
      rw [List.append_nil] at hpiece
      exact .inl ⟨[], by rw [hpiece, List.append_nil], hmore⟩
    | cons c tail => exact .inr ⟨c :: tail, hpiece.symm, List.cons_ne_nil c tail⟩
  · exact .inl ⟨next, hgot, hmore.symm⟩

theorem length_lt_of_cut {got tail piece : Key} (h : got ++ tail = piece) (hne : tail ≠ []) :
    got.length < piece.length := by
  have hpos := List.length_pos_of_ne_nil hne
  rw [← h, List.length_append]
  omega

theorem length_encodeParam (p : Key) :
    (encodeParam p).length = 1 + (numeral p.length).length + 2 + p.length + 2 := by
  simp only [encodeParam, endln, List.length_append, List.length_cons, List.length_nil]
  omega

theorem readData_full (lead p rest : Key) :
    readData (lead ++ (endln ++ (p ++ (endln ++ rest)))) p.length lead.length =
      some ⟨.ok, p, lead.length + 2 + p.length + 2⟩ := by
  have hend : (lead ++ endln).length = lead.length + 2 := List.length_append
  have hall : (lead ++ endln ++ p).length = lead.length + 2 + p.length := by
    rw [List.length_append, hend]
  have hsecond := readLn_endln (lead ++ endln ++ p) rest
  rw [hall, List.append_assoc, List.append_assoc] at hsecond
  have hfits : ¬ lead.length + 2 + p.length > (lead ++ (endln ++ (p ++ (endln ++ rest)))).length := by
    simp only [endln, List.length_append, List.length_cons, List.length_nil]
    omega
  have hread : ∃ c, (lead ++ (endln ++ (p ++ (endln ++ rest))))[lead.length + 2]? = some c := by
    refine ⟨_, List.getElem?_eq_getElem ?_⟩
    simp only [endln, List.length_append, List.length_cons, List.length_nil]
    omega
  obtain ⟨c, hc⟩ := hread
  have hdata : ((lead ++ (endln ++ (p ++ (endln ++ rest)))).drop (lead.length + 2)).take p.length =
      p := by
    rw [← List.append_assoc, ← hend, List.drop_left, List.take_left]
  rw [readData, readLn_endln, Option.bind_some]
  simp only [ne_eq, not_true_eq_false, if_false, if_neg hfits, hsecond, Option.bind_some, hc,
    Option.map_some, hdata]

/-- A whole parameter is read as its data. -/
theorem readParam_full (lead rest : Key) {p : Key} (hp : p.length ≤ maxParamSize) :
    readParam (lead ++ (encodeParam p ++ rest)) lead.length =
      some ⟨.ok, p, lead.length + (encodeParam p).length⟩ := by
  have hlen : ¬ lead.length + 2 > (lead ++ (encodeParam p ++ rest)).length := by
    rw [List.length_append, List.length_append, length_encodeParam]
    omega
  have hsrc : lead ++ (encodeParam p ++ rest) =
      lead ++ [dollar] ++ (numeral p.length ++ (endln ++ (p ++ (endln ++ rest)))) := by
    simp only [encodeParam, List.append_assoc, List.cons_append, List.nil_append]
  have hsize : p.length < 2 ^ 31 := lt_of_le_of_lt hp (by decide)
  have hint := (readInt_numeral (lead ++ [dollar]) (endln ++ (p ++ (endln ++ rest)))
    hsize (List.append_nil _) (numberEnds_endln _)).1
  have hlead : (lead ++ [dollar]).length = lead.length + 1 := List.length_append
  have hdata := readData_full (lead ++ [dollar] ++ numeral p.length) p rest
  rw [hlead, numberOf_numeral] at hint
  rw [List.length_append, hlead, List.append_assoc] at hdata
  rw [readParam, if_neg hlen, List.getElem?_append_right le_rfl, Nat.sub_self, hsrc, hint]
  simp only [encodeParam, List.cons_append, List.getElem?_cons_zero, Option.bind_some, ne_eq,
    not_true_eq_false, if_false, if_neg (Nat.not_lt.mpr hp), hdata, gt_iff_lt]
  have htotal := length_encodeParam p
  rw [encodeParam] at htotal
  rw [htotal]
  simp only [Option.some.injEq, Param.mk.injEq, true_and]
  omega

/-- The part of the data that has arrived is not enough. -/
theorem readData_cut (lead p : Key) {got rest : Key} (hgot : got ++ rest = endln ++ (p ++ endln))
    (hrest : rest ≠ []) :
    ∃ r, readData (lead ++ got) p.length lead.length = some r ∧ r.status = .bufferNotRead := by
  rcases through_or_cut hgot with ⟨next, rfl, hnext⟩ | ⟨tail, hcut, htail⟩
  · have hlen := length_lt_of_cut hnext hrest
    rw [readData, readLn_endln, Option.bind_some]
    simp only [ne_eq, not_true_eq_false, if_false]
    have hsrc : (lead ++ (endln ++ next)).length = lead.length + 2 + next.length := by
      rw [List.length_append, List.length_append, Nat.add_assoc]
      rfl
    have htwo : (p ++ endln).length = p.length + 2 := List.length_append
    by_cases hfits : lead.length + 2 + p.length > (lead ++ (endln ++ next)).length
    · rw [if_pos hfits]
      exact ⟨_, rfl, rfl⟩
    · rw [if_neg hfits, readLn_short (by omega)]
      exact ⟨_, rfl, rfl⟩
  · have hlen : got.length < 2 := length_lt_of_cut hcut htail
    rw [readData, readLn_short (by rw [List.length_append]; omega)]
    exact ⟨_, rfl, rfl⟩

/-- A parameter that has not arrived as a whole is not ready. -/
theorem readParam_cut (lead : Key) {p got rest : Key} (hp : p.length ≤ maxParamSize)
    (hgot : got ++ rest = encodeParam p) (hrest : rest ≠ []) :
    ∃ r, readParam (lead ++ got) lead.length = some r ∧ r.status = .bufferNotRead := by
  have hsize : p.length < 2 ^ 31 := lt_of_le_of_lt hp (by decide)
  by_cases hshort : lead.length + 2 > (lead ++ got).length
  · rw [readParam, if_pos hshort]
    exact ⟨_, rfl, rfl⟩
  · cases got with
    | nil => exact absurd (by simp) hshort
    | cons c got =>
      rw [encodeParam, List.cons_append, List.cons.injEq] at hgot
      obtain ⟨rfl, hgot⟩ := hgot
      have hlead : (lead ++ [dollar]).length = lead.length + 1 := List.length_append
      have hsrc : lead ++ dollar :: got = lead ++ [dollar] ++ got := by
        rw [List.append_assoc, List.singleton_append]
      rw [readParam, if_neg hshort, List.getElem?_append_right le_rfl, Nat.sub_self,
        List.getElem?_cons_zero, Option.bind_some, hsrc, ← hlead]
      simp only [ne_eq, not_true_eq_false, if_false]
      rcases through_or_cut hgot with ⟨next, rfl, hnext⟩ | ⟨tail, hds, -⟩
      · -- the length is there
        have hends : NumberEnds next := numberEnds_of_append hnext
        obtain ⟨hint, -⟩ := readInt_numeral (lead ++ [dollar]) next hsize
          (List.append_nil (numeral p.length)) hends
        rw [numberOf_numeral] at hint
        have hdata := readData_cut (lead ++ [dollar] ++ numeral p.length) p hnext hrest
        rw [List.length_append, List.append_assoc] at hdata
        rw [hint, Option.bind_some, if_neg (Nat.not_lt.mpr hp)]
        exact hdata
      · -- the buffer ends inside the length
        obtain ⟨hint, hle⟩ := readInt_numeral (lead ++ [dollar]) [] hsize hds numberEnds_nil
        rw [List.append_nil] at hint
        rw [hint, Option.bind_some, if_neg (Nat.not_lt.mpr (le_trans hle hp)), readData,
          readLn_short (by rw [List.length_append]; omega)]
        exact ⟨_, rfl, rfl⟩

/-- All parameters are read one after the other. -/
theorem readParams_full (lead rest : Key) {ps : List Key} (done : List Key)
    (hps : ∀ p ∈ ps, p.length ≤ maxParamSize) :
    readParams (lead ++ (ps.flatMap encodeParam ++ rest)) ps.length lead.length done =
      some ⟨.ok, done ++ ps, lead.length + (ps.flatMap encodeParam).length⟩ := by
  induction ps generalizing lead done with
  | nil => rw [List.append_nil]; rfl
  | cons p ps ih =>
    have hparam := readParam_full lead (ps.flatMap encodeParam ++ rest)
      (hps p List.mem_cons_self)
    have htail := ih (lead ++ encodeParam p) (done ++ [p])
      (fun q hq => hps q (List.mem_cons_of_mem _ hq))
    rw [List.append_assoc, List.length_append] at htail
    rw [List.flatMap_cons, List.append_assoc, List.length_cons, readParams, hparam,
      Option.bind_some, if_pos rfl, htail, List.length_append, Nat.add_assoc, List.append_assoc,
      List.singleton_append]

/-- Parameters that have not all arrived are not ready. -/
theorem readParams_cut (lead : Key) {ps : List Key} {got rest : Key} (done : List Key)
    (hps : ∀ p ∈ ps, p.length ≤ maxParamSize) (hgot : got ++ rest = ps.flatMap encodeParam)
    (hrest : rest ≠ []) :
    ∃ r, readParams (lead ++ got) ps.length lead.length done = some r ∧
      r.status = .bufferNotRead := by
  induction ps generalizing lead got done with
  | nil => exact absurd (List.append_eq_nil_iff.mp hgot).2 hrest
  | cons p ps ih =>
    have hp := hps p List.mem_cons_self
    rw [List.flatMap_cons] at hgot
    rw [List.length_cons, readParams]
    rcases through_or_cut hgot with ⟨next, rfl, hnext⟩ | ⟨tail, hcut, htail⟩
    · have hparam := readParam_full lead next hp
      have hmore := ih (lead ++ encodeParam p) (done ++ [p])
        (fun q hq => hps q (List.mem_cons_of_mem _ hq)) hnext
      rw [List.append_assoc, List.length_append] at hmore
      rw [hparam, Option.bind_some, if_pos rfl]
      exact hmore
    · obtain ⟨r, hr, hstatus⟩ := readParam_cut lead hp hcut htail
      rw [hr, Option.bind_some, if_neg (by rw [hstatus]; decide), hstatus]
      exact ⟨_, rfl, rfl⟩

theorem readIntLoop_inside (src : Key) (room pos : ℕ) : ∃ r, readIntLoop src room pos = some r := by
  induction room generalizing pos with
  | zero => exact ⟨_, rfl⟩
  | succ room ih =>
    rw [readIntLoop]
    by_cases hpos : pos < src.length
    · obtain ⟨r, hr⟩ := ih (pos + 1)
      rw [if_pos hpos, List.getElem?_eq_getElem hpos, Option.bind_some, hr]
      split
      · exact ⟨_, rfl⟩
      · exact ⟨_, rfl⟩
    · rw [if_neg hpos]
      exact ⟨_, rfl⟩

theorem readInt_inside (src : Key) (pos : ℕ) : ∃ r, readInt src pos = some r := by
  obtain ⟨r, hr⟩ := readIntLoop_inside src intBufferSize pos
  exact ⟨_, by rw [readInt, hr, Option.map_some]⟩

/-- A line end is read inside the buffer, and was there if it was found. -/
theorem readLn_inside (src : Key) (pos : ℕ) :
    ∃ r, readLn src pos = some r ∧ (r.1 = .ok → r.2 ≤ src.length ∧ pos < src.length) := by
  rw [readLn]
  by_cases hshort : pos + 2 > src.length
  · exact ⟨_, if_pos hshort, fun h => Status.noConfusion h⟩
  · rw [if_neg hshort, List.getElem?_eq_getElem (by omega), Option.bind_some]
    split
    · rw [List.getElem?_eq_getElem (by omega), Option.bind_some]
      split
      · exact ⟨_, rfl, fun _ => ⟨by dsimp only; omega, by omega⟩⟩
      · exact ⟨_, rfl, fun h => Status.noConfusion h⟩
    · exact ⟨_, rfl, fun h => Status.noConfusion h⟩

theorem readData_inside (src : Key) (size pos : ℕ) : ∃ r, readData src size pos = some r := by
  obtain ⟨r, hr, -⟩ := readLn_inside src pos
  obtain ⟨e, he, hend⟩ := readLn_inside src (r.2 + size)
  rw [readData, hr, Option.bind_some]
  split
  · exact ⟨_, rfl⟩
  · split
    · exact ⟨_, rfl⟩
    · rw [he, Option.bind_some]
      split
      · exact ⟨_, rfl⟩
      · next hok =>
        have hlt := (hend (not_ne_iff.mp hok)).2
        rw [List.getElem?_eq_getElem (by omega)]
        exact ⟨_, rfl⟩

theorem readParam_inside (src : Key) (pos : ℕ) : ∃ r, readParam src pos = some r := by
  rw [readParam]
  by_cases hshort : pos + 2 > src.length
  · exact ⟨_, if_pos hshort⟩
  · obtain ⟨n, hn⟩ := readInt_inside src (pos + 1)
    rw [if_neg hshort, List.getElem?_eq_getElem (by omega), Option.bind_some, hn]
    split
    · exact ⟨_, rfl⟩
    · rw [Option.bind_some]
      split
      · exact ⟨_, rfl⟩
      · exact readData_inside src n.1 n.2

theorem readParams_inside (src : Key) (count pos : ℕ) (done : List Key) :
    ∃ r, readParams src count pos done = some r := by
  induction count generalizing pos done with
  | zero => exact ⟨_, rfl⟩
  | succ count ih =>
    obtain ⟨r, hr⟩ := readParam_inside src pos
    rw [readParams, hr, Option.bind_some]
    split
    · exact ih r.pos (done ++ [r.data])
    · exact ⟨_, rfl⟩

/-- No input makes the parser read behind the buffer. -/
theorem parse_inside (src : Key) (params : List Key) : ∃ r, parse src params = some r := by
  rw [parse]
  by_cases hshort : 2 > src.length
  · exact ⟨_, if_pos hshort⟩
  · obtain ⟨n, hn⟩ := readInt_inside src 1
    obtain ⟨e, he, -⟩ := readLn_inside src n.2
    rw [if_neg hshort, List.getElem?_eq_getElem (by omega), Option.bind_some, hn]
    split
    · exact ⟨_, rfl⟩
    · rw [Option.bind_some]
      split
      · exact ⟨_, rfl⟩
      · rw [he, Option.bind_some]
        split
        · exact ⟨_, rfl⟩
        · exact readParams_inside src n.1 e.2 []

/-- A whole request is parsed, whatever follows it. -/
theorem parse_full (rest : Key) {ps : List Key} (old : List Key) (hne : ps ≠ [])
    (hcount : ps.length ≤ maxParams) (hps : ∀ p ∈ ps, p.length ≤ maxParamSize) :
    parse (encode ps ++ rest) old = some ⟨.ok, ps, (encode ps).length⟩ := by
  have hint := (readInt_numeral [star] (endln ++ (ps.flatMap encodeParam ++ rest))
    (lt_of_le_of_lt hcount (by decide)) (List.append_nil _) (numberEnds_endln _)).1
  have hline := readLn_endln ([star] ++ numeral ps.length) (ps.flatMap encodeParam ++ rest)
  have hparams := readParams_full ([star] ++ numeral ps.length ++ endln) rest [] hps
  have hsrc : encode ps ++ rest =
      [star] ++ (numeral ps.length ++ (endln ++ (ps.flatMap encodeParam ++ rest))) := by
    simp only [encode, List.append_assoc, List.cons_append, List.nil_append]
  have hlen : (encode ps).length =
      1 + (numeral ps.length).length + 2 + (ps.flatMap encodeParam).length := by
    simp only [encode, endln, List.length_append, List.length_cons, List.length_nil]
    omega
  have hnot : ¬ (ps.length = 0 ∨ ps.length > maxParams) := by
    have := List.length_pos_of_ne_nil hne
    omega
  have hlong : ¬ 2 > (encode ps ++ rest).length := by
    rw [List.length_append, hlen]
    omega
  have hlead : ([star] ++ numeral ps.length).length = 1 + (numeral ps.length).length :=
    List.length_append
  have hline2 : ([star] ++ numeral ps.length ++ endln).length =
      1 + (numeral ps.length).length + 2 := by
    rw [List.length_append, hlead]
    rfl
  rw [numberOf_numeral] at hint
  rw [hlead, List.append_assoc] at hline
  rw [hline2, List.append_assoc, List.append_assoc] at hparams
  rw [parse, if_neg hlong, hlen, hsrc]
  rw [List.singleton_append] at hint hline hparams ⊢
  rw [List.length_singleton] at hint
  simp only [hint, Option.bind_some, if_neg hnot, hline, hparams, ne_eq, not_true_eq_false,
    if_false, List.getElem?_cons_zero, List.nil_append]

/-- A request that has not arrived as a whole is not ready. -/
theorem parse_cut {ps : List Key} {got rest : Key} (old : List Key) (hne : ps ≠ [])
    (hcount : ps.length ≤ maxParams) (hps : ∀ p ∈ ps, p.length ≤ maxParamSize)
    (hgot : got ++ rest = encode ps) (hrest : rest ≠ []) :
    ∃ r, parse got old = some r ∧ r.status = .bufferNotRead := by
  have hsmall : ps.length < 2 ^ 31 := lt_of_le_of_lt hcount (by decide)
  have hpos : 0 < ps.length := List.length_pos_of_ne_nil hne
  by_cases hshort : 2 > got.length
  · exact ⟨_, if_pos hshort, rfl⟩
  · cases got with
    | nil => exact absurd (Nat.zero_lt_two) hshort
    | cons c got =>
      rw [encode, List.cons_append, List.cons.injEq] at hgot
      obtain ⟨rfl, hgot⟩ := hgot
      have hsrc : star :: got = [star] ++ got := rfl
      rw [parse, if_neg hshort, List.getElem?_cons_zero, Option.bind_some, hsrc]
      simp only [ne_eq, not_true_eq_false, if_false]
      rcases through_or_cut hgot with ⟨next, rfl, hnext⟩ | ⟨tail, hds, -⟩
      · -- the count is there
        obtain ⟨hint, -⟩ := readInt_numeral [star] next hsmall
          (List.append_nil (numeral ps.length)) (numberEnds_of_append hnext)
        have hlead : ([star] ++ numeral ps.length).length = 1 + (numeral ps.length).length :=
          List.length_append
        rw [numberOf_numeral, List.length_singleton] at hint
        rw [hint, Option.bind_some, if_neg (by omega)]
        rcases through_or_cut hnext with ⟨body, rfl, hbody⟩ | ⟨tail, hcut, htail⟩
        · have hline := readLn_endln ([star] ++ numeral ps.length) body
          have hparams := readParams_cut ([star] ++ numeral ps.length ++ endln) [] hps hbody hrest
          have hline2 : ([star] ++ numeral ps.length ++ endln).length =
              1 + (numeral ps.length).length + 2 := by
            rw [List.length_append, hlead]
            rfl
          rw [hlead, List.append_assoc] at hline
          rw [hline2, List.append_assoc, List.append_assoc] at hparams
          rw [hline]
          exact hparams
        · have hlen : next.length < 2 := length_lt_of_cut hcut htail
          rw [readLn_short (by simp only [List.length_append, List.length_singleton]; omega)]
          exact ⟨_, rfl, rfl⟩
      · -- the buffer ends inside the count: what has arrived is a smaller positive count
        have hgotne : got ≠ [] := by
          rintro rfl
          exact hshort (by decide)
        obtain ⟨hint, hle⟩ := readInt_numeral [star] [] hsmall hds numberEnds_nil
        have hfirst : 0 < numberOf got := by
          have hdigits : got.map (fun c => c.val - 48) ++ tail.map (fun c => c.val - 48) =
              digits ps.length := by
            rw [← List.map_append, hds, map_numeral]
          exact value_pos hpos (by simpa using hgotne) hdigits
        rw [List.append_nil, List.length_singleton] at hint
        rw [hint, Option.bind_some, if_neg (by omega),
          readLn_short (by rw [List.length_append, List.length_singleton]; omega)]
        exact ⟨_, rfl, rfl⟩

/-- The parser inverts the encoding, however the octets arrive, and stays inside the
buffer. -/
theorem parse_encode (ps : List Key) (old : List Key) (hne : ps ≠ [])
    (hcount : ps.length ≤ maxParams) (hps : ∀ p ∈ ps, p.length ≤ maxParamSize) :
    (∀ rest, parse (encode ps ++ rest) old = some ⟨.ok, ps, (encode ps).length⟩) ∧
    (∀ got, got <+: encode ps → got ≠ encode ps →
      ∃ r, parse got old = some r ∧ r.status = .bufferNotRead) ∧
    ∀ src, ∃ r, parse src old = some r := by
  refine ⟨fun rest => parse_full rest old hne hcount hps, fun got hgot hcut => ?_,
    fun src => parse_inside src old⟩
  obtain ⟨rest, hrest⟩ := hgot
  refine parse_cut old hne hcount hps hrest ?_
  rintro rfl
  exact hcut (by rw [← hrest, List.append_nil])

/-- A request of two parameters, one of them empty and one with a line end. -/
theorem parse_encode_two :
    (∀ rest, parse (encode [[], [13, 10]] ++ rest) [] =
      some ⟨.ok, [[], [13, 10]], (encode [[], [13, 10]]).length⟩) ∧
    (∀ got, got <+: encode [[], [13, 10]] → got ≠ encode [[], [13, 10]] →
      ∃ r, parse got [] = some r ∧ r.status = .bufferNotRead) ∧
    ∀ src, ∃ r, parse src [] = some r :=
  parse_encode [[], [13, 10]] [] (by decide) (by decide) (by decide)

end HM4.RedisProtocol
