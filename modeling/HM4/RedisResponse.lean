import HM4.RedisProtocol
import Mathlib.Data.List.Flatten

/-!
# The Redis responses

A response first says how many octets it may need, then it is written without a
check. Numbers are reserved with a fixed width. What is written is the encoding
of one value of the protocol. Errors and simple strings are passed through as
they are, so that they are a value only as long as they contain no line end, and
a number that is passed as text has to be one.
-/

namespace HM4.RedisResponse

open Bytes Decimal RedisProtocol

/-- A `std::string_view`: octets whose number fits its size. -/
abbrev StringView := { s : Key // s.length < 2 ^ 64 }

/-- A `MySpan` of them. -/
abbrev Span := { l : List StringView // l.length < 2 ^ 64 }

/-- `RedisProtocol::COLON`. -/
def colon : Byte := 58

/-- `RedisProtocol::PLUS`. -/
def plusSign : Byte := 43

/-- The first letter of an error. -/
def dash : Byte := 45

/-- `to_string_buffer_t_size`. -/
def toStringBufferSize : ℕ := 48

/-- `to_string`: the letters, or a zero if they do not fit the buffer. -/
def toString (letters : Key) : Key :=
  if letters.length ≤ toStringBufferSize then letters else [48]

/-- A number with its sign. -/
def intNumeral (n : ℤ) : Key := if n < 0 then minus :: numeral n.natAbs else numeral n.natAbs

/-- The largest number that `NumberU64` writes as a number. -/
def maxNumber : UInt64 := 0x0FFFFFFFFFFFFFFF

/-- `MAX64`. -/
def max64 : Key := numeral 18446744073709551615

/-- The classes of `RedisProtocol::Response` with what they hold. -/
inductive Response
  | ok
  | bool (bb : Bool)
  | error (msg : StringView)
  | string (msg : StringView)
  | simpleString (msg : StringView)
  | number64 (n : Int64)
  | numberU64 (n : UInt64)
  | numberSV (n : StringView)
  | strings (list : Span)

/-- `calc_size_int`. -/
def calcSizeInt : ℕ := toStringBufferSize

/-- `calc_size_str`. -/
def calcSizeStr (s : Key) : ℕ := 1 + calcSizeInt + endln.length + s.length + endln.length

/-- `Response::OK::OK_`. -/
def okText : Key := [plusSign, 79, 75]

/-- `Response::Bool::TRUE` and `FALSE`. -/
def boolText (bb : Bool) : Key := [colon, if bb then 49 else 48]

/-- `Response::Error::ERR`. -/
def errText : Key := [dash, 69, 82, 82, 32]

/-- The `size` of each response. -/
def Response.size : Response → ℕ
  | ok => okText.length + endln.length
  | bool _ => (boolText true).length + endln.length
  | error msg => errText.length + msg.val.length + endln.length
  | string msg => calcSizeStr msg.val
  | simpleString msg => 1 + msg.val.length + endln.length
  | number64 _ => 1 + calcSizeInt + endln.length
  | numberU64 n => if n > maxNumber then calcSizeStr max64 else 1 + calcSizeInt + endln.length
  | numberSV n => 1 + n.val.length + endln.length
  | strings list =>
    1 + calcSizeInt + endln.length + list.val.foldl (fun sum s => sum + calcSizeStr s.val) 0

/-- `responceNumberSV__`. -/
def responceNumberSV (n : Key) : Key := colon :: (n ++ endln)

/-- `responceStringNR__`. -/
def responceStringNR (msg : Key) : Key :=
  dollar :: (toString (numeral msg.length) ++ (endln ++ (msg ++ endln)))

/-- What `operator()` of each response writes. -/
def Response.write : Response → Key
  | ok => okText ++ endln
  | bool bb => boolText bb ++ endln
  | error msg => errText ++ (msg ++ endln)
  | string msg => responceStringNR msg
  | simpleString msg => plusSign :: (msg ++ endln)
  | number64 n => responceNumberSV (toString (intNumeral n.toInt))
  | numberU64 n =>
    if n > maxNumber then responceStringNR (toString (numeral n.toNat))
    else responceNumberSV (toString (numeral n.toNat))
  | numberSV n => responceNumberSV n
  | strings list =>
    star :: (toString (numeral list.val.length) ++
      (endln ++ list.val.flatMap (fun msg => responceStringNR msg.val)))

/-- The values of the protocol. -/
inductive Resp
  | simple (s : Key)
  | error (s : Key)
  | integer (text : Key)
  | bulk (s : Key)
  | array (items : List Resp)

mutual

/-- The octets of a value. -/
def Resp.encode : Resp → Key
  | .simple s => plusSign :: (s ++ endln)
  | .error s => dash :: (s ++ endln)
  | .integer text => colon :: (text ++ endln)
  | .bulk s => dollar :: (numeral s.length ++ (endln ++ (s ++ endln)))
  | .array items => star :: (numeral items.length ++ (endln ++ Resp.encodeAll items))

/-- The octets of values one after the other. -/
def Resp.encodeAll : List Resp → Key
  | [] => []
  | v :: vs => v.encode ++ Resp.encodeAll vs

end

/-- A text without line ends. -/
def OneLine (s : Key) : Prop := cr ∉ s ∧ lf ∉ s

/-- A sign or none, and digits. -/
def IsInteger : Key → Prop
  | [] => False
  | c :: cs =>
    if c = minus ∨ c = plus then cs ≠ [] ∧ ∀ d ∈ cs, isDigit d = true
    else ∀ d ∈ c :: cs, isDigit d = true

/-- The values that can be told apart on the wire. -/
inductive Resp.WellFormed : Resp → Prop
  | simple {s} (h : OneLine s) : WellFormed (.simple s)
  | error {s} (h : OneLine s) : WellFormed (.error s)
  | integer {text} (h : IsInteger text) : WellFormed (.integer text)
  | bulk {s} : WellFormed (.bulk s)
  | array {items} (h : ∀ v ∈ items, WellFormed v) : WellFormed (.array items)

/-- The value that a response stands for. -/
def Response.value : Response → Resp
  | ok => .simple [79, 75]
  | bool bb => .integer [if bb then 49 else 48]
  | error msg => .error ([69, 82, 82, 32] ++ msg.val)
  | string msg => .bulk msg
  | simpleString msg => .simple msg
  | number64 n => .integer (intNumeral n.toInt)
  | numberU64 n => if n > maxNumber then .bulk (numeral n.toNat) else .integer (numeral n.toNat)
  | numberSV n => .integer n
  | strings list => .array (list.val.map fun msg => .bulk msg.val)

/-- The texts that a response passes through are of one line, and numbers are numbers. -/
def Response.Plain : Response → Prop
  | error msg => OneLine msg
  | simpleString msg => OneLine msg
  | numberSV n => IsInteger n
  | _ => True

/-- The numerals of all sizes fit the buffer. -/
theorem toString_numeral {n : ℕ} (h : n < 2 ^ 64) : toString (numeral n) = numeral n :=
  if_pos (le_trans (numeral_length_le (n := n) (k := 19) (by omega)) (by decide))

theorem toString_intNumeral (n : Int64) : toString (intNumeral n.toInt) = intNumeral n.toInt := by
  have hlow := n.le_toInt
  have hhigh := n.toInt_lt
  have hlen : (numeral n.toInt.natAbs).length ≤ 20 := numeral_length_le (by omega)
  refine if_pos (le_trans ?_ (by decide : 21 ≤ toStringBufferSize))
  unfold intNumeral
  split
  · exact Nat.succ_le_succ hlen
  · exact Nat.le_succ_of_le hlen

theorem length_toString_le (letters : Key) : (toString letters).length ≤ toStringBufferSize := by
  unfold toString
  split
  · assumption
  · decide

/-- A string is written within what is reserved for it. -/
theorem length_responceStringNR_le (msg : Key) :
    (responceStringNR msg).length ≤ calcSizeStr msg := by
  have h := length_toString_le (numeral msg.length)
  simp only [responceStringNR, calcSizeStr, calcSizeInt, List.length_append, List.length_cons]
  omega

theorem length_responceNumberSV (n : Key) :
    (responceNumberSV n).length = 1 + n.length + endln.length := by
  simp only [responceNumberSV, List.length_append, List.length_cons]
  omega

/-- A number is written within what is reserved for it. -/
theorem length_responceNumberSV_le (letters : Key) :
    (responceNumberSV (toString letters)).length ≤ 1 + calcSizeInt + endln.length := by
  have h := length_toString_le letters
  rw [length_responceNumberSV, calcSizeInt]
  omega

theorem length_strings_le (sum : ℕ) (l : List StringView) :
    sum + (l.flatMap (fun msg => responceStringNR msg.val)).length ≤
      l.foldl (fun sum s => sum + calcSizeStr s.val) sum := by
  induction l generalizing sum with
  | nil => exact le_rfl
  | cons msg l ih =>
    have hmsg := length_responceStringNR_le msg
    have htail := ih (sum + calcSizeStr msg)
    rw [List.flatMap_cons, List.length_append, List.foldl_cons]
    omega

theorem length_numeral_max64 {n : UInt64} : (toString (numeral n.toNat)).length ≤ max64.length := by
  have hlow : (numeral n.toNat).length ≤ 20 := numeral_length_le (lt_trans n.toNat_lt (by norm_num))
  have hmax : 20 ≤ max64.length := by decide +kernel
  rw [toString_numeral n.toNat_lt]
  exact le_trans hlow hmax

/-- A response is written within the size it has told. -/
theorem length_write_le (r : Response) : r.write.length ≤ r.size := by
  cases r with
  | ok => exact le_rfl
  | bool bb => exact le_rfl
  | error msg =>
    simp only [Response.write, Response.size, List.length_append]
    omega
  | string msg => exact length_responceStringNR_le msg
  | simpleString msg =>
    simp only [Response.write, Response.size, List.length_append, List.length_cons]
    omega
  | number64 n => exact length_responceNumberSV_le _
  | numberU64 n =>
    rw [Response.write, Response.size]
    split
    · refine le_trans (length_responceStringNR_le _) ?_
      have h := length_numeral_max64 (n := n)
      unfold calcSizeStr
      omega
    · exact length_responceNumberSV_le _
  | numberSV n => exact (length_responceNumberSV n).le
  | strings list =>
    have hcount := length_toString_le (numeral list.val.length)
    have hitems := length_strings_le 0 list.val
    simp only [Response.write, Response.size, calcSizeInt, List.length_append, List.length_cons]
    omega

theorem responceStringNR_eq (msg : StringView) :
    responceStringNR msg = (Resp.bulk msg).encode := by
  rw [responceStringNR, toString_numeral msg.property, Resp.encode]

theorem encodeAll_bulk (l : List StringView) :
    l.flatMap (fun msg => responceStringNR msg.val) =
      Resp.encodeAll (l.map fun msg => Resp.bulk msg.val) := by
  induction l with
  | nil => rw [List.map_nil, Resp.encodeAll, List.flatMap_nil]
  | cons msg l ih =>
    rw [List.flatMap_cons, List.map_cons, Resp.encodeAll, responceStringNR_eq, ih]

/-- What a response writes is the encoding of its value. -/
theorem write_eq_encode (r : Response) : r.write = r.value.encode := by
  cases r with
  | ok => rw [Response.value, Resp.encode]; rfl
  | bool bb => rw [Response.value, Resp.encode]; rfl
  | error msg => rw [Response.value, Resp.encode]; rfl
  | string msg => exact responceStringNR_eq msg
  | simpleString msg => rw [Response.value, Resp.encode]; rfl
  | number64 n => rw [Response.value, Resp.encode, Response.write, toString_intNumeral]; rfl
  | numberU64 n =>
    rw [Response.value, Response.write, toString_numeral n.toNat_lt]
    split
    · have hlen : (numeral n.toNat).length < 2 ^ 64 :=
        lt_of_le_of_lt (numeral_length_le (k := 19) (lt_trans n.toNat_lt (by norm_num))) (by decide)
      exact responceStringNR_eq ⟨numeral n.toNat, hlen⟩
    · rw [Resp.encode]; rfl
  | numberSV n => rw [Response.value, Resp.encode]; rfl
  | strings list =>
    rw [Response.value, Response.write, Resp.encode, List.length_map, encodeAll_bulk,
      toString_numeral list.property]

theorem isInteger_numeral (n : ℕ) : IsInteger (numeral n) := by
  have hdigit := isDigit_numeral n
  cases hn : numeral n with
  | nil => exact absurd hn (numeral_ne_nil n)
  | cons c cs =>
    rw [hn] at hdigit
    have hsign := ne_sign_of_isDigit (hdigit c List.mem_cons_self)
    rw [IsInteger, if_neg (not_or.mpr hsign)]
    exact hdigit

theorem isInteger_digit {c : Byte} (h : isDigit c = true) : IsInteger [c] := by
  rw [IsInteger, if_neg (not_or.mpr (ne_sign_of_isDigit h))]
  exact fun d hd => by rw [List.mem_singleton.mp hd, h]

theorem isInteger_intNumeral (n : ℤ) : IsInteger (intNumeral n) := by
  unfold intNumeral
  split
  · rw [IsInteger, if_pos (.inl rfl)]
    exact ⟨numeral_ne_nil _, isDigit_numeral _⟩
  · exact isInteger_numeral _

/-- The value of a response with plain texts is well formed. -/
theorem wellFormed_of_plain {r : Response} (h : r.Plain) : r.value.WellFormed := by
  cases r with
  | ok => exact .simple (by unfold OneLine; decide)
  | bool bb => cases bb <;> exact .integer (isInteger_digit (by decide))
  | error msg =>
    have hcr : cr ∉ ([69, 82, 82, 32] : Key) := by decide
    have hlf : lf ∉ ([69, 82, 82, 32] : Key) := by decide
    exact .error ⟨fun hc => (List.mem_append.mp hc).elim hcr h.1,
      fun hc => (List.mem_append.mp hc).elim hlf h.2⟩
  | string msg => exact .bulk
  | simpleString msg => exact .simple h
  | number64 n => exact .integer (isInteger_intNumeral _)
  | numberU64 n =>
    rw [Response.value]
    split
    · exact .bulk
    · exact .integer (isInteger_numeral _)
  | numberSV n => exact .integer h
  | strings list =>
    refine .array fun v hv => ?_
    obtain ⟨msg, -, rfl⟩ := List.mem_map.mp hv
    exact .bulk

/-- If what is written is any well-formed value, the texts are plain. -/
theorem plain_of_wellFormed {r : Response} {v : Resp} (hv : v.WellFormed)
    (h : r.write = v.encode) : r.Plain := by
  cases r with
  | error msg =>
    cases hv <;> rw [Resp.encode] at h <;> injection h with hhead htail
    case error s hs =>
      have hall : [69, 82, 82, 32] ++ msg.val ++ endln = s ++ endln := by
        rw [List.append_assoc]
        exact htail
      have htext : [69, 82, 82, 32] ++ msg.val = s := List.append_cancel_right hall
      rw [← htext] at hs
      exact ⟨fun hc => hs.1 (List.mem_append_right _ hc), fun hc => hs.2 (List.mem_append_right _ hc)⟩
    all_goals exact absurd hhead (by decide)
  | simpleString msg =>
    cases hv <;> rw [Resp.encode] at h <;> injection h with hhead htail
    case simple s hs =>
      have htext : msg.val = s := List.append_cancel_right htail
      rw [← htext] at hs
      exact hs
    all_goals exact absurd hhead (by decide)
  | numberSV n =>
    cases hv <;> rw [Resp.encode] at h <;> injection h with hhead htail
    case integer text ht =>
      have htext : n.val = text := List.append_cancel_right htail
      rw [← htext] at ht
      exact ht
    all_goals exact absurd hhead (by decide)
  | _ => trivial

end HM4.RedisResponse
