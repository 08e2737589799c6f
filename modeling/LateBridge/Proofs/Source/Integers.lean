import LateBridge.Document.Load
import LateBridge.Json.Reader
import LateBridge.Number.Text
import LateBridge.Proofs.Text.Splitting
import LateBridge.Source.Literal
import Mathlib.Algebra.Order.Ring.Int

/-!
# Proofs/Source/Integers — whole numbers as defaults

    text ──read──▸ number ──ofJson?──▸ constant ──literal──▸ text ──▸ value of the expression

A whole number of 64 bits, signed or not, is kept exactly by the reader.  The constant holds it
exactly as long as it is below `2 ^ 63`, and then its text is an expression for the number
(`denotesInteger_int`).  Beyond, and for a minus zero, the constant is a real number, whose text is
no integer expression (`not_denotesInteger_float`).
-/

namespace LateBridge

open Binary64 (digitsValue)

/-! ## Integer expressions of the language -/

namespace Text

/-- **The value of an integer literal**: digits, and no more than 64 bits. -/
def naturalValue? (cs : List Char) : Option Nat :=
  if cs ≠ [] ∧ cs.all Char.isDigit = true ∧ digitsValue cs < 2 ^ 64 then some (digitsValue cs)
  else none

/-- **The value of an integer with its sign.**  A literal after a minus stays in the range of signed
integers. -/
def integerValue? : List Char → Option Int
  | '-' :: cs => ((naturalValue? cs).filter (· ≤ 2 ^ 63)).map fun n : Nat => -Int.ofNat n
  | cs => (naturalValue? cs).map Int.ofNat

/-- **The value of the operand of a cast**: a literal, or an integer in parentheses.  A minus right
behind the parenthesis of a cast is a subtraction. -/
def operandValue? : List Char → Option Int
  | '(' :: cs => if cs.getLast? = some ')' then integerValue? cs.dropLast else none
  | cs => (naturalValue? cs).map Int.ofNat

/-- The text ends as an integer expression does. -/
def EndsInteger (cs : List Char) : Prop :=
  ∃ front c, cs = front ++ [c] ∧ (c.isDigit = true ∨ c = ')')

theorem EndsInteger.append (front : List Char) {cs : List Char} (h : EndsInteger cs) :
    EndsInteger (front ++ cs) := by
  obtain ⟨middle, c, rfl, hc⟩ := h
  exact ⟨front ++ middle, c, (List.append_assoc ..).symm, hc⟩

theorem not_endsInteger (front : List Char) {c : Char} (hdigit : c.isDigit = false)
    (hparen : c ≠ ')') : ¬ EndsInteger (front ++ [c]) := by
  rintro ⟨front', d, heq, hd⟩
  obtain ⟨-, hcd⟩ := List.append_inj' heq rfl
  obtain rfl := List.singleton_inj.mp hcd
  rw [hdigit] at hd
  exact hd.elim Bool.false_ne_true hparen

theorem not_endsInteger_append (start : String) (front : List Char) {word : String} {c : Char}
    (hword : word.toList = front ++ [c]) (hdigit : c.isDigit = false) (hparen : c ≠ ')') :
    ¬ EndsInteger (start ++ word).toList := by
  rw [String.toList_append, hword, ← List.append_assoc]
  exact not_endsInteger _ hdigit hparen

theorem endsInteger_of_naturalValue? {cs : List Char} {n : Nat} (h : naturalValue? cs = some n) :
    EndsInteger cs := by
  rw [naturalValue?] at h
  split at h
  · rename_i hcs
    refine ⟨cs.dropLast, cs.getLast hcs.1, (List.dropLast_concat_getLast hcs.1).symm, .inl ?_⟩
    exact List.all_eq_true.mp hcs.2.1 _ (List.getLast_mem hcs.1)
  · cases h

theorem endsInteger_of_integerValue? {cs : List Char} {n : Int} (h : integerValue? cs = some n) :
    EndsInteger cs := by
  unfold integerValue? at h
  split at h
  · obtain ⟨k, hk, -⟩ := Option.map_eq_some_iff.mp h
    have hdigits := endsInteger_of_naturalValue? (Option.filter_eq_some_iff.mp hk).1
    exact hdigits.append ['-']
  · obtain ⟨k, hk, -⟩ := Option.map_eq_some_iff.mp h
    exact endsInteger_of_naturalValue? hk

theorem endsInteger_of_operandValue? {cs : List Char} {n : Int} (h : operandValue? cs = some n) :
    EndsInteger cs := by
  unfold operandValue? at h
  split at h
  · rename_i inner
    split at h
    · rename_i hlast
      obtain ⟨front, rfl⟩ := List.getLast?_eq_some_iff.mp hlast
      exact ⟨'(' :: front, ')', rfl, .inr rfl⟩
    · cases h
  · obtain ⟨k, hk, -⟩ := Option.map_eq_some_iff.mp h
    exact endsInteger_of_naturalValue? hk

/-! ## Decimal digits -/

theorem digitsValue_eq_ofDigitChars (cs : List Char) :
    digitsValue cs = Nat.ofDigitChars 10 cs 0 := by
  rw [digitsValue, Nat.ofDigitChars]
  simp only [Nat.mul_comm]

/-- The text of a natural number is a literal for it. -/
theorem naturalValue?_toString {n : Nat} (h : n < 2 ^ 64) :
    naturalValue? (toString n).toList = some n := by
  have hvalue : digitsValue (Nat.toDigits 10 n) = n := by
    rw [digitsValue_eq_ofDigitChars, Nat.ofDigitChars_ten_toDigits]
  have hdigits : (Nat.toDigits 10 n).all Char.isDigit = true :=
    List.all_eq_true.mpr isDigit_of_mem_digits
  rw [toList_toString, naturalValue?, hvalue, if_pos ⟨Nat.toDigits_ne_nil, hdigits, h⟩]

theorem toList_toString_neg {n : Nat} (h : 0 < n) :
    (toString (-(n : Int))).toList = '-' :: (toString n).toList := by
  obtain ⟨k, rfl⟩ := Nat.exists_eq_succ_of_ne_zero h.ne'
  have hneg : -((k + 1 : Nat) : Int) = Int.negSucc k := rfl
  rw [hneg, Int.toString_eq_repr]
  exact String.toList_append

theorem integerValue?_eq_of_head {cs : List Char} (h : cs.head? ≠ some '-') :
    integerValue? cs = (naturalValue? cs).map Int.ofNat := by
  unfold integerValue?
  split
  · simp at h
  · rfl

theorem operandValue?_eq_of_head {cs : List Char} (h : cs.head? ≠ some '(') :
    operandValue? cs = (naturalValue? cs).map Int.ofNat := by
  unfold operandValue?
  split
  · simp at h
  · rfl

/-- A natural number starts with no sign and no parenthesis. -/
theorem head?_toString_ne (n : Nat) {c : Char} (hc : c.isDigit = false) :
    (toString n).toList.head? ≠ some c := by
  rw [toList_toString]
  exact fun h => not_mem_digits hc n (List.mem_of_head? h)

/-- **The text of an integer is an expression for it.** -/
theorem integerValue?_toString {n : Int} (hlow : -2 ^ 63 ≤ n) (hhigh : n < 2 ^ 64) :
    integerValue? (toString n).toList = some n := by
  obtain hn | hn := Int.lt_or_le n 0
  · obtain ⟨k, rfl⟩ : ∃ k : Nat, n = -(k : Int) := ⟨n.natAbs, by omega⟩
    have hvalue : naturalValue? (toString k).toList = some k := naturalValue?_toString (by omega)
    rw [toList_toString_neg (by omega), integerValue?, hvalue, Option.filter_some,
      if_pos (decide_eq_true (by omega))]
    rfl
  · obtain ⟨k, rfl⟩ := Int.eq_ofNat_of_zero_le hn
    have hvalue : naturalValue? (toString k).toList = some k := naturalValue?_toString (by omega)
    have htext : toString (k : Int) = toString k := rfl
    rw [htext, integerValue?_eq_of_head (head?_toString_ne k (by decide)), hvalue]
    rfl

/-- A text after a cast: a negative integer stands in parentheses. -/
theorem operandValue?_toString {n : Int} (hlow : -2 ^ 63 ≤ n) (hhigh : n < 2 ^ 64) :
    operandValue? (if n < 0 then "(" ++ toString n ++ ")" else toString n).toList = some n := by
  split
  · have htext : ("(" ++ toString n ++ ")").toList = '(' :: ((toString n).toList ++ [')']) := by
      simp
    rw [htext, operandValue?, if_pos List.getLast?_concat, List.dropLast_concat,
      integerValue?_toString hlow hhigh]
  · obtain ⟨k, rfl⟩ : ∃ k : Nat, n = k := ⟨n.toNat, by omega⟩
    have hvalue : naturalValue? (toString k).toList = some k := naturalValue?_toString (by omega)
    have htext : toString (k : Int) = toString k := rfl
    rw [htext, operandValue?_eq_of_head (head?_toString_ne k (by decide)), hvalue]
    rfl

end Text

/-- **The integer that a text denotes as a constant of a type**: an enumeration takes a cast. -/
def Graph.DenotesInteger (g : Graph) (t : Ty) (text : String) (n : Int) : Prop :=
  if g.isEnumeration t then
    ∃ operand, text = "(" ++ t.source ++ ")" ++ operand ∧ Text.operandValue? operand.toList = some n
  else Text.integerValue? text.toList = some n

namespace Graph

variable {g : Graph} {t : Ty}

theorem endsInteger_of_denotesInteger {text : String} {n : Int} (h : g.DenotesInteger t text n) :
    Text.EndsInteger text.toList := by
  rw [DenotesInteger] at h
  split at h
  · obtain ⟨operand, rfl, hoperand⟩ := h
    rw [String.toList_append]
    exact (Text.endsInteger_of_operandValue? hoperand).append _
  · exact Text.endsInteger_of_integerValue? h

/-- The numbers of three types carry a letter. -/
theorem numberSuffix_cases (special : Option Special) :
    (special ∉ [some .single, some .double, some .decimal] ∧
      Special.numberSuffix special = "") ∨
    (special ∈ [some .single, some .double, some .decimal] ∧
      ∃ c, (Special.numberSuffix special).toList = [c] ∧ c.isDigit = false ∧ c ≠ ')') := by
  unfold Special.numberSuffix
  split
  · exact .inr ⟨by simp, 'F', rfl, rfl, by decide⟩
  · exact .inr ⟨by simp, 'D', rfl, rfl, by decide⟩
  · exact .inr ⟨by simp, 'M', rfl, rfl, by decide⟩
  · rename_i hsingle hdouble hdecimal
    exact .inl ⟨by simpa using ⟨hsingle, hdouble, hdecimal⟩, rfl⟩

/-- **An integer denotes itself**, but for the types whose numbers carry a letter. -/
theorem denotesInteger_int {n : Int} (hlow : -2 ^ 63 ≤ n) (hhigh : n < 2 ^ 64) :
    g.DenotesInteger t (g.literal t (.int n)) n ↔
      t.special? ∉ [some .single, some .double, some .decimal] := by
  rw [literal, intLiteral]
  cases henum : g.isEnumeration t with
  | true =>
    have hnone : t.special? = none := by
      rw [isEnumeration, Bool.and_eq_true, Option.isNone_iff_eq_none] at henum
      exact henum.2
    rw [if_pos rfl, DenotesInteger, if_pos henum, hnone]
    refine iff_of_true ⟨_, rfl, Text.operandValue?_toString hlow hhigh⟩ (by simp)
  | false =>
    rw [if_neg Bool.false_ne_true]
    obtain ⟨hplain, hsuffix⟩ | ⟨hmarked, c, hsuffix, hdigit, hparen⟩ :=
      numberSuffix_cases t.special?
    · rw [hsuffix, String.append_empty, DenotesInteger, henum, if_neg Bool.false_ne_true]
      exact iff_of_true (Text.integerValue?_toString hlow hhigh) hplain
    · refine iff_of_false (fun h => ?_) (not_not_intro hmarked)
      exact Text.not_endsInteger_append _ [] hsuffix hdigit hparen
        (endsInteger_of_denotesInteger h)

/-- The text of a real number ends with a letter. -/
theorem not_endsInteger_realLiteral (special : Option Special) (x : Binary64) :
    ¬ Text.EndsInteger (realLiteral special x).toList := by
  cases x with
  | nan => exact Text.not_endsInteger_append _ ['.', 'N', 'a'] rfl rfl (by decide)
  | infinite negative =>
    cases negative with
    | true =>
      exact Text.not_endsInteger_append _ ".NegativeInfinit".toList rfl rfl (by decide)
    | false =>
      exact Text.not_endsInteger_append _ ".PositiveInfinit".toList rfl rfl (by decide)
  | finite negative mantissa exponent =>
    rw [realLiteral]
    obtain ⟨-, hsuffix⟩ | ⟨-, c, hsuffix, hdigit, hparen⟩ := numberSuffix_cases special
    · rw [hsuffix]
      exact Text.not_endsInteger_append _ [] rfl rfl (by decide)
    · have hempty : (Special.numberSuffix special).isEmpty = false := by
        rw [← Bool.not_eq_true, String.isEmpty_iff]
        rintro hempty
        rw [hempty] at hsuffix
        cases hsuffix
      rw [hempty, if_neg Bool.false_ne_true]
      exact Text.not_endsInteger_append _ [] hsuffix hdigit hparen

/-- **A real number denotes no integer.** -/
theorem not_denotesInteger_float (x : Binary64) (n : Int) :
    ¬ g.DenotesInteger t (g.literal t (.float x)) n := fun h =>
  not_endsInteger_realLiteral t.special? x (endsInteger_of_denotesInteger h)

end Graph

namespace Json

/-- **The digits of a whole number**: no zero stands before others. -/
structure WholeDigits (cs : List Char) : Prop where
  digits : ∀ c ∈ cs, c.isDigit = true
  nonempty : cs ≠ []
  plain : cs.head? = some '0' → cs.length = 1

/-- **A number written without fraction and exponent**, with its value. -/
inductive WrittenInteger : String → Int → Prop
  | natural {cs : List Char} (h : WholeDigits cs) :
      WrittenInteger (String.ofList cs) (digitsValue cs)
  | negative {cs : List Char} (h : WholeDigits cs) :
      WrittenInteger (String.ofList ('-' :: cs)) (-(digitsValue cs : Int))

theorem digitRun_of_digits {cs : List Char} (h : ∀ c ∈ cs, c.isDigit = true) :
    digitRun cs = (cs.map digitValue, []) := by
  rw [digitRun, List.takeWhile_eq_self_iff.mpr h, List.dropWhile_eq_nil_iff.mpr h]

theorem le_ofDigitChars (cs : List Char) (start : Nat) : start ≤ Nat.ofDigitChars 10 cs start := by
  induction cs generalizing start with
  | nil => exact le_rfl
  | cons c cs ih =>
    rw [Nat.ofDigitChars_cons]
    exact Nat.le_trans (by omega) (ih _)

/-- All digits fit a significand that their value fits. -/
theorem takeDigits_of_le {cs : List Char} {start : Nat}
    (h : Nat.ofDigitChars 10 cs start ≤ maxSignificand) :
    takeDigits start (cs.map digitValue) = (Nat.ofDigitChars 10 cs start, []) := by
  induction cs generalizing start with
  | nil => rfl
  | cons c cs ih =>
    rw [Nat.ofDigitChars_cons, Nat.mul_comm] at h ⊢
    have hfits : ¬ start * 10 + digitValue c > maxSignificand :=
      Nat.not_lt.mpr (Nat.le_trans (le_ofDigitChars cs _) h)
    rw [List.map_cons, takeDigits, if_neg hfits]
    exact ih h

theorem eq_zero_of_digitValue {c : Char} (hdigit : c.isDigit = true) (h : digitValue c = 0) :
    c = '0' := by
  rw [Char.isDigit_iff_toNat] at hdigit
  refine Char.toNat_inj.mp ?_
  have hzero : '0'.toNat = 48 := rfl
  rw [digitValue, hzero] at h
  omega

/-- No digit stands behind a leading zero. -/
theorem WholeDigits.eq_nil_of_zero {cs : List Char} (h : WholeDigits ('0' :: cs)) : cs = [] := by
  have hlength := h.plain rfl
  rwa [List.length_cons, Nat.add_eq_right, List.length_eq_zero_iff] at hlength

theorem WholeDigits.eq_zero {cs : List Char} (h : WholeDigits cs) (hvalue : digitsValue cs = 0) :
    cs = ['0'] := by
  cases cs with
  | nil => exact absurd rfl h.nonempty
  | cons c cs =>
    rw [Text.digitsValue_eq_ofDigitChars, Nat.ofDigitChars_cons] at hvalue
    have hc : digitValue c = 0 := by
      have := le_ofDigitChars cs (10 * 0 + digitValue c)
      rw [digitValue] at this ⊢
      omega
    obtain rfl := eq_zero_of_digitValue (h.digits c List.mem_cons_self) hc
    rw [h.eq_nil_of_zero]

/-- A whole number as it is read. -/
def wholeNumeral (negative : Bool) (cs : List Char) : Numeral :=
  { negative, whole := cs.map digitValue, fraction := [], exponent := 0, isWhole := true }

theorem readNumeral_of_wholeDigits {cs : List Char} (h : WholeDigits cs) (negative : Bool) :
    readNumeral negative cs = some (wholeNumeral negative cs, []) := by
  have hplain : ((cs.map digitValue).isEmpty ||
      ((cs.map digitValue).head? == some 0 && (cs.map digitValue).length > 1)) = false := by
    cases cs with
    | nil => exact absurd rfl h.nonempty
    | cons c cs =>
      by_cases hc : digitValue c = 0
      · obtain rfl := eq_zero_of_digitValue (h.digits c List.mem_cons_self) hc
        simp [h.eq_nil_of_zero]
      · simp [hc]
  simp only [readNumeral, digitRun_of_digits h.digits, hplain]
  rfl

/-- **A whole number of 64 bits keeps its value**; a minus zero is real. -/
theorem numberOf_wholeNumeral {cs : List Char} (hfits : digitsValue cs < 2 ^ 64) :
    numberOf (wholeNumeral false cs) = .number (.int (digitsValue cs)) := by
  have htake : takeDigits 0 (cs.map digitValue) = (digitsValue cs, []) := by
    rw [Text.digitsValue_eq_ofDigitChars] at hfits ⊢
    exact takeDigits_of_le (Nat.le_sub_one_of_lt hfits)
  simp [numberOf, Numeral.value?, wholeNumeral, htake]

theorem numberOf_wholeNumeral_negative {cs : List Char} (hfits : digitsValue cs ≤ 2 ^ 63) :
    numberOf (wholeNumeral true cs) =
      .number (if digitsValue cs = 0 then .real (Binary64.ofNat 0).negate
        else .int (-(digitsValue cs : Int))) := by
  have htake : takeDigits 0 (cs.map digitValue) = (digitsValue cs, []) := by
    rw [Text.digitsValue_eq_ofDigitChars] at hfits ⊢
    exact takeDigits_of_le (Nat.le_trans hfits (by decide))
  have hbound : ¬ digitsValue cs > Nat.pow 2 63 := Nat.not_lt.mpr hfits
  by_cases hzero : digitsValue cs = 0 <;>
    simp [numberOf, Numeral.value?, wholeNumeral, htake, hbound, hzero]

theorem skipSpace_cons {c : Char} (h : isJsonBlank c = false) (cs : List Char) :
    skipSpace (c :: cs) = c :: cs := by
  rw [skipSpace, List.dropWhile_cons, h, if_neg Bool.false_ne_true]

theorem isJsonBlank_of_isDigit {c : Char} (h : c.isDigit = true) : isJsonBlank c = false := by
  have hne (d : Char) (hd : d.isDigit = false) : (c == d) = false :=
    beq_false_of_ne fun heq => by rw [heq, hd] at h; cases h
  simp only [isJsonBlank, hne ' ' rfl, hne '\n' rfl, hne '\t' rfl, hne '\r' rfl, Bool.or_false]

/-- A text of digits is read as a number. -/
theorem read_natural {cs : List Char} (h : WholeDigits cs) :
    read (String.ofList cs) = some (numberOf (wholeNumeral false cs)) := by
  have hvalue (fuel room : Nat) :
      readValue (fuel + 1) room cs = some (numberOf (wholeNumeral false cs), []) := by
    obtain ⟨c, rest, rfl⟩ := List.exists_cons_of_ne_nil h.nonempty
    have hdigit := h.digits c List.mem_cons_self
    have hskip := skipSpace_cons (isJsonBlank_of_isDigit hdigit) rest
    unfold readValue
    rw [hskip]
    split
    -- no other value starts with a digit
    case h_8 => rw [readNumeral_of_wholeDigits h]; rfl
    all_goals
      rename_i heq
      cases heq
      cases hdigit
  simp only [read, readWithin, String.toList_ofList, hvalue]
  rfl

theorem read_negative {cs : List Char} (h : WholeDigits cs) :
    read (String.ofList ('-' :: cs)) = some (numberOf (wholeNumeral true cs)) := by
  have hvalue (fuel room : Nat) :
      readValue (fuel + 1) room ('-' :: cs) = some (numberOf (wholeNumeral true cs), []) := by
    unfold readValue
    rw [skipSpace_cons (by decide) cs]
    simp only [readNumeral_of_wholeDigits h]
    rfl
  simp only [read, readWithin, String.toList_ofList, hvalue]
  rfl

end Json

/-! ## From the text of a default to its text in the source -/

theorem ofJson?_int (i : Int) : Constant.ofJson? (.number (.int i)) =
    if i < 2 ^ 63 then some (.int i) else some (.float (Binary64.ofNat i.toNat)) := by
  have hbound : Int.ofNat (Nat.pow 2 63) = 2 ^ 63 := by decide
  rw [Constant.ofJson?, hbound]

/-- The constant of a whole number is the number, or a real one beyond the signed range. -/
theorem constant_of_natural {cs : List Char} (h : Json.WholeDigits cs)
    (hfits : digitsValue cs < 2 ^ 64) :
    ∃ json, Json.read (String.ofList cs) = some json ∧
      Constant.ofJson? json = some (if (digitsValue cs : Int) < 2 ^ 63 then .int (digitsValue cs)
        else .float (Binary64.ofNat (digitsValue cs))) := by
  refine ⟨_, Json.read_natural h, ?_⟩
  rw [Json.numberOf_wholeNumeral hfits, ofJson?_int, Int.toNat_natCast]
  split <;> rfl

/-- The constant of a whole number with a minus is the number, or the real minus zero. -/
theorem constant_of_negative {cs : List Char} (h : Json.WholeDigits cs)
    (hfits : digitsValue cs ≤ 2 ^ 63) :
    ∃ json, Json.read (String.ofList ('-' :: cs)) = some json ∧
      Constant.ofJson? json = some (if digitsValue cs = 0 then .float (Binary64.ofNat 0).negate
        else .int (-(digitsValue cs : Int))) := by
  refine ⟨_, Json.read_negative h, ?_⟩
  have hsigned : -(digitsValue cs : Int) < 2 ^ 63 := by omega
  rw [Json.numberOf_wholeNumeral_negative hfits]
  split
  · rfl
  · rw [ofJson?_int, if_pos hsigned]

/-- Digits alone are no minus zero. -/
theorem Json.WholeDigits.ofList_ne {cs : List Char} (h : WholeDigits cs) :
    String.ofList cs ≠ "-0" := by
  intro heq
  obtain rfl : cs = ['-', '0'] := String.ofList_injective heq
  cases h.digits '-' List.mem_cons_self

/-- Digits behind a minus are a minus zero if their value is zero. -/
theorem Json.WholeDigits.ofList_minus_ne_iff {cs : List Char} (h : WholeDigits cs) :
    String.ofList ('-' :: cs) ≠ "-0" ↔ digitsValue cs ≠ 0 := by
  refine not_congr ⟨fun heq => ?_, fun hzero => ?_⟩
  · obtain rfl : cs = ['0'] := (List.cons.inj (String.ofList_injective heq)).2
    rfl
  · rw [h.eq_zero hzero]

/-- The constant of a signed integer that is no minus zero is the integer, and any other whole
number becomes a real one. -/
theorem constant_of_written {text : String} {n : Int} (hn : Json.WrittenInteger text n)
    (hlow : -2 ^ 63 ≤ n) (hhigh : n < 2 ^ 64) :
    ∃ json c, Json.read text = some json ∧ Constant.ofJson? json = some c ∧
      ((n < 2 ^ 63 ∧ text ≠ "-0") ∧ c = .int n ∨
        ¬ (n < 2 ^ 63 ∧ text ≠ "-0") ∧ ∃ x, c = .float x) := by
  cases hn with
  | natural h =>
    obtain ⟨json, hread, hbind⟩ := constant_of_natural h (by omega)
    refine ⟨json, _, hread, hbind, ?_⟩
    split
    · rename_i hsigned
      exact .inl ⟨⟨hsigned, h.ofList_ne⟩, rfl⟩
    · rename_i hsigned
      exact .inr ⟨fun hc => hsigned hc.1, _, rfl⟩
  | negative h =>
    obtain ⟨json, hread, hbind⟩ := constant_of_negative h (by omega)
    refine ⟨json, _, hread, hbind, ?_⟩
    split
    · rename_i hzero
      exact .inr ⟨fun hc => h.ofList_minus_ne_iff.mp hc.2 hzero, _, rfl⟩
    · rename_i hzero
      exact .inl ⟨⟨by omega, h.ofList_minus_ne_iff.mpr hzero⟩, rfl⟩

/-- **When a whole number survives as a default.**  A number of 64 bits, signed or not, that is
written without fraction and exponent is read and bound to a constant.  What is printed for it
denotes the number exactly if the number is below `2 ^ 63` and no minus zero, and the type is none
of the three whose numbers carry a letter; integral types and enumerations are not among these. -/
theorem integer_default_denotes_iff (g : Graph) (t : Ty) {text : String} {n : Int}
    (hn : Json.WrittenInteger text n) (hlow : -2 ^ 63 ≤ n) (hhigh : n < 2 ^ 64) :
    ∃ json c, Json.read text = some json ∧ Constant.ofJson? json = some c ∧
      (g.DenotesInteger t (g.literal t c) n ↔
        n < 2 ^ 63 ∧ text ≠ "-0" ∧ t.special? ∉ [some .single, some .double, some .decimal]) := by
  obtain ⟨json, c, hread, hbind, ⟨hexact, rfl⟩ | ⟨hreal, x, rfl⟩⟩ :=
    constant_of_written hn hlow hhigh
  · refine ⟨json, _, hread, hbind, (Graph.denotesInteger_int hlow hhigh).trans ?_⟩
    simp only [hexact.1, ne_eq, hexact.2, not_false_eq_true, true_and]
  · refine ⟨json, _, hread, hbind, iff_of_false (Graph.not_denotesInteger_float x n) ?_⟩
    exact fun hc => hreal ⟨hc.1, hc.2.1⟩

/-- The least signed number as a default of its type. -/
theorem integer_default_denotes_least :
    ∃ json c, Json.read "-9223372036854775808" = some json ∧ Constant.ofJson? json = some c ∧
      Graph.DenotesInteger { decls := [] } (.plain (.top (some "System") "Int64" []))
        (Graph.literal { decls := [] } (.plain (.top (some "System") "Int64" [])) c) (-2 ^ 63) := by
  have hdigits : Json.WholeDigits "9223372036854775808".toList :=
    ⟨List.all_eq_true.mp (by decide), by decide, by decide⟩
  have hwritten : Json.WrittenInteger "-9223372036854775808" (-2 ^ 63) := .negative hdigits
  obtain ⟨json, c, hread, hbind, hiff⟩ :=
    integer_default_denotes_iff { decls := [] } (.plain (.top (some "System") "Int64" []))
      hwritten (by decide) (by decide)
  exact ⟨json, c, hread, hbind, hiff.mpr (by decide)⟩

/-! A mask of all bits as a default. -/

namespace Mask

/-- The method with the default. -/
def put : MethodDoc :=
  { name := "Put", accessibility := "public", flags := {}, typeParams := []
    params := [
      ⟨"mask", "System.UInt64", .none, Json.read "18446744073709551615", false, none⟩]
    returns := "void", attributes := [], location := none }

/-- A store of masks. -/
def docs : List GraphDocument :=
  [{ coreLibrary := false, usings := []
     types := [
      CoreLibrary.structType "System" "UInt64",
      { CoreLibrary.classType "Shop" "Store" with methods := [put] }] }]

/-- Whether the documents load with one method of the default. -/
def check : Bool :=
  match load docs with
  | .error _ => false
  | .ok g => g.methods.any fun m =>
      m.params.map (fun p => (p.type.special?, p.default?)) ==
        [(some .uint64, some (.float (Binary64.ofNat 18446744073709551615)))]

end Mask

/-- **A default that does not survive**: the greatest unsigned number becomes a real one. -/
theorem integer_default_breaks :
    Json.WrittenInteger "18446744073709551615" 18446744073709551615 ∧
      ∃ g, load Mask.docs = .ok g ∧ ∃ m ∈ g.methods, ∃ mask c, m.params = [mask] ∧
        mask.type.special? = some .uint64 ∧ mask.default? = some c ∧
        ¬ g.DenotesInteger mask.type (g.literal mask.type c) 18446744073709551615 := by
  have hdigits : Json.WholeDigits "18446744073709551615".toList :=
    ⟨List.all_eq_true.mp (by decide), by decide, by decide⟩
  refine ⟨.natural hdigits, ?_⟩
  have hcheck : Mask.check = true := by decide +kernel
  rw [Mask.check] at hcheck
  split at hcheck
  · cases hcheck
  rename_i g hload
  obtain ⟨m, hm, hparams⟩ := List.any_eq_true.mp hcheck
  obtain ⟨mask, rest, hmask, htyped, hrest⟩ := List.map_eq_cons_iff.mp (eq_of_beq hparams)
  obtain rfl := List.map_eq_nil_iff.mp hrest
  obtain ⟨htype, hdefault⟩ := Prod.mk.inj htyped
  exact ⟨g, hload, m, hm, mask, _, hmask, htype, hdefault, Graph.not_denotesInteger_float _ _⟩

end LateBridge
