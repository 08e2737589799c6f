import LateBridge.Document.Load
import LateBridge.Json.Reader
import LateBridge.Source.Literal

/-!
# Proofs/Source/Quoting — constants between quotes

    constant ──literal──▸ text ──read as a literal of the language──▸ code units
        ╰─────────────────────────codeUnits───────────────────────────╯

The language reads a literal character by character: a backslash starts an escape, the quote ends
the literal, and a line may not end inside.  What is read are code units of 16 bits, of which a
character literal holds one.  Every character that is written reads back as its own code units
(`unquote_escapeChar`), with two exceptions: the line and the paragraph separator end a line for the
language, but are no control characters, and so they are not escaped (`literal_decodes_iff`).
-/

namespace LateBridge

open Json (hexValue? hexValues?)
open Text (isControl fourHex fourHexCapitals)

/-! ## Literals of the language -/

namespace Text

/-- **The code units of a character**: one, or the two halves of a surrogate pair. -/
def codeUnits (c : Char) : List Nat :=
  if c.toNat < 0x10000 then [c.toNat]
  else [0xD800 + (c.toNat - 0x10000) / 0x400, 0xDC00 + (c.toNat - 0x10000) % 0x400]

/-- The code units of a string. -/
def stringUnits (s : String) : List Nat := s.toList.flatMap codeUnits

/-- The characters that end a line. -/
def endsLine (c : Char) : Bool :=
  c == '\n' || c == '\r' || c == '\x85' || c == '\u2028' || c == '\u2029'

/-- The code unit that an escape of one letter stands for. -/
def escapeUnit? : Char → Option Nat
  | '\\' => some 0x5C
  | '"' => some 0x22
  | '\'' => some 0x27
  | 'n' => some 0x0A
  | 'r' => some 0x0D
  | 't' => some 0x09
  | '0' => some 0
  | _ => none

/-- **What stands between two quotes**: the code units of a literal from behind its opening quote to
its closing quote, which is the end of the text. -/
def unquote (quote : Char) : List Char → Option (List Nat)
  | [] => none
  | '\\' :: 'u' :: a :: b :: c :: d :: rest =>
    match hexValues? a b c d with
    | some unit => (unquote quote rest).map (unit :: ·)
    | none => none
  | '\\' :: e :: rest =>
    match escapeUnit? e with
    | some unit => (unquote quote rest).map (unit :: ·)
    | none => none
  | c :: rest =>
    if c == quote then if rest.isEmpty then some [] else none
    else if c == '\\' || endsLine c then none
    else (unquote quote rest).map (codeUnits c ++ ·)

/-- **The value of a string literal**, if a text is one. -/
def stringValue? (text : String) : Option (List Nat) :=
  match text.toList with
  | '"' :: rest => unquote '"' rest
  | _ => none

/-- **The value of a character literal**, if a text is one: a single code unit. -/
def charValue? (text : String) : Option (List Nat) :=
  match text.toList with
  | '\'' :: rest => (unquote '\'' rest).filter (·.length == 1)
  | _ => none

/-! ## One character -/

/-- The characters that end a line and are no control characters. -/
def isSeparator (c : Char) : Bool := c == '\u2028' || c == '\u2029'

theorem hexValue?_digit : ∀ d < 16, hexValue? (Nat.digitChar d).toUpper = some d := by decide

theorem toList_fourHexCapitals (n : Nat) : (fourHexCapitals n).toList =
    [(Nat.digitChar (n / 4096 % 16)).toUpper, (Nat.digitChar (n / 256 % 16)).toUpper,
      (Nat.digitChar (n / 16 % 16)).toUpper, (Nat.digitChar (n % 16)).toUpper] := by
  simp [fourHexCapitals, fourHex]

/-- Four hexadecimal digits are read as the number that they are written for. -/
theorem unquote_fourHexCapitals (quote : Char) {n : Nat} (h : n < 0x10000) (rest : List Char) :
    unquote quote ('\\' :: 'u' :: ((fourHexCapitals n).toList ++ rest)) =
      (unquote quote rest).map (n :: ·) := by
  have hvalue : ∀ k, hexValue? (Nat.digitChar (n / k % 16)).toUpper = some (n / k % 16) :=
    fun k => hexValue?_digit _ (Nat.mod_lt _ (by decide))
  have hlast : hexValue? (Nat.digitChar (n % 16)).toUpper = some (n % 16) :=
    hexValue?_digit _ (Nat.mod_lt _ (by decide))
  have hnumber : (n / 4096 % 16 * 16 + n / 256 % 16) * 256 + n / 16 % 16 * 16 + n % 16 = n := by
    omega
  rw [toList_fourHexCapitals]
  simp only [List.cons_append, List.nil_append, unquote, hexValues?, hvalue, hlast,
    Option.bind_eq_bind, Option.bind_some, hnumber]

theorem codeUnits_of_isControl {c : Char} (h : isControl c = true) : codeUnits c = [c.toNat] := by
  simp only [isControl, Bool.or_eq_true, Bool.and_eq_true, decide_eq_true_eq] at h
  rw [codeUnits, if_pos (by omega)]

theorem endsLine_eq_false {c : Char} (hcontrol : isControl c = false)
    (hseparator : isSeparator c = false) : endsLine c = false := by
  have hne : ∀ d, isControl d = true → (c == d) = false := by
    intro d hd
    refine beq_false_of_ne fun heq => ?_
    rw [heq, hd] at hcontrol
    cases hcontrol
  obtain ⟨hline, hparagraph⟩ := Bool.or_eq_false_iff.mp hseparator
  simp only [endsLine, hne _ (by decide : isControl '\n' = true),
    hne _ (by decide : isControl '\r' = true), hne _ (by decide : isControl '\x85' = true), hline,
    hparagraph, Bool.or_false]

/-- A character that is not escaped. -/
theorem unquote_cons {quote c : Char} (hslash : c ≠ '\\') (rest : List Char) :
    unquote quote (c :: rest) =
      if c == quote then if rest.isEmpty then some [] else none
      else if endsLine c then none
      else (unquote quote rest).map (codeUnits c ++ ·) := by
  rw [unquote]
  · rw [beq_false_of_ne hslash, Bool.false_or]
  · exact fun _ _ _ _ _ h _ => hslash h
  · exact fun _ _ h _ => hslash h

/-- **A character that is written between quotes reads back** as its own code units, if it is no
separator. -/
theorem unquote_escapeChar {quote c : Char} (hquote : quote = '"' ∨ quote = '\'')
    (hc : isSeparator c = false) (rest : List Char) :
    unquote quote ((escapeChar quote c).toList ++ rest) =
      (unquote quote rest).map (codeUnits c ++ ·) := by
  unfold escapeChar
  -- the five characters with a letter of their own
  iterate 5
    split
    · rename_i h
      rw [eq_of_beq h]
      rfl
  split
  · rename_i h
    obtain rfl := eq_of_beq h
    obtain rfl | rfl := hquote <;> rfl
  split
  · rename_i h
    have hsmall : c.toNat < 0x10000 := by
      simp only [isControl, Bool.or_eq_true, Bool.and_eq_true, decide_eq_true_eq] at h
      omega
    rw [String.toList_append, codeUnits_of_isControl h]
    exact unquote_fourHexCapitals quote hsmall rest
  · rename_i hslash _ _ _ _ hother hcontrol
    have hline := endsLine_eq_false (Bool.eq_false_iff.mpr hcontrol) hc
    have hchar : c.toString.toList = [c] := String.toList_singleton c
    rw [hchar, List.singleton_append, unquote_cons (mt beq_iff_eq.mpr hslash), if_neg hother,
      hline, if_neg Bool.false_ne_true]

/-- A separator is written as it is, and ends the line. -/
theorem unquote_separator {quote c : Char} (hquote : quote = '"' ∨ quote = '\'')
    (hc : isSeparator c = true) (rest : List Char) :
    unquote quote ((escapeChar quote c).toList ++ rest) = none := by
  obtain h | h := Bool.or_eq_true_iff.mp hc <;> obtain rfl := eq_of_beq h <;>
    obtain rfl | rfl := hquote <;> rfl

/-! ## Whole literals -/

/-- **Several characters between quotes** read back exactly if there is no separator among them. -/
theorem unquote_escaped {quote : Char} (hquote : quote = '"' ∨ quote = '\'') (cs : List Char) :
    unquote quote ((cs.flatMap fun c => (escapeChar quote c).toList) ++ [quote]) =
      if cs.any isSeparator then none else some (cs.flatMap codeUnits) := by
  induction cs with
  | nil => obtain rfl | rfl := hquote <;> rfl
  | cons c cs ih =>
    rw [List.flatMap_cons, List.append_assoc, List.any_cons]
    cases hc : isSeparator c with
    | true => rw [unquote_separator hquote hc, Bool.true_or, if_pos rfl]
    | false =>
      rw [unquote_escapeChar hquote hc, ih, Bool.false_or]
      split <;> simp

theorem stringValue?_stringLiteral (s : String) : stringValue? (stringLiteral s) =
    if s.toList.any isSeparator then none else some (stringUnits s) := by
  have htext : (stringLiteral s).toList =
      '"' :: ((s.toList.flatMap fun c => (escapeChar '"' c).toList) ++ ['"']) := by
    simp [stringLiteral, String.toList_join, List.flatMap, Function.comp_def]
  rw [stringValue?, htext]
  exact unquote_escaped (.inl rfl) s.toList

theorem length_codeUnits (c : Char) :
    (codeUnits c).length = if c.toNat < 0x10000 then 1 else 2 := by
  rw [codeUnits]
  split <;> rfl

theorem charValue?_charLiteral (c : Char) : charValue? (charLiteral c) =
    if c.toNat < 0x10000 ∧ isSeparator c = false then some (codeUnits c) else none := by
  have htext : (charLiteral c).toList = '\'' :: ((escapeChar '\'' c).toList ++ ['\'']) := by
    simp [charLiteral]
  rw [charValue?, htext]
  cases hc : isSeparator c with
  | true => simp [unquote_separator (.inr rfl) hc]
  | false =>
    have hend : unquote '\'' ['\''] = some [] := rfl
    by_cases hsmall : c.toNat < 0x10000 <;>
      simp [unquote_escapeChar (.inr rfl) hc, hend, Option.filter, length_codeUnits, hsmall]

theorem isSeparator_eq_false_iff {c : Char} :
    isSeparator c = false ↔ c ≠ '\u2028' ∧ c ≠ '\u2029' := by
  simp [isSeparator]

end Text

/-- **When a constant between quotes survives.**  The literal of a string is read as its code units
exactly if it holds no line and no paragraph separator, and the literal of a character is read as
the character exactly if this is neither of them and has a single code unit. -/
theorem literal_decodes_iff (g : Graph) (t : Ty) :
    (∀ s : String, Text.stringValue? (g.literal t (.string s)) = some (Text.stringUnits s) ↔
      ∀ c ∈ s.toList, c ≠ '\u2028' ∧ c ≠ '\u2029') ∧
      ∀ c : Char, Text.charValue? (g.literal t (.char c)) = some (Text.codeUnits c) ↔
        c.toNat < 0x10000 ∧ c ≠ '\u2028' ∧ c ≠ '\u2029' := by
  refine ⟨fun s => ?_, fun c => ?_⟩
  · rw [Graph.literal, Text.stringValue?_stringLiteral]
    simp [← Text.isSeparator_eq_false_iff]
  · rw [Graph.literal, Text.charValue?_charLiteral]
    simp [← Text.isSeparator_eq_false_iff]

/-- Both quotes, an escape before a digit, a control character and a surrogate pair. -/
theorem literal_decodes_mixed :
    Text.stringValue? (Graph.literal { decls := [] } .dynamic (.string "\"'\x001\u0085😀")) =
      some [0x22, 0x27, 0, 0x31, 0x85, 0xD83D, 0xDE00] ∧
      Text.charValue? (Graph.literal { decls := [] } .dynamic (.char '\'')) = some [0x27] :=
  ⟨((literal_decodes_iff { decls := [] } .dynamic).1 "\"'\x001\u0085😀").mpr (by simp),
    ((literal_decodes_iff { decls := [] } .dynamic).2 '\'').mpr (by decide)⟩

/-! Labels with a separator and with a character of two code units. -/

namespace Label

/-- The method with the defaults. -/
def print : MethodDoc :=
  { name := "Print", accessibility := "public", flags := {}, typeParams := []
    params := [
      ⟨"text", "System.String", .none, some (.string "\u2028"), false, none⟩,
      ⟨"mark", "System.Char", .none, some (.object [("char", .string "😀")]), false, none⟩]
    returns := "void", attributes := [], location := none }

/-- A printer of labels. -/
def docs : List GraphDocument :=
  [{ coreLibrary := false, usings := []
     types := [
      CoreLibrary.classType "System" "String", CoreLibrary.structType "System" "Char",
      { CoreLibrary.classType "Shop" "Printer" with methods := [print] }] }]

/-- Whether the documents load with one method of the defaults. -/
def check : Bool :=
  match load docs with
  | .error _ => false
  | .ok g => g.methods.any fun m =>
      m.params.map (·.default?) == [some (.string "\u2028"), some (.char '😀')]

end Label

/-- **Two constants that do not survive**: the literal of the first one ends with the line, and that
of the second one holds two code units. -/
theorem literals_break : ∃ g, load Label.docs = .ok g ∧ ∃ m ∈ g.methods, ∃ text mark,
    m.params = [text, mark] ∧ text.default? = some (.string "\u2028") ∧
      Text.stringValue? (g.literal text.type (.string "\u2028")) = none ∧
      mark.default? = some (.char '😀') ∧
      Text.charValue? (g.literal mark.type (.char '😀')) = none := by
  have hcheck : Label.check = true := by decide +kernel
  rw [Label.check] at hcheck
  split at hcheck
  · cases hcheck
  rename_i g hload
  obtain ⟨m, hm, hdefaults⟩ := List.any_eq_true.mp hcheck
  obtain ⟨text, rest, hparams, htext, hrest⟩ := List.map_eq_cons_iff.mp (eq_of_beq hdefaults)
  obtain ⟨mark, rest, rfl, hmark, hnil⟩ := List.map_eq_cons_iff.mp hrest
  obtain rfl := List.map_eq_nil_iff.mp hnil
  refine ⟨g, hload, m, hm, text, mark, hparams, htext, ?_, hmark, ?_⟩
  · rw [Graph.literal, Text.stringValue?_stringLiteral]
    decide
  · rw [Graph.literal, Text.charValue?_charLiteral]
    decide

end LateBridge
