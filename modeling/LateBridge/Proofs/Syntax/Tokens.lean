import LateBridge.Proofs.Syntax.Grammar
import Mathlib.Data.List.DropRight

/-!
# Proofs/Syntax/Tokens — one token at a time

What a text spells does not change with the blanks at its ends (`Spells.congr`), so that a reader
may skip them when it likes.  Each step that reads a token is described once by the token it reads:
`afterWord?_eq_some` for keywords, `expect_eq_ok` for marks, `identifier_eq_ok` for names.  A name
is as long as it can be, which leaves one token for each text.
-/

namespace LateBridge

open Text (skipBlanks isBlank isNameChar isName isAsciiDigit)

/-! ## Blanks -/

namespace Text

@[simp] theorem skipBlanks_skipBlanks (cs : List Char) :
    skipBlanks (skipBlanks cs) = skipBlanks cs :=
  List.dropWhile_idempotent isBlank cs

theorem skipBlanks_of_visible {c : Char} (h : isBlank c = false) (cs : List Char) :
    skipBlanks (c :: cs) = c :: cs := by
  rw [skipBlanks, List.dropWhile_cons_of_neg (by simp [h])]

theorem skipBlanks_of_blank {c : Char} (h : isBlank c = true) (cs : List Char) :
    skipBlanks (c :: cs) = skipBlanks cs :=
  List.dropWhile_cons_of_pos h

theorem length_skipBlanks_le (cs : List Char) : (skipBlanks cs).length ≤ cs.length :=
  List.length_dropWhile_le _ cs

/-- No blank may stand in a name. -/
theorem isBlank_of_isNameChar {c : Char} (h : isNameChar c = true) : isBlank c = false := by
  have htable : ∀ n ∈ [9, 10, 11, 12, 13, 0x20, 0x85, 0xA0, 0x1680, 0x2000, 0x2001, 0x2002, 0x2003,
      0x2004, 0x2005, 0x2006, 0x2007, 0x2008, 0x2009, 0x200A, 0x2028, 0x2029, 0x202F, 0x205F,
      0x3000], isNameChar (Char.ofNat n) = false := by decide +kernel
  by_contra hblank
  have hmem : c.toNat ∈ [9, 10, 11, 12, 13, 0x20, 0x85, 0xA0, 0x1680, 0x2000, 0x2001, 0x2002,
      0x2003, 0x2004, 0x2005, 0x2006, 0x2007, 0x2008, 0x2009, 0x200A, 0x2028, 0x2029, 0x202F,
      0x205F, 0x3000] := by
    simp only [isBlank, Bool.not_eq_false, Bool.or_eq_true, Bool.and_eq_true, decide_eq_true_eq,
      beq_iff_eq] at hblank
    simp only [List.mem_cons, List.not_mem_nil, or_false]
    omega
  have hname := htable c.toNat hmem
  rw [Char.ofNat_toNat, h] at hname
  cases hname

/-- The characters of a name. -/
theorem isName_iff {name : String} : isName name = true ↔
    (∃ c cs, name.toList = c :: cs ∧ isAsciiDigit c = false) ∧
      ∀ c ∈ name.toList, isNameChar c = true := by
  rw [isName]
  split
  · rename_i hnil
    simp [hnil]
  · rename_i c cs hcons
    rw [hcons, Bool.and_eq_true, Bool.not_eq_true', List.all_eq_true]
    refine and_congr_left fun _ => ⟨fun hc => ⟨c, cs, rfl, hc⟩, ?_⟩
    rintro ⟨d, ds, heq, hd⟩
    obtain ⟨rfl, -⟩ := List.cons.inj heq
    exact hd

end Text

/-! ## Spelling -/

theorem TypeToken.Proper.exists_visible {token : TypeToken} (h : token.Proper) :
    ∃ c cs, token.chars = c :: cs ∧ isBlank c = false := by
  cases token with
  | word name =>
    obtain ⟨⟨c, cs, hcons, -⟩, hall⟩ := Text.isName_iff.mp h
    exact ⟨c, cs, hcons, Text.isBlank_of_isNameChar (hall c (hcons ▸ List.mem_cons_self))⟩
  | escaped name => exact ⟨'@', _, rfl, by decide⟩
  | root => exact ⟨'g', _, rfl, by decide⟩
  | mark c => exact ⟨c, _, rfl, h⟩
  | convention text => exact ⟨'[', _, rfl, by decide⟩

namespace Spells

variable {tokens : List TypeToken} {cs cs' rest rest' : List Char}

/-- **Blanks at the ends do not matter.** -/
theorem congr (h : Spells tokens cs rest) (hcs : skipBlanks cs = skipBlanks cs')
    (hrest : skipBlanks rest = skipBlanks rest') : Spells tokens cs' rest' := by
  induction tokens generalizing cs cs' with
  | nil => exact hcs.symm.trans (Eq.trans h hrest)
  | cons token tokens ih =>
    obtain ⟨mid, hmid, hends, hmore⟩ := h
    exact ⟨mid, hcs.symm.trans hmid, hends, ih hmore rfl⟩

theorem skipped (h : Spells tokens cs rest) : Spells tokens (skipBlanks cs) rest :=
  h.congr (Text.skipBlanks_skipBlanks cs).symm rfl

theorem append {more : List TypeToken} {mid : List Char} (h : Spells tokens cs mid)
    (hmore : Spells more mid rest) : Spells (tokens ++ more) cs rest := by
  induction tokens generalizing cs with
  | nil => exact hmore.congr (Eq.symm h) rfl
  | cons token tokens ih =>
    obtain ⟨after, hafter, hends, h⟩ := h
    exact ⟨after, hafter, hends, ih h⟩

theorem exists_of_append {more : List TypeToken} (h : Spells (tokens ++ more) cs rest) :
    ∃ mid, Spells tokens cs mid ∧ Spells more mid rest := by
  induction tokens generalizing cs with
  | nil => exact ⟨cs, rfl, h⟩
  | cons token tokens ih =>
    obtain ⟨after, hafter, hends, h⟩ := h
    obtain ⟨mid, htokens, hmore⟩ := ih h
    exact ⟨mid, ⟨after, hafter, hends, htokens⟩, hmore⟩

/-- A mark is a single character. -/
theorem mark {c : Char} (h : skipBlanks cs = c :: cs') (hmore : Spells tokens cs' rest) :
    Spells (.mark c :: tokens) cs rest :=
  ⟨cs', h, trivial, hmore⟩

theorem exists_of_mark {c : Char} (h : Spells (.mark c :: tokens) cs rest) :
    ∃ mid, skipBlanks cs = c :: mid ∧ Spells tokens mid rest := by
  obtain ⟨mid, hmid, -, h⟩ := h
  exact ⟨mid, hmid, h⟩

theorem length_le (h : Spells tokens cs rest) : (skipBlanks rest).length ≤ cs.length := by
  refine Nat.le_trans ?_ (Text.length_skipBlanks_le cs)
  induction tokens generalizing cs with
  | nil => exact Nat.le_of_eq (congrArg _ (Eq.symm h))
  | cons token tokens ih =>
    obtain ⟨mid, hmid, -, h⟩ := h
    have hle := Nat.le_trans (ih h) (Text.length_skipBlanks_le mid)
    rw [hmid, List.length_append]
    omega

/-- A token written at the front of a text. -/
theorem cons_append {token : TypeToken} (htoken : token.Proper) (hends : token.EndsBefore cs)
    (h : Spells tokens cs rest) : Spells (token :: tokens) (token.chars ++ cs) rest := by
  obtain ⟨c, chars, hchars, hvisible⟩ := htoken.exists_visible
  refine ⟨cs, ?_, hends, h⟩
  rw [hchars, List.cons_append, Text.skipBlanks_of_visible hvisible]

end Spells

/-- **Every proper list of tokens has a spelling.** -/
theorem exists_spells {tokens : List TypeToken} (h : ∀ token ∈ tokens, token.Proper) :
    ∃ cs, Spells tokens (' ' :: cs) [] := by
  induction tokens with
  | nil => exact ⟨[], rfl⟩
  | cons token tokens ih =>
    obtain ⟨htoken, htokens⟩ := List.forall_mem_cons.mp h
    obtain ⟨cs, hcs⟩ := ih htokens
    refine ⟨token.chars ++ ' ' :: cs, ?_⟩
    refine (hcs.cons_append htoken ?_).congr (Text.skipBlanks_of_blank (by decide) _).symm rfl
    cases token <;> simp [TypeToken.EndsBefore] <;> decide

/-! ## What comes next -/

/-- A text whose first character, blanks aside, is one of some characters, or that has none. -/
def StartsIn (allowed cs : List Char) : Prop := ∀ c ∈ (skipBlanks cs).head?, c ∈ allowed

theorem startsIn_nil (allowed : List Char) : StartsIn allowed [] := fun _ h => nomatch h

theorem startsIn_of_eq {allowed cs rest : List Char} {c : Char} (h : skipBlanks cs = c :: rest)
    (hc : c ∈ allowed) : StartsIn allowed cs := by
  intro d hd
  rw [h, List.head?_cons, Option.mem_some_iff] at hd
  exact hd ▸ hc

theorem StartsIn.mem {allowed cs rest : List Char} {c : Char} (h : StartsIn allowed cs)
    (hcs : skipBlanks cs = c :: rest) : c ∈ allowed :=
  h c (by rw [hcs]; rfl)

theorem StartsIn.ne {allowed cs : List Char} {c : Char} (h : StartsIn allowed cs)
    (hc : c ∉ allowed) (rest : List Char) : skipBlanks cs ≠ c :: rest :=
  fun hcs => hc (h.mem hcs)

theorem StartsIn.mono {allowed more cs : List Char} (h : StartsIn allowed cs)
    (hsub : ∀ c ∈ allowed, c ∈ more) : StartsIn more cs :=
  fun c hc => hsub c (h c hc)

theorem StartsIn.congr {allowed cs cs' : List Char} (h : StartsIn allowed cs)
    (hcs : skipBlanks cs = skipBlanks cs') : StartsIn allowed cs' := by
  intro c hc
  exact h c (hcs ▸ hc)

/-! ## Steps that read a token -/

namespace TypeReader

theorem afterPrefix?_eq_some {word cs rest : List Char} :
    afterPrefix? word cs = some rest ↔ cs = word ++ rest := by
  induction word generalizing cs with
  | nil => simp [afterPrefix?]
  | cons w ws ih =>
    cases cs with
    | nil => simp [afterPrefix?]
    | cons c cs =>
      rw [afterPrefix?, List.cons_append, List.cons.injEq]
      by_cases hw : w = c
      · rw [if_pos (beq_iff_eq.mpr hw), ih, and_iff_right hw.symm]
      · rw [if_neg (mt beq_iff_eq.mp hw)]
        exact ⟨fun h => (nomatch h), fun h => absurd h.1.symm hw⟩

/-- What may stand behind a whole word. -/
theorem endsBefore_cons {word : String} {c : Char} {cs : List Char} :
    (TypeToken.word word).EndsBefore (c :: cs) ↔ isNameChar c = false := by
  simp [TypeToken.EndsBefore]

/-- **A keyword stands alone.** -/
theorem afterWord?_eq_some {word : String} {cs rest : List Char} :
    afterWord? word cs = some rest ↔
      skipBlanks cs = word.toList ++ rest ∧ (TypeToken.word word).EndsBefore rest := by
  rw [← afterPrefix?_eq_some, afterWord?]
  rcases afterPrefix? word.toList (skipBlanks cs) with _ | _ | ⟨c, more⟩
  · simp
  · have hends : (TypeToken.word word).EndsBefore [] := fun _ h => nomatch h
    refine ⟨fun h => ⟨h, Option.some.inj h ▸ hends⟩, And.left⟩
  · by_cases hc : isNameChar c = true
    · have hends : ¬ (TypeToken.word word).EndsBefore (c :: more) := by
        rw [endsBefore_cons, hc]
        exact Bool.noConfusion
      simp only [if_pos hc]
      exact ⟨fun h => (nomatch h), fun h => absurd (Option.some.inj h.1 ▸ h.2) hends⟩
    · have hends : (TypeToken.word word).EndsBefore (c :: more) :=
        endsBefore_cons.mpr (Bool.eq_false_iff.mpr hc)
      simp only [if_neg hc]
      exact ⟨fun h => ⟨h, Option.some.inj h ▸ hends⟩, And.left⟩

theorem expect_eq_ok {c : Char} {reason : Reason} {cs rest : List Char} :
    expect c reason cs = .ok rest ↔ skipBlanks cs = c :: rest := by
  rw [expect]
  rcases skipBlanks cs with _ | ⟨d, more⟩
  · simp
  · by_cases hd : d = c
    · simp [hd]
    · simp [hd]

/-- A name stops where it is said to end. -/
theorem span_name {name : String} {rest : List Char} (hname : isName name = true)
    (hends : (TypeToken.word name).EndsBefore rest) :
    (name.toList ++ rest).takeWhile isNameChar = name.toList ∧
      (name.toList ++ rest).dropWhile isNameChar = rest := by
  have hall := (Text.isName_iff.mp hname).2
  have hstop : rest.takeWhile isNameChar = [] ∧ rest.dropWhile isNameChar = rest := by
    cases rest with
    | nil => exact ⟨rfl, rfl⟩
    | cons c rest => simp [hends c rfl]
  rw [List.takeWhile_append_of_pos hall, List.dropWhile_append_of_pos hall, hstop.1, hstop.2,
    List.append_nil]
  exact ⟨rfl, rfl⟩

/-- The text behind an `@` at its front. -/
def unescaped : List Char → List Char
  | '@' :: rest => rest
  | cs => cs

theorem unescaped_of_ne {c : Char} (h : c ≠ '@') (cs : List Char) :
    unescaped (c :: cs) = c :: cs := by
  rw [unescaped]
  rintro rest hcons
  exact absurd (List.cons.inj hcons).1 h

theorem eq_or_eq_unescaped (cs : List Char) : cs = unescaped cs ∨ cs = '@' :: unescaped cs := by
  unfold unescaped
  split
  · exact .inr rfl
  · exact .inl rfl

/-- A name is the longest run of name characters. -/
theorem identifier_eq (cs : List Char) : identifier cs =
    match (unescaped (skipBlanks cs)).takeWhile isNameChar with
    | [] => .error ⟨.identifier, skipBlanks cs⟩
    | c :: name =>
      if isAsciiDigit c then .error ⟨.identifier, skipBlanks cs⟩
      else .ok (String.ofList (c :: name), (unescaped (skipBlanks cs)).dropWhile isNameChar) :=
  rfl

/-- Without its `@`, a token for a name is the name. -/
theorem unescaped_chars {token : TypeToken} {name : String}
    (h : TypeGrammar.Identifier token name) (rest : List Char) :
    unescaped (token.chars ++ rest) = name.toList ++ rest := by
  obtain ⟨hname, hword | hescaped⟩ := h
  · obtain ⟨⟨c, more, hcons, -⟩, hall⟩ := Text.isName_iff.mp hname
    have hat : isNameChar '@' = false := by decide
    have hne : c ≠ '@' := by
      intro hc
      have hin : isNameChar c = true := hall c (hcons ▸ List.mem_cons_self)
      rw [hc, hat] at hin
      cases hin
    rw [hword, TypeToken.chars_word, hcons, List.cons_append, unescaped_of_ne hne]
  · rw [hescaped, TypeToken.chars_escaped, List.cons_append, unescaped]

/-- A name is read off a text that it starts, with or without an `@` in front. -/
theorem identifier_of_spells {token : TypeToken} {name : String} {cs rest : List Char}
    (h : TypeGrammar.Identifier token name) (hcs : skipBlanks cs = token.chars ++ rest)
    (hends : token.EndsBefore rest) : identifier cs = .ok (name, rest) := by
  have hends : (TypeToken.word name).EndsBefore rest := by
    obtain rfl | rfl := h.2 <;> exact hends
  obtain ⟨htake, hdrop⟩ := span_name h.1 hends
  obtain ⟨⟨c, more, hcons, hdigit⟩, -⟩ := Text.isName_iff.mp h.1
  have hname : String.ofList (c :: more) = name := by rw [← hcons, String.ofList_toList]
  rw [identifier_eq, hcs, unescaped_chars h, htake, hdrop, hcons]
  simp only [hdigit, hname, Bool.false_eq_true, if_false]

theorem exists_of_identifier {name : String} {cs rest : List Char}
    (h : identifier cs = .ok (name, rest)) : ∃ token, TypeGrammar.Identifier token name ∧
      skipBlanks cs = token.chars ++ rest ∧ token.EndsBefore rest := by
  rw [identifier_eq] at h
  have hbody := eq_or_eq_unescaped (skipBlanks cs)
  generalize unescaped (skipBlanks cs) = body at h hbody
  have hstop : ∀ c ∈ (body.dropWhile isNameChar).head?, isNameChar c = false := by
    intro c hc
    have hnot := List.head?_dropWhile_not isNameChar body
    simpa [Option.mem_def.mp hc] using hnot
  split at h
  · cases h
  rename_i c more htake
  split at h
  · cases h
  rename_i hdigit
  obtain ⟨hofList, rfl⟩ := Prod.mk.inj (Except.ok.inj h)
  have hlist : name.toList = c :: more := by rw [← hofList, String.toList_ofList]
  have hall : ∀ d ∈ c :: more, isNameChar d = true :=
    fun d hd => List.mem_takeWhile_imp (htake ▸ hd)
  have hname : isName name = true :=
    Text.isName_iff.mpr ⟨⟨c, more, hlist, Bool.eq_false_iff.mpr hdigit⟩, hlist ▸ hall⟩
  have hspan : name.toList ++ body.dropWhile isNameChar = body := by
    rw [hlist, ← htake, List.takeWhile_append_dropWhile]
  obtain hbody | hbody := hbody
  · refine ⟨.word name, ⟨hname, .inl rfl⟩, ?_, hstop⟩
    rw [TypeToken.chars_word, hspan, hbody]
  · refine ⟨.escaped name, ⟨hname, .inr rfl⟩, ?_, hstop⟩
    rw [TypeToken.chars_escaped, List.cons_append, hspan, hbody]

/-- **A name is read exactly where a token for it stands.** -/
theorem identifier_eq_ok {name : String} {cs rest : List Char} :
    identifier cs = .ok (name, rest) ↔ ∃ token, TypeGrammar.Identifier token name ∧
      skipBlanks cs = token.chars ++ rest ∧ token.EndsBefore rest :=
  ⟨exists_of_identifier, fun ⟨_, hid, hcs, hends⟩ => identifier_of_spells hid hcs hends⟩

end TypeReader

end LateBridge
