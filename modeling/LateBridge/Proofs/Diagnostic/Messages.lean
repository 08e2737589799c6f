import LateBridge.Diagnostic.Basic
import LateBridge.Proofs.Text.Splitting

/-!
# Proofs/Diagnostic/Messages — arguments in messages

    template ──fill──▸ text         one round for each argument
        ╰───fillOnce──▸ text        one reading for all of them

A template is filled one argument after the other, and each round reads the whole text again, with
the arguments of the rounds before.  Two readings amount to one (`fillingFrom_fillingFrom`) as long
as the second finds no slot that an argument of the first brought in or completed, and so do all of
them (`fill_eq_fillOnce`).  The templates of the rules have no braces but those of their slots
(`slotsOnly_template`), so there it is enough that no argument but the last has an opening brace.
-/

namespace LateBridge

namespace Text

/-! ## Reading a template once -/

/-- The numbered argument whose slot stands at the front. -/
def slotAt? (args : List (String × Nat)) (cs : List Char) : Option (String × Nat) :=
  args.find? fun p => (slot p.2).toList.isPrefixOf cs

/-- **Every slot replaced by its argument** in one reading, from left to right; `skip` counts the
characters of the last slot still to be passed. -/
def fillingFrom (args : List (String × Nat)) : Nat → List Char → List Char
  | _, [] => []
  | skip + 1, _ :: rest => fillingFrom args skip rest
  | 0, c :: rest =>
    match slotAt? args (c :: rest) with
    | some (arg, i) => arg.toList ++ fillingFrom args ((slot i).toList.length - 1) rest
    | none => c :: fillingFrom args 0 rest

/-- **A template filled in one reading**: what stands in the arguments is not read. -/
def fillOnce (template : String) (args : List String) : String :=
  String.ofList (fillingFrom args.zipIdx 0 template.toList)

/-! ## Slots -/

theorem toList_slot (i : Nat) :
    (slot i).toList = '\x7b' :: (Nat.toDigits 10 i ++ ['\x7d']) := by
  rw [slot, String.toList_append, String.toList_append, toList_toString]
  rfl

/-- **One slot at most stands at the front of a text.** -/
theorem slot_unique {i j : Nat} {rest rest' : List Char}
    (h : (slot i).toList ++ rest = (slot j).toList ++ rest') : i = j := by
  simp only [toList_slot, List.cons_append, List.append_assoc] at h
  obtain ⟨hdigits, -⟩ := append_inj_of_all isDigit_of_mem_digits isDigit_of_mem_digits (by simp)
    (by simp) (List.cons.inj h).2
  exact digits_injective hdigits

/-- A text starts with a slot. -/
def StartsWithSlot (cs : List Char) : Prop := ∃ i rest, cs = (slot i).toList ++ rest

theorem StartsWithSlot.head_eq {c : Char} {rest : List Char} (h : StartsWithSlot (c :: rest)) :
    c = '\x7b' := by
  obtain ⟨i, rest', heq⟩ := h
  rw [toList_slot] at heq
  exact (List.cons.inj heq).1

theorem slotAt?_slot (args : List (String × Nat)) (i : Nat) (rest : List Char) :
    slotAt? args ((slot i).toList ++ rest) = args.find? (·.2 == i) := by
  have hsame (j : Nat) : (slot j).toList.isPrefixOf ((slot i).toList ++ rest) = (j == i) := by
    rw [Bool.eq_iff_iff, List.isPrefixOf_iff_prefix, beq_iff_eq]
    constructor
    · rintro ⟨rest', hrest'⟩
      exact slot_unique hrest'
    · rintro rfl
      exact ⟨rest, rfl⟩
  simp only [slotAt?, hsame]

theorem slotAt?_eq_none (args : List (String × Nat)) {cs : List Char} (h : ¬ StartsWithSlot cs) :
    slotAt? args cs = none := by
  rw [slotAt?, List.find?_eq_none]
  intro p _ hprefix
  obtain ⟨rest, hrest⟩ := List.isPrefixOf_iff_prefix.mp hprefix
  exact h ⟨p.2, rest, hrest.symm⟩

/-! ## One step of the reading -/

/-- What stands for a slot afterwards: its argument, or itself if it has none. -/
def filled (args : List (String × Nat)) (i : Nat) : List Char :=
  match args.find? (·.2 == i) with
  | some p => p.1.toList
  | none => (slot i).toList

theorem fillingFrom_skip (args : List (String × Nat)) (front rest : List Char) :
    fillingFrom args front.length (front ++ rest) = fillingFrom args 0 rest := by
  induction front with
  | nil => rfl
  | cons c front ih => exact ih

theorem fillingFrom_cons (args : List (String × Nat)) {c : Char} {rest : List Char}
    (h : ¬ StartsWithSlot (c :: rest)) :
    fillingFrom args 0 (c :: rest) = c :: fillingFrom args 0 rest := by
  rw [fillingFrom, slotAt?_eq_none args h]

/-- **A text without an opening brace stays.** -/
theorem fillingFrom_append (args : List (String × Nat)) {front : List Char} (h : '\x7b' ∉ front)
    (rest : List Char) :
    fillingFrom args 0 (front ++ rest) = front ++ fillingFrom args 0 rest := by
  induction front with
  | nil => rfl
  | cons c front ih =>
    rw [List.mem_cons, not_or] at h
    have hslot : ¬ StartsWithSlot (c :: (front ++ rest)) := fun hs => h.1 hs.head_eq.symm
    rw [List.cons_append, fillingFrom_cons args hslot, ih h.2, List.cons_append]

theorem not_mem_digits_append (i : Nat) : '\x7b' ∉ Nat.toDigits 10 i ++ ['\x7d'] := by
  intro hmem
  obtain hmem | hmem := List.mem_append.mp hmem
  · exact not_mem_digits (by decide) i hmem
  · exact absurd (List.mem_singleton.mp hmem) (by decide)

theorem fillingFrom_slot (args : List (String × Nat)) (i : Nat) (rest : List Char) :
    fillingFrom args 0 ((slot i).toList ++ rest) = filled args i ++ fillingFrom args 0 rest := by
  have hfind := slotAt?_slot args i rest
  rw [toList_slot, List.cons_append] at hfind ⊢
  rw [fillingFrom, hfind, filled]
  cases harg : args.find? (·.2 == i) with
  | none =>
    rw [toList_slot, List.cons_append, ← fillingFrom_append args (not_mem_digits_append i)]
  | some p =>
    obtain ⟨arg, j⟩ := p
    have hji : (j == i) = true := List.find?_some (p := fun q : String × Nat => q.2 == i) harg
    obtain rfl := eq_of_beq hji
    have hlength : (slot j).toList.length - 1 = (Nat.toDigits 10 j ++ ['\x7d']).length := by
      rw [toList_slot]
      rfl
    simp only [hlength, fillingFrom_skip]

/-! ## Two readings -/

/-- Every opening brace starts a slot. -/
def SlotsOnly (cs : List Char) : Prop :=
  ∀ rest, '\x7b' :: rest <:+ cs → StartsWithSlot ('\x7b' :: rest)

theorem slotsOnly_cons {c : Char} {rest : List Char} :
    SlotsOnly (c :: rest) ↔ (c = '\x7b' → StartsWithSlot (c :: rest)) ∧ SlotsOnly rest := by
  constructor
  · intro h
    refine ⟨?_, fun tail htail => h tail (htail.trans (List.suffix_cons c rest))⟩
    rintro rfl
    exact h rest (List.suffix_refl _)
  · rintro ⟨hc, hrest⟩ tail htail
    obtain heq | htail := List.suffix_cons_iff.mp htail
    · obtain ⟨rfl, rfl⟩ := List.cons.inj heq
      exact hc rfl
    · exact hrest tail htail

theorem slotsOnly_append {front : List Char} (h : '\x7b' ∉ front) {rest : List Char} :
    SlotsOnly (front ++ rest) ↔ SlotsOnly rest := by
  induction front with
  | nil => rfl
  | cons c front ih =>
    rw [List.mem_cons, not_or] at h
    rw [List.cons_append, slotsOnly_cons, ih h.2]
    exact and_iff_right fun hc => absurd hc.symm h.1

theorem slotsOnly_of_not_mem {cs : List Char} (h : '\x7b' ∉ cs) : SlotsOnly cs :=
  fun _ htail => absurd (htail.mem List.mem_cons_self) h

theorem slotsOnly_slot (i : Nat) {rest : List Char} :
    SlotsOnly ((slot i).toList ++ rest) ↔ SlotsOnly rest := by
  have hslot : StartsWithSlot ((slot i).toList ++ rest) := ⟨i, rest, rfl⟩
  rw [toList_slot, List.cons_append] at hslot ⊢
  rw [slotsOnly_cons, slotsOnly_append (not_mem_digits_append i)]
  exact and_iff_right fun _ => hslot

/-- A literal matches this with the list of its characters, which need not be decoded. -/
theorem not_mem_toList {c : Char} {cs : List Char} (h : c ∉ cs) :
    c ∉ (String.ofList cs).toList := by
  rwa [String.toList_ofList]

/-- The templates of the rules have no braces but those of their slots. -/
theorem slotsOnly_template (rule : Rule) : SlotsOnly rule.template.toList := by
  have hid (s : String) : toString s = s := rfl
  cases rule <;> unfold Rule.template <;>
    simp (disch := refine not_mem_toList ?_; decide +kernel) only [hid, String.toList_append,
      List.append_assoc, slotsOnly_append, slotsOnly_slot, slotsOnly_of_not_mem]

/-- No slot reaches into the text from in front of it and ends there: what follows its leading
digits is no closing brace. -/
def Blocks (arg : String) : Prop :=
  ∃ c ∈ (arg.toList.dropWhile Char.isDigit).head?, c ≠ '\x7d'

/-- **An argument that a second reading of a template keeps.** -/
def Kept (template : List Char) (arg : String) : Prop :=
  '\x7b' ∉ arg.toList ∧ (SlotsOnly template ∨ Blocks arg)

theorem Kept.of_append {arg : String} (front : List Char) {rest : List Char}
    (h : Kept (front ++ rest) arg) : Kept rest arg :=
  ⟨h.1, h.2.imp_left fun hslots _ htail => hslots _ (htail.trans (List.suffix_append front rest))⟩

theorem Blocks.not_isPrefixOf {arg : String} (h : Blocks arg) {ds : List Char}
    (hds : ∀ d ∈ ds, d.isDigit = true) (rest : List Char) :
    ¬ ds ++ ['\x7d'] <+: arg.toList ++ rest := by
  rintro ⟨tail, heq⟩
  obtain ⟨c, hc, hne⟩ := h
  obtain ⟨after, hafter⟩ := List.head?_eq_some_iff.mp hc
  have hstop : c.isDigit = false := by
    have hnot := List.head?_dropWhile_not Char.isDigit arg.toList
    rwa [hafter] at hnot
  rw [← List.takeWhile_append_dropWhile (p := Char.isDigit) (l := arg.toList), hafter] at heq
  simp only [List.append_assoc, List.cons_append, List.nil_append] at heq
  obtain ⟨-, hrest⟩ := append_inj_of_all hds (fun _ => List.mem_takeWhile_imp) (by simp)
    (by simp [hstop]) heq
  exact hne (List.cons.inj hrest).1.symm

/-- What stands for a slot afterwards does not end a slot begun before. -/
theorem not_prefix_filled {args : List (String × Nat)} (hargs : ∀ p ∈ args, Blocks p.1)
    {ds : List Char} (hds : ∀ d ∈ ds, d.isDigit = true) (i : Nat) (rest : List Char) :
    ¬ ds ++ ['\x7d'] <+: filled args i ++ rest := by
  rw [filled]
  cases harg : args.find? (·.2 == i) with
  | some p => exact (hargs p (List.mem_of_find?_eq_some harg)).not_isPrefixOf hds rest
  | none =>
    rintro ⟨tail, heq⟩
    rw [toList_slot] at heq
    cases ds with
    | nil => exact absurd (List.cons.inj heq).1 (by decide)
    | cons d ds =>
      have hd := hds d List.mem_cons_self
      rw [(List.cons.inj heq).1] at hd
      exact absurd hd (by decide)

/-- The end of a slot that the first reading leaves behind was there before. -/
theorem prefix_of_prefix_fillingFrom {args : List (String × Nat)}
    (hargs : ∀ p ∈ args, Blocks p.1) {ds rest : List Char} (hds : ∀ d ∈ ds, d.isDigit = true)
    (h : ds ++ ['\x7d'] <+: fillingFrom args 0 rest) : ds ++ ['\x7d'] <+: rest := by
  induction rest generalizing ds with
  | nil => exact h
  | cons c rest ih =>
    by_cases hslot : StartsWithSlot (c :: rest)
    · obtain ⟨i, after, heq⟩ := hslot
      rw [heq, fillingFrom_slot] at h
      exact absurd h (not_prefix_filled hargs hds i _)
    · rw [fillingFrom_cons args hslot] at h
      cases ds with
      | nil =>
        obtain ⟨hc, -⟩ := List.cons_prefix_cons.mp h
        exact List.cons_prefix_cons.mpr ⟨hc, List.nil_prefix⟩
      | cons d ds =>
        obtain ⟨hc, hrest⟩ := List.cons_prefix_cons.mp h
        exact List.cons_prefix_cons.mpr
          ⟨hc, ih (fun e he => hds e (List.mem_cons_of_mem d he)) hrest⟩

/-- The first reading starts no slot in front of what it leaves behind. -/
theorem not_startsWithSlot_fillingFrom {args : List (String × Nat)} {c : Char} {rest : List Char}
    (hargs : ∀ p ∈ args, Kept (c :: rest) p.1) (h : ¬ StartsWithSlot (c :: rest)) :
    ¬ StartsWithSlot (c :: fillingFrom args 0 rest) := by
  intro hslot
  obtain rfl := hslot.head_eq
  have hblocks (p : String × Nat) (hp : p ∈ args) : Blocks p.1 :=
    (hargs p hp).2.resolve_left fun hslots => h (hslots rest (List.suffix_refl _))
  obtain ⟨i, after, heq⟩ := hslot
  rw [toList_slot, List.cons_append] at heq
  have hprefix : Nat.toDigits 10 i ++ ['\x7d'] <+: fillingFrom args 0 rest :=
    ⟨after, (List.cons.inj heq).2.symm⟩
  obtain ⟨after', hafter⟩ := prefix_of_prefix_fillingFrom hblocks isDigit_of_mem_digits hprefix
  exact h ⟨i, after', by rw [toList_slot, List.cons_append, hafter]⟩

/-- **Two readings amount to one**, if the second keeps the arguments of the first. -/
theorem fillingFrom_fillingFrom {first : List (String × Nat)} (second : List (String × Nat))
    {cs : List Char} (hfirst : ∀ p ∈ first, Kept cs p.1) :
    fillingFrom second 0 (fillingFrom first 0 cs) = fillingFrom (first ++ second) 0 cs := by
  induction hn : cs.length using Nat.strong_induction_on generalizing cs with
  | _ n ih =>
    subst hn
    by_cases hslot : StartsWithSlot cs
    · obtain ⟨i, rest, rfl⟩ := hslot
      have hrest := ih rest.length (by simp [toList_slot]; omega)
        (fun p hp => (hfirst p hp).of_append _) rfl
      rw [fillingFrom_slot, fillingFrom_slot, ← hrest, filled, filled, List.find?_append]
      cases harg : first.find? (·.2 == i) with
      | none =>
        rw [fillingFrom_slot, filled]
        rfl
      | some p =>
        exact fillingFrom_append second (hfirst p (List.mem_of_find?_eq_some harg)).1 _
    · cases cs with
      | nil => rfl
      | cons c rest =>
        have hrest := ih rest.length (by simp)
          (fun p hp => (hfirst p hp).of_append [c]) rfl
        have hkept := not_startsWithSlot_fillingFrom hfirst hslot
        rw [fillingFrom_cons first hslot, fillingFrom_cons second hkept,
          fillingFrom_cons (first ++ second) hslot, hrest]

/-! ## All rounds -/

theorem replaceFrom_eq_fillingFrom (i : Nat) (arg : String) (skip : Nat) (cs : List Char) :
    replaceFrom (slot i).toList arg.toList skip cs = fillingFrom [(arg, i)] skip cs := by
  induction cs generalizing skip with
  | nil => cases skip <;> rfl
  | cons c cs ih =>
    cases skip with
    | succ skip => exact ih skip
    | zero =>
      rw [replaceFrom, fillingFrom, slotAt?, List.find?_singleton, ih, ih]
      split <;> rfl

/-- The rounds from an argument on, after one reading with the arguments before. -/
theorem fillFrom_eq (template : List Char) (before : List (String × Nat)) (args : List String)
    (hbefore : args ≠ [] → ∀ p ∈ before, Kept template p.1)
    (hargs : ∀ arg ∈ args.dropLast, Kept template arg) (number : Nat) :
    fillFrom (String.ofList (fillingFrom before 0 template)) number args =
      String.ofList (fillingFrom (before ++ args.zipIdx number) 0 template) := by
  induction args generalizing before number with
  | nil => simp [fillFrom]
  | cons arg rest ih =>
    rw [fillFrom, replaceAll, String.toList_ofList, replaceFrom_eq_fillingFrom,
      fillingFrom_fillingFrom _ (hbefore (List.cons_ne_nil _ _)), ih]
    · rw [List.zipIdx_cons, List.append_assoc, List.singleton_append]
    · intro hrest p hp
      obtain hp | hp := List.mem_append.mp hp
      · exact hbefore (List.cons_ne_nil _ _) p hp
      · rw [List.mem_singleton.mp hp]
        rw [List.dropLast_cons_of_ne_nil hrest] at hargs
        exact hargs arg List.mem_cons_self
    · intro other hother
      have hne : rest ≠ [] := by rintro rfl; cases hother
      rw [List.dropLast_cons_of_ne_nil hne] at hargs
      exact hargs other (List.mem_cons_of_mem _ hother)

theorem fillingFrom_nil (cs : List Char) : fillingFrom [] 0 cs = cs := by
  induction cs with
  | nil => rfl
  | cons c cs ih => rw [fillingFrom, slotAt?, List.find?_nil, ih]

/-- **When filling is verbatim.**  The template filled one argument after the other is the template
filled in one reading, if every argument but the last holds no opening brace, and completes no slot:
either the template has no opening braces but those of its slots, or what follows the leading digits
of the argument is no closing brace. -/
theorem fill_eq_fillOnce {template : String} {args : List String}
    (hargs : ∀ arg ∈ args.dropLast, Kept template.toList arg) :
    fill template args = fillOnce template args := by
  have h := fillFrom_eq template.toList [] args (by simp) hargs 0
  rwa [fillingFrom_nil, String.ofList_toList, List.nil_append] at h

/-- The same argument twice; and the message of a rule, where the braces of the template are those of
its slots. -/
theorem fill_eq_fillOnce_repeated :
    fill "Method '\x7b0\x7d' uses '\x7b1\x7d' twice: \x7b1\x7d" ["Get", "T"] =
      fillOnce "Method '\x7b0\x7d' uses '\x7b1\x7d' twice: \x7b1\x7d" ["Get", "T"] ∧
    fill (Rule.template .pointerNeedsDispatch) ["int*", "Get"] =
      fillOnce (Rule.template .pointerNeedsDispatch) ["int*", "Get"] := by
  refine ⟨fill_eq_fillOnce fun arg harg => ?_, fill_eq_fillOnce fun arg harg => ?_⟩
  · obtain rfl := List.mem_singleton.mp harg
    exact ⟨by decide, .inr ⟨'G', rfl, by decide⟩⟩
  · obtain rfl := List.mem_singleton.mp harg
    exact ⟨by decide, .inl (slotsOnly_template .pointerNeedsDispatch)⟩

/-- **An argument that is read as a template**: the second round fills a slot that the first
argument brings in, or that it completes. -/
theorem fill_ne_fillOnce :
    fill "\x7b0\x7d and \x7b1\x7d" ["\x7b1\x7d", "x"] = "x and x" ∧
      fillOnce "\x7b0\x7d and \x7b1\x7d" ["\x7b1\x7d", "x"] = "\x7b1\x7d and x" ∧
      fill "\x7b\x7b0\x7d\x7d" ["1", "x"] = "x" ∧
      fillOnce "\x7b\x7b0\x7d\x7d" ["1", "x"] = "\x7b1\x7d" := by
  decide

end Text

end LateBridge
