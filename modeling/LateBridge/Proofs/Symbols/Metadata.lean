import LateBridge.Document.Resolve
import LateBridge.Proofs.Syntax.Tokens
import LateBridge.Proofs.Text.Splitting
import Mathlib.Algebra.GroupWithZero.Nat
import Mathlib.Data.List.Nodup

/-!
# Proofs/Symbols/Metadata — what a metadata name says

A metadata name is a path of steps from the outermost type inwards, each a stem and a number of type
parameters (`metadata_eq`).  Stems hold neither of the two marks, so that the name determines the
steps (`eq_of_metadata`), and with them how many type parameters there are and which types are
around.  The parameters' names do not show in it.
-/

namespace LateBridge

/-! ## Names -/

namespace Text

/-- **A dotted name**: names with dots between them. -/
def isDotted (text : String) : Bool :=
  (Scope.dotParts text.toList).all fun part => isName (String.ofList part)

/-- A text without the marks of metadata names. -/
def Unmarked (cs : List Char) : Prop := '+' ∉ cs ∧ '`' ∉ cs

theorem unmarked_nil : Unmarked [] := ⟨List.not_mem_nil, List.not_mem_nil⟩

theorem Unmarked.append {as bs : List Char} (ha : Unmarked as) (hb : Unmarked bs) :
    Unmarked (as ++ bs) :=
  ⟨List.not_mem_append ha.1 hb.1, List.not_mem_append ha.2 hb.2⟩

theorem Unmarked.subset {as bs : List Char} (h : Unmarked bs) (hsub : as ⊆ bs) : Unmarked as :=
  ⟨fun hmem => h.1 (hsub hmem), fun hmem => h.2 (hsub hmem)⟩

theorem unmarked_of_nameChars {cs : List Char} (h : ∀ c ∈ cs, c = '.' ∨ isNameChar c = true) :
    Unmarked cs := by
  have hmarks : ∀ mark, mark ≠ '.' → isNameChar mark = false → mark ∉ cs := by
    intro mark hdot hchar hmem
    have hname := (h mark hmem).resolve_left hdot
    exact Bool.false_ne_true (hchar.symm.trans hname)
  exact ⟨hmarks '+' (by decide) (by decide), hmarks '`' (by decide) (by decide)⟩

theorem unmarked_of_isName {name : String} (h : isName name = true) : Unmarked name.toList :=
  unmarked_of_nameChars fun c hc => .inr ((isName_iff.mp h).2 c hc)

theorem dotParts_dot (cs : List Char) :
    Scope.dotParts ('.' :: cs) = [] :: Scope.dotParts cs := rfl

theorem dotParts_ne_nil (cs : List Char) : Scope.dotParts cs ≠ [] := by
  cases cs with
  | nil => exact List.cons_ne_nil _ _
  | cons c cs =>
    rw [Scope.dotParts]
    split
    · exact List.cons_ne_nil _ _
    · split <;> exact List.cons_ne_nil _ _

/-- A character that is no dot belongs to the first part. -/
theorem exists_dotParts_cons {c : Char} (h : c ≠ '.') (cs : List Char) :
    ∃ part parts, Scope.dotParts cs = part :: parts ∧
      Scope.dotParts (c :: cs) = (c :: part) :: parts := by
  obtain ⟨part, parts, hparts⟩ := List.exists_cons_of_ne_nil (dotParts_ne_nil cs)
  refine ⟨part, parts, hparts, ?_⟩
  rw [Scope.dotParts, if_neg (mt beq_iff_eq.mp h), hparts]

/-- A text consists of its dots and its parts. -/
theorem mem_dotParts {c : Char} {cs : List Char} (h : c ∈ cs) :
    c = '.' ∨ ∃ part ∈ Scope.dotParts cs, c ∈ part := by
  induction cs with
  | nil => cases h
  | cons d cs ih =>
    by_cases hd : d = '.'
    · subst hd
      obtain rfl | h := List.mem_cons.mp h
      · exact .inl rfl
      · exact (ih h).imp_right fun ⟨part, hpart, hc⟩ => ⟨part, List.mem_cons_of_mem _ hpart, hc⟩
    · obtain ⟨part, parts, hcs, hdcs⟩ := exists_dotParts_cons hd cs
      rw [hdcs]
      obtain rfl | h := List.mem_cons.mp h
      · exact .inr ⟨_, List.mem_cons_self, List.mem_cons_self⟩
      · obtain hdot | ⟨own, hown, hc⟩ := ih h
        · exact .inl hdot
        · rw [hcs] at hown
          obtain rfl | hown := List.mem_cons.mp hown
          · exact .inr ⟨_, List.mem_cons_self, List.mem_cons_of_mem d hc⟩
          · exact .inr ⟨own, List.mem_cons_of_mem _ hown, hc⟩

theorem unmarked_of_isDotted {text : String} (h : isDotted text = true) :
    Unmarked text.toList := by
  refine unmarked_of_nameChars fun c hc => ?_
  obtain hdot | ⟨part, hpart, hmem⟩ := mem_dotParts hc
  · exact .inl hdot
  · have hname : isName (String.ofList part) = true := List.all_eq_true.mp h part hpart
    refine .inr ((isName_iff.mp hname).2 c ?_)
    rwa [String.toList_ofList]

end Text

namespace DeclName

/-- **A name made of names**: identifiers, in a dotted namespace if in any. -/
def wellNamed : DeclName → Bool
  | top space name _ => space.all Text.isDotted && Text.isName name
  | nested outer name _ => outer.wellNamed && Text.isName name

/-! ## Steps -/

/-- **The steps of a metadata name**: stems with numbers of type parameters, outermost first. -/
def steps : DeclName → List (String × Nat)
  | top space name params => [(spacePrefix space ++ name, params.length)]
  | nested outer name params => outer.steps ++ [(name, params.length)]

/-- How a step is written. -/
def stepText (step : String × Nat) : String := step.1 ++ aritySuffix "`" step.2

theorem steps_ne_nil (n : DeclName) : n.steps ≠ [] := by
  cases n <;> simp [steps]

/-- **A metadata name is its steps.** -/
theorem metadata_eq (n : DeclName) : n.metadata = "+".intercalate (n.steps.map stepText) := by
  induction n with
  | top space name params => simp [metadata, steps, stepText]
  | nested outer name params ih =>
    rw [metadata, steps, List.map_append, String.intercalate_append_of_ne_nil, ← ih]
    · simp [stepText, String.append_assoc]
    · simp [steps_ne_nil]
    · simp

theorem sum_steps (n : DeclName) : (n.steps.map Prod.snd).sum = n.totalArity := by
  induction n with
  | top => simp [steps, totalArity]
  | nested outer name params ih => simp [steps, totalArity, ih]

theorem unmarked_spacePrefix {space : Option String} (h : space.all Text.isDotted = true) :
    Text.Unmarked (spacePrefix space).toList := by
  cases space with
  | none => exact Text.unmarked_nil
  | some text =>
    rw [spacePrefix, String.toList_append]
    exact (Text.unmarked_of_isDotted h).append (by simp [Text.Unmarked])

theorem unmarked_steps {n : DeclName} (h : n.wellNamed = true) :
    ∀ step ∈ n.steps, Text.Unmarked step.1.toList := by
  induction n with
  | top space name params =>
    obtain ⟨hspace, hname⟩ := Bool.and_eq_true_iff.mp h
    refine List.forall_mem_singleton.mpr ?_
    rw [String.toList_append]
    exact (unmarked_spacePrefix hspace).append (Text.unmarked_of_isName hname)
  | nested outer name params ih =>
    obtain ⟨houter, hname⟩ := Bool.and_eq_true_iff.mp h
    exact List.forall_mem_append.mpr
      ⟨ih houter, List.forall_mem_singleton.mpr (Text.unmarked_of_isName hname)⟩

/-- A number behind the second mark, if it is not zero. -/
theorem toList_stepText (step : String × Nat) : (stepText step).toList =
    step.1.toList ++ if step.2 = 0 then [] else '`' :: Nat.toDigits 10 step.2 := by
  rw [stepText, aritySuffix]
  by_cases h : step.2 = 0
  · simp [h]
  · simp [h, Nat.repr_eq_ofList_toDigits]

theorem stepText_injective {a b : String × Nat} (ha : Text.Unmarked a.1.toList)
    (hb : Text.Unmarked b.1.toList) (h : stepText a = stepText b) : a = b := by
  have hlist := congrArg String.toList h
  rw [toList_stepText, toList_stepText] at hlist
  obtain ⟨stem, m⟩ := a
  obtain ⟨stem', n⟩ := b
  by_cases hm : m = 0 <;> by_cases hn : n = 0 <;>
    simp only [hm, hn, if_true, if_false, List.append_nil] at hlist
  · rw [hm, hn, String.toList_inj.mp hlist]
  · rw [hlist] at ha
    exact absurd (List.mem_append_right _ List.mem_cons_self) ha.2
  · rw [← hlist] at hb
    exact absurd (List.mem_append_right _ List.mem_cons_self) hb.2
  · have hdigits : '`' ∉ Nat.toDigits 10 m := Text.not_mem_digits (by decide) m
    obtain ⟨hstem, -, hnum⟩ := (List.append_cons_inj_of_notMem ha.2 hdigits).mp hlist
    exact Prod.ext (String.toList_inj.mp hstem) (Text.digits_injective hnum)

/-- The marked number of a step holds the mark and digits. -/
theorem notMem_number {c : Char} (hmark : c ≠ '`') (hdigit : c.isDigit = false) (n : Nat) :
    c ∉ if n = 0 then [] else '`' :: Nat.toDigits 10 n := by
  split
  · exact List.not_mem_nil
  · intro hmem
    obtain h | h := List.mem_cons.mp hmem
    · exact hmark h
    · exact Text.not_mem_digits hdigit n h

theorem plus_notMem_stepText {step : String × Nat} (h : Text.Unmarked step.1.toList) :
    '+' ∉ (stepText step).toList := by
  rw [toList_stepText]
  exact List.not_mem_append h.1 (notMem_number (by decide) (by decide) _)

theorem map_stepText_injective {as bs : List (String × Nat)}
    (ha : ∀ a ∈ as, Text.Unmarked a.1.toList) (hb : ∀ b ∈ bs, Text.Unmarked b.1.toList)
    (h : as.map stepText = bs.map stepText) : as = bs := by
  induction as generalizing bs with
  | nil => exact (List.map_eq_nil_iff.mp h.symm).symm
  | cons a as ih =>
    obtain ⟨b, bs, rfl, hab, hmore⟩ := List.map_eq_cons_iff.mp h.symm
    obtain ⟨ha, has⟩ := List.forall_mem_cons.mp ha
    obtain ⟨hb, hbs⟩ := List.forall_mem_cons.mp hb
    rw [stepText_injective ha hb hab.symm, ih has hbs hmore.symm]

theorem splitOn_steps {steps : List (String × Nat)}
    (h : ∀ step ∈ steps, Text.Unmarked step.1.toList) (hne : steps ≠ []) :
    List.splitOn '+' ("+".intercalate (steps.map stepText)).toList =
      (steps.map stepText).map String.toList := by
  rw [String.toList_intercalate]
  refine List.splitOn_intercalate '+' (fun text htext => ?_) (by simpa using hne)
  obtain ⟨_, hmem, rfl⟩ := List.mem_map.mp htext
  obtain ⟨step, hstep, rfl⟩ := List.mem_map.mp hmem
  exact plus_notMem_stepText (h step hstep)

/-- **Steps can be read off where they are written one after the other.** -/
theorem steps_injective {as bs : List (String × Nat)} (ha : ∀ a ∈ as, Text.Unmarked a.1.toList)
    (hb : ∀ b ∈ bs, Text.Unmarked b.1.toList) (hane : as ≠ []) (hbne : bs ≠ [])
    (h : "+".intercalate (as.map stepText) = "+".intercalate (bs.map stepText)) : as = bs := by
  have htexts : (as.map stepText).map String.toList = (bs.map stepText).map String.toList := by
    rw [← splitOn_steps ha hane, ← splitOn_steps hb hbne, h]
  have hinjective : Function.Injective String.toList := fun _ _ => String.toList_inj.mp
  exact map_stepText_injective ha hb (List.map_injective_iff.mpr hinjective htexts)

/-- A metadata name is a stem without marks and a rest without dots. -/
theorem exists_stem {n : DeclName} (h : n.wellNamed = true) :
    ∃ stem rest, n.metadata.toList = stem ++ rest ∧ Text.Unmarked stem ∧ '.' ∉ rest := by
  induction n with
  | top space name params =>
    have htext : (top space name params).metadata =
        stepText (spacePrefix space ++ name, params.length) := rfl
    have hstem := unmarked_steps h _ List.mem_cons_self
    rw [htext, toList_stepText]
    exact ⟨_, _, rfl, hstem, notMem_number (by decide) (by decide) _⟩
  | nested outer name params ih =>
    obtain ⟨houter, hname⟩ := Bool.and_eq_true_iff.mp h
    obtain ⟨stem, rest, heq, hstem, hrest⟩ := ih houter
    have htext : (nested outer name params).metadata =
        outer.metadata ++ "+" ++ stepText (name, params.length) := by
      rw [metadata, stepText, String.append_assoc]
    refine ⟨stem, rest ++ "+".toList ++ (stepText (name, params.length)).toList, ?_, hstem, ?_⟩
    · rw [htext, String.toList_append, String.toList_append, heq]
      simp only [List.append_assoc]
    · rw [toList_stepText]
      refine List.not_mem_append (List.not_mem_append hrest (by decide)) (List.not_mem_append ?_
        (notMem_number (by decide) (by decide) _))
      exact fun hmem => absurd ((Text.isName_iff.mp hname).2 '.' hmem) (by decide)

/-- **No mark stands in front of a dot.** -/
theorem unmarked_before_dot {n : DeclName} (h : n.wellNamed = true) {front rest : List Char}
    (htext : n.metadata.toList = front ++ '.' :: rest) : Text.Unmarked front := by
  obtain ⟨stem, tail, heq, hstem, htail⟩ := exists_stem h
  obtain ⟨between, rfl, hrest⟩ | ⟨between, hfront, hrest⟩ :=
    List.append_eq_append_iff.mp (htext.symm.trans heq)
  · exact hstem.subset (List.subset_append_left _ _)
  · exact absurd (hrest ▸ List.mem_append_right _ List.mem_cons_self) htail

/-- **The metadata name determines the steps.** -/
theorem steps_eq_of_metadata {m n : DeclName} (hm : m.wellNamed = true) (hn : n.wellNamed = true)
    (h : m.metadata = n.metadata) : m.steps = n.steps := by
  rw [metadata_eq, metadata_eq] at h
  exact steps_injective (unmarked_steps hm) (unmarked_steps hn) m.steps_ne_nil n.steps_ne_nil h

/-! ## Enclosing types -/

theorem self_mem_chain (n : DeclName) : n ∈ n.chain :=
  List.mem_of_getLast? n.getLast?_chain

theorem length_chain_le {n outer : DeclName} (h : outer ∈ n.chain) :
    outer.chain.length ≤ n.chain.length := by
  induction n with
  | top space name params =>
    obtain rfl := List.mem_singleton.mp h
    exact Nat.le_refl _
  | nested around name params ih =>
    obtain h | h := List.mem_append.mp h
    · rw [chain, List.length_append]
      exact Nat.le_add_right_of_le (ih h)
    · obtain rfl := List.mem_singleton.mp h
      exact Nat.le_refl _

/-- **No type stands around itself.** -/
theorem nodup_chain (n : DeclName) : n.chain.Nodup := by
  induction n with
  | top space name params => exact List.nodup_singleton _
  | nested outer name params ih =>
    rw [chain, List.nodup_append_comm]
    refine List.nodup_cons.mpr ⟨fun hmem => ?_, ih⟩
    have hle := length_chain_le hmem
    rw [chain, List.length_append, List.length_singleton] at hle
    omega

/-- Around a type there is one for every path that leads to it. -/
theorem exists_chain_of_steps {n : DeclName} {around inside : List (String × Nat)}
    (h : n.steps = around ++ inside) (hne : around ≠ []) :
    ∃ outer ∈ n.chain, outer.steps = around := by
  induction n generalizing inside with
  | top space name params =>
    obtain ⟨step, around, rfl⟩ := List.exists_cons_of_ne_nil hne
    obtain ⟨hstep, hnil⟩ := List.cons.inj h
    obtain ⟨rfl, -⟩ := List.append_eq_nil_iff.mp hnil.symm
    exact ⟨_, self_mem_chain _, congrArg (fun x => [x]) hstep⟩
  | nested outer name params ih =>
    rcases List.eq_nil_or_concat inside with rfl | ⟨inside, last, rfl⟩
    · rw [List.append_nil] at h
      exact ⟨_, self_mem_chain _, h⟩
    · rw [steps, List.concat_eq_append, ← List.append_assoc] at h
      obtain ⟨n, hn, hsteps⟩ := ih (List.append_inj_left' h rfl)
      exact ⟨n, List.mem_append_left _ hn, hsteps⟩

theorem prefix_vars_of_mem_chain {n outer : DeclName} (h : outer ∈ n.chain) :
    outer.vars <+: n.vars := by
  induction n with
  | top space name params =>
    obtain rfl := List.mem_singleton.mp h
    exact List.prefix_rfl
  | nested around name params ih =>
    obtain h | h := List.mem_append.mp h
    · exact (ih h).trans (List.prefix_append _ _)
    · obtain rfl := List.mem_singleton.mp h
      exact List.prefix_rfl

/-- The first variables are those of an enclosing type. -/
theorem take_vars_of_mem_chain {n outer : DeclName} (h : outer ∈ n.chain) :
    n.vars.take outer.totalArity = outer.vars := by
  rw [← outer.length_vars, ← List.prefix_iff_eq_take.mp (prefix_vars_of_mem_chain h)]

theorem vars_eq_flatMap (n : DeclName) : n.vars = n.chain.flatMap ownVars := by
  induction n with
  | top => simp [vars, chain]
  | nested outer name params ih => simp [vars, chain, ih]

end DeclName

/-- The variables in scope are those of the types around. -/
theorem Scope.mem_typeVars {s : Scope} {v : TypeVar} : v ∈ s.typeVars ↔ v ∈ s.type.vars := by
  rw [typeVars, DeclName.vars_eq_flatMap, List.mem_flatMap, List.mem_flatMap]
  simp only [List.mem_reverse]

end LateBridge
