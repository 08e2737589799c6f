import LateBridge.Proofs.Bridge.Siblings

/-!
# Proofs/Bridge/ByReference — arguments that are passed by reference and late-bound

    parameter of the method ──type mentions a marked parameter──▸ late-bound
    parameter of the method, or of the definition ──▸ passed by value or by reference

A late-bound argument is a value of its own and cannot be passed by reference.  A method with such a
parameter gets a report and no plan (`refKind_of_hasErrors`), so a wrapper of its own never has one.
A wrapper that implements a definition passes its arguments as the definition says, which is not
compared with the method: it has no such parameter exactly if the definition passes every late-bound
parameter as the method does (`dynamic_by_value_iff`).
-/

namespace LateBridge

/-- **A wrapper whose late-bound parameters are all passed by value.** -/
def Wrapper.DynamicByValue (w : Wrapper) : Prop :=
  ∀ q ∈ w.params, q.isDynamic = true → q.refKind = .none

/-- A parameter whose type mentions a marked type parameter of a method. -/
def MarkerNames.Mentions (names : MarkerNames) (m : Method) (q : Param) : Prop :=
  ∃ v ∈ q.type.vars, v ∈ names.markedVars m

/-! ## Lists beside two others -/

theorem mem_zip_zip {α β γ : Type} {as : List α} {bs : List β} {cs : List γ}
    (hlength : bs.length = cs.length) {a : α} {b : β} :
    (a, b) ∈ as.zip bs ↔ ∃ c, (a, b, c) ∈ as.zip (bs.zip cs) := by
  simp only [List.mem_iff_getElem?, List.getElem?_zip_eq_some]
  constructor
  · rintro ⟨i, ha, hb⟩
    have hi : i < cs.length := hlength ▸ (List.getElem?_eq_some_iff.mp hb).1
    exact ⟨cs[i], i, ha, hb, List.getElem?_eq_getElem hi⟩
  · rintro ⟨c, i, ha, hb, -⟩
    exact ⟨i, ha, hb⟩

namespace Planner

variable {p : Planner}

/-! ## Definitions of plans -/

/-- **A plan either has a wrapper of its own or implements a definition.** -/
theorem planOf_definition_cases (d : Draft) :
    ((p.planOf d).definition? = none ∧ (p.planOf d).wrapper = p.freshWrapper d) ∨
      ∃ definition ∈ p.definitions d.method d.marks,
        (p.planOf d).definition? = some definition.id ∧
          (p.planOf d).wrapper = definedWrapper d definition := by
  rcases hdefinitions : p.definitions d.method d.marks with _ | ⟨definition, _ | ⟨other, rest⟩⟩
  · exact .inl (by simp only [planOf, hdefinitions, and_self])
  · exact .inr ⟨definition, List.mem_singleton_self _,
      by simp only [planOf, hdefinitions, and_self]⟩
  · exact .inl (by simp only [planOf, hdefinitions, and_self])

section Marked

variable {m : Method} {marks : Marks} (hread : p.names.read m = .ok (some marks))
  (herrors : hasErrors (p.reports (p.draft m marks)) = false)

include herrors

/-- **A parameter that needs erasing is passed by value**, or there is an error. -/
theorem refKind_of_hasErrors {x : Param × Erasure.Answer × Bool}
    (hx : x ∈ m.params.zip (p.draft m marks).params) (hneeds : x.2.2 = true) :
    x.1.refKind = .none := by
  by_contra hkind
  obtain ⟨r, hr, herror⟩ : ∃ r ∈ paramReports m x.1 x.2.1 x.2.2, r.isError = true :=
    ⟨.ofRule .referenceParameter [m.display, x.1.name] (x.1.location.or m.location),
      by simp [paramReports, hneeds, hkind], rfl⟩
  have hdraft : r ∈ draftReports (p.draft m marks) :=
    List.mem_append_left _ (List.mem_append_right _ (List.mem_flatMap.mpr ⟨x, hx, hr⟩))
  refine absurd (hasErrors_eq_false.mp herrors r ?_) (ne_of_eq_of_ne herror (by decide))
  simp only [reports, List.mem_eraseDups, List.mem_append]
  exact .inl (.inl (.inl (.inr hdraft)))

theorem freshWrapper_dynamicByValue :
    (p.freshWrapper (p.draft m marks)).DynamicByValue := by
  intro w hw hdynamic
  obtain ⟨x, hx, rfl⟩ := List.mem_map.mp hw
  exact refKind_of_hasErrors herrors hx hdynamic

include hread

/-- **A method with a plan passes what mentions a marked parameter by value.** -/
theorem refKind_of_mentions {q : Param} (hq : q ∈ m.params) (h : p.names.Mentions m q) :
    q.refKind = .none := by
  rw [← map_fst_params (p := p) m marks] at hq
  obtain ⟨x, hx, rfl⟩ := List.mem_map.mp hq
  exact refKind_of_hasErrors herrors hx ((needs_iff hread herrors hx).mpr h)

/-- **A wrapper that implements a definition** passes late-bound arguments by value exactly if the
definition passes them as the method does. -/
theorem definedWrapper_dynamicByValue (definition : Method) :
    (definedWrapper (p.draft m marks) definition).DynamicByValue ↔
      ∀ x ∈ definition.params.zip m.params, p.names.Mentions m x.2 → x.1.refKind = x.2.refKind := by
  have hlength := (draft_settles (p := p) m marks).1.length_eq
  constructor
  · rintro hvalue ⟨q, target⟩ hx hmentions
    obtain ⟨y, hxy⟩ := (mem_zip_zip hlength).mp hx
    have htarget := (List.of_mem_zip hxy).2
    rw [refKind_of_mentions hread herrors (List.of_mem_zip htarget).1 hmentions]
    exact hvalue _ (List.mem_map_of_mem hxy) ((needs_iff hread herrors htarget).mpr hmentions)
  · rintro hagree w hw hdynamic
    obtain ⟨⟨q, target, y⟩, hx, rfl⟩ := List.mem_map.mp hw
    have htarget := (List.of_mem_zip hx).2
    have hmentions := (needs_iff hread herrors htarget).mp hdynamic
    have hkind := hagree _ ((mem_zip_zip hlength).mpr ⟨y, hx⟩) hmentions
    exact hkind.trans (refKind_of_hasErrors herrors htarget hdynamic)

end Marked

/-! ## Plans of a group -/

section Group

variable {docs : List GraphDocument} {ms : List Method} {plan : BridgePlan}

/-- **No argument is both late-bound and passed by reference** exactly if the definition that a plan
implements passes every parameter that mentions a marked one as the method does.  The method itself
passes them by value, so a wrapper of its own never mixes the two. -/
theorem dynamic_by_value_iff (h : load docs = .ok p.graph)
    (hplan : plan ∈ (p.planGroup ms).plans) :
    (∀ q ∈ plan.method.params, p.names.Mentions plan.method q → q.refKind = .none) ∧
    (plan.definition? = none → plan.wrapper.DynamicByValue) ∧
    (plan.wrapper.DynamicByValue ↔
      ∀ definition, plan.definition?.bind p.graph.method? = some definition →
        ∀ x ∈ definition.params.zip plan.method.params, p.names.Mentions plan.method x.2 →
          x.1.refKind = x.2.refKind) := by
  obtain ⟨m, hm, -, hmem⟩ := mem_planGroup.mp hplan
  obtain ⟨marks, hread, herrors, rfl⟩ := mem_planMethod.mp hmem
  refine ⟨fun q hq => refKind_of_mentions hread herrors hq, ?_⟩
  obtain ⟨hnone, hwrapper⟩ | ⟨definition, hdefinition, hsome, hwrapper⟩ :=
    planOf_definition_cases (p := p) (p.draft m marks)
  · have hvalue := freshWrapper_dynamicByValue herrors
    rw [hnone, hwrapper, Option.bind_none]
    exact ⟨fun _ => hvalue, fun _ _ h => (nomatch h), fun _ => hvalue⟩
  · obtain ⟨⟨d, hd, hdefined⟩, -⟩ := mem_definitions hdefinition
    have hfound := (method?_of_mem h (Graph.mem_decls_of_find? hd) hdefined).2
    rw [hsome, hwrapper, Option.bind_some, hfound, definedWrapper_dynamicByValue hread herrors]
    refine ⟨fun h => (nomatch h), fun hagree other hother => ?_, fun hagree => hagree _ rfl⟩
    cases hother
    exact hagree

end Group

end Planner

namespace Siblings

/-- A partial definition that takes its argument by reference. -/
def referring (name type : String) : MethodDoc :=
  { definition name type with params := [⟨"item", type, .ref, none, false, none⟩] }

/-- Whether a definition that a plan implements passes its parameters as the method does. -/
def agrees (g : Graph) (plan : BridgePlan) : Bool :=
  (plan.definition?.bind g.method?).all fun definition =>
    (definition.params.zip plan.method.params).all fun x => x.1.refKind == x.2.refKind

/-- Whether a wrapper has a late-bound parameter that is passed by reference. -/
def mixes (w : Wrapper) : Bool := w.params.any fun q => q.isDynamic && q.refKind != .none

theorem not_dynamicByValue_of_mixes {w : Wrapper} (h : mixes w = true) : ¬w.DynamicByValue := by
  intro hvalue
  obtain ⟨q, hq, hmixes⟩ := List.any_eq_true.mp h
  obtain ⟨hdynamic, hkind⟩ := Bool.and_eq_true_iff.mp hmixes
  exact absurd (hvalue q hq hdynamic) (bne_iff_ne.mp hkind)

end Siblings

/-- A method with a definition that takes its argument by value, and one without. -/
theorem dynamic_by_value_two : ∃ p : Planner,
    load (Siblings.docs [Siblings.bridged "Put" "T" none, Siblings.bridged "Take" "T[]" none,
      Siblings.definition "Put" "System.Object"]) = .ok p.graph ∧
      (p.planGroup (({} : MarkerNames).candidates p.graph)).plans.map (·.definition?) =
        [some (Siblings.place 2), none] ∧
      ∀ plan ∈ (p.planGroup (({} : MarkerNames).candidates p.graph)).plans,
        plan.wrapper.DynamicByValue := by
  have hcheck : Siblings.check [Siblings.bridged "Put" "T" none, Siblings.bridged "Take" "T[]" none,
      Siblings.definition "Put" "System.Object"] (fun g plans =>
        plans.map (·.definition?) == [some (Siblings.place 2), none] &&
          plans.all (Siblings.agrees g)) = true := by decide +kernel
  obtain ⟨p, hload, -, hasked⟩ := Siblings.exists_of_check hcheck
  obtain ⟨hdefinitions, hagrees⟩ := Bool.and_eq_true_iff.mp hasked
  refine ⟨p, hload, eq_of_beq hdefinitions, fun plan hplan => ?_⟩
  refine (Planner.dynamic_by_value_iff hload hplan).2.2.mpr fun definition hdefinition x hx _ => ?_
  have hagree := List.all_eq_true.mp hagrees plan hplan
  rw [Siblings.agrees, hdefinition, Option.all_some, List.all_eq_true] at hagree
  exact eq_of_beq (hagree x hx)

/-- **A definition that takes its argument by reference** is implemented by a wrapper whose argument
is passed by reference and late-bound, and nothing is reported. -/
theorem dynamic_by_reference_of_definition : ∃ p : Planner,
    load (Siblings.docs [Siblings.bridged "Put" "T" none,
      Siblings.referring "Put" "System.Object"]) = .ok p.graph ∧
      WellKnown.resolve p.graph = .ok p.known ∧
      ∃ plan ∈ (p.planGroup (({} : MarkerNames).candidates p.graph)).plans,
        plan.definition? = some (Siblings.place 1) ∧ ¬plan.wrapper.DynamicByValue := by
  have hcheck : Siblings.check [Siblings.bridged "Put" "T" none,
      Siblings.referring "Put" "System.Object"] (fun _ plans => plans.any fun plan =>
        plan.definition? == some (Siblings.place 1) && Siblings.mixes plan.wrapper) = true := by
    decide +kernel
  obtain ⟨p, hload, hknown, hasked⟩ := Siblings.exists_of_check hcheck
  obtain ⟨plan, hplan, hmixes⟩ := List.any_eq_true.mp hasked
  obtain ⟨hdefinition, hmixes⟩ := Bool.and_eq_true_iff.mp hmixes
  exact ⟨p, hload, hknown, plan, hplan, eq_of_beq hdefinition,
    Siblings.not_dynamicByValue_of_mixes hmixes⟩

end LateBridge
