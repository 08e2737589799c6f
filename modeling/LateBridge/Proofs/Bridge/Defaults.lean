import LateBridge.Proofs.Bridge.ByReference

/-!
# Proofs/Bridge/Defaults — optional parameters stand last

    method:   required …, optional …, params
        │ erased: keeps no default but null, gathers no arguments
        ▾
    wrapper:  required …, optional and required …

A parameter list is legal if after an optional parameter each one is optional itself or gathers the
arguments that remain.  A wrapper of its own decides for each parameter alone what it keeps: an
erased one turns into a required one unless its default is null.  So the list stays legal exactly if
no such parameter stands after one that keeps its default (`Planner.optionalLast_iff`).  A wrapper
that implements a definition has no optional parameters (`Planner.optionalLast_of_definition`).
-/

namespace LateBridge

/-! ## Legal lists -/

/-- **A legal list of parameters**: each parameter after an optional one is optional or gathers the
arguments that remain. -/
def Method.OptionalLast (m : Method) : Prop :=
  m.params.Pairwise fun q r => q.default?.isSome → r.default?.isSome ∨ r.isParams

/-- The same of a wrapper. -/
def Wrapper.OptionalLast (w : Wrapper) : Prop :=
  w.params.Pairwise fun q r => q.default?.isSome → r.default?.isSome ∨ r.isParams

instance (m : Method) : Decidable m.OptionalLast := inferInstanceAs (Decidable (List.Pairwise _ _))

instance (w : Wrapper) : Decidable w.OptionalLast := inferInstanceAs (Decidable (List.Pairwise _ _))

/-- A parameter whose default is kept in a wrapper of its own. -/
def MarkerNames.KeepsDefault (names : MarkerNames) (m : Method) (q : Param) : Prop :=
  q.default?.isSome ∧ (names.Mentions m q → q.default? = some .null)

namespace Planner

variable {p : Planner}

/-! ## One parameter -/

/-- An erased parameter stays optional only if its default is null. -/
theorem isSome_default_freshParam {q : Param} {answer : Erasure.Answer} {needs : Bool} :
    (freshParam q answer needs).default?.isSome ↔
      q.default?.isSome ∧ (needs = true → q.default? = some .null) := by
  cases needs <;> cases hdefault : q.default? <;> simp [freshParam, hdefault, Option.filter]

/-- Only a parameter that is not erased gathers arguments. -/
theorem isParams_freshParam {q : Param} {answer : Erasure.Answer} {needs : Bool} :
    (freshParam q answer needs).isParams = true ↔ q.isParams = true ∧ needs = false := by
  simp [freshParam]

/-! ## Two parameters -/

/-- **Two parameters of a wrapper of its own**: the second one may stand after the first, where the
method's may, unless the first keeps its default and the second is erased and keeps none. -/
theorem freshParam_after {q r : Param} {answer answer' : Erasure.Answer} {needs needs' : Bool}
    (hlegal : q.default?.isSome → r.default?.isSome ∨ r.isParams) :
    ((freshParam q answer needs).default?.isSome → (freshParam r answer' needs').default?.isSome ∨
        (freshParam r answer' needs').isParams = true) ↔
      (q.default?.isSome ∧ (needs = true → q.default? = some .null) →
        needs' = true → r.default? = some .null) := by
  simp only [isSome_default_freshParam, isParams_freshParam]
  refine forall_congr' fun hkept => ?_
  cases needs' with
  | false => simpa using hlegal hkept.1
  | true =>
    simp only [forall_const, Bool.true_eq_false, and_false, or_false, and_iff_right_iff_imp]
    exact fun hnull => Option.isSome_of_eq_some hnull

/-! ## All parameters -/

section Marked

variable {m : Method} {marks : Marks} (hread : p.names.read m = .ok (some marks))
  (herrors : hasErrors (p.reports (p.draft m marks)) = false)

include hread herrors

/-- A wrapper of its own for a method with a legal list. -/
theorem freshWrapper_optionalLast (hm : m.OptionalLast) :
    (p.freshWrapper (p.draft m marks)).OptionalLast ↔ m.params.Pairwise fun q r =>
      p.names.KeepsDefault m q → p.names.Mentions m r → r.default? = some .null := by
  have hfst := map_fst_params (p := p) m marks
  have hneeds (x) (hx : x ∈ m.params.zip (p.draft m marks).params) :
      x.2.2 = true ↔ p.names.Mentions m x.1 := needs_iff hread herrors hx
  -- both lists are maps of the parameters, each beside what it erases to
  rw [Method.OptionalLast, ← hfst, List.pairwise_map] at hm
  rw [Wrapper.OptionalLast, freshWrapper, List.pairwise_map, ← hfst, List.pairwise_map]
  constructor
  · intro hfresh
    refine (hm.and hfresh).imp_of_mem fun {x y} hx hy hboth => ?_
    obtain ⟨hlegal, hafter⟩ := hboth
    rw [MarkerNames.KeepsDefault, ← hneeds x hx, ← hneeds y hy]
    exact (freshParam_after hlegal).mp hafter
  · intro hkept
    refine (hm.and hkept).imp_of_mem fun {x y} hx hy hboth => ?_
    obtain ⟨hlegal, hafter⟩ := hboth
    rw [MarkerNames.KeepsDefault, ← hneeds x hx, ← hneeds y hy] at hafter
    exact (freshParam_after hlegal).mpr hafter

end Marked

/-- No parameter is optional where a definition is implemented. -/
theorem definedWrapper_optionalLast (d : Draft) (definition : Method) :
    (definedWrapper d definition).OptionalLast := by
  rw [Wrapper.OptionalLast, definedWrapper, List.pairwise_map]
  exact List.pairwise_of_forall fun _ _ hoptional => absurd hoptional Bool.false_ne_true

/-! ## Plans of a group -/

/-- **A wrapper that implements a definition has a legal list.** -/
theorem optionalLast_of_definition {ms : List Method} {plan : BridgePlan}
    (hplan : plan ∈ (p.planGroup ms).plans) (hsome : plan.definition?.isSome) :
    plan.wrapper.OptionalLast := by
  obtain ⟨m, -, -, hmem⟩ := mem_planGroup.mp hplan
  obtain ⟨marks, -, -, rfl⟩ := mem_planMethod.mp hmem
  obtain ⟨hnone, -⟩ | ⟨definition, -, -, hwrapper⟩ :=
    planOf_definition_cases (p := p) (p.draft m marks)
  · rw [hnone] at hsome
    cases hsome
  · rw [hwrapper]
    exact definedWrapper_optionalLast _ definition

/-- **A wrapper of its own keeps a legal list legal** exactly if each parameter that mentions a
marked type parameter has null for its default, wherever it stands after a parameter that keeps its
own. -/
theorem optionalLast_iff {ms : List Method} {plan : BridgePlan}
    (hplan : plan ∈ (p.planGroup ms).plans) (hnone : plan.definition? = none)
    (hlegal : plan.method.OptionalLast) :
    plan.wrapper.OptionalLast ↔ plan.method.params.Pairwise fun q r =>
      p.names.KeepsDefault plan.method q → p.names.Mentions plan.method r →
        r.default? = some .null := by
  obtain ⟨m, -, -, hmem⟩ := mem_planGroup.mp hplan
  obtain ⟨marks, hread, herrors, rfl⟩ := mem_planMethod.mp hmem
  rw [planOf_wrapper hnone]
  exact freshWrapper_optionalLast hread herrors hlegal

end Planner

/-! A class with a method that takes an item and a label. -/

namespace Defaults

/-- The method, with one marked type parameter. -/
def put (params : List ParamDoc) : MethodDoc := { Siblings.bridged "Put" "T" none with params }

/-- A label that may be left out. -/
def label : ParamDoc := ⟨"label", "System.String", .none, some (.string "x"), false, none⟩

/-- An item that may be left out. -/
def item : ParamDoc := ⟨"item", "T", .none, some .null, false, none⟩

/-- The remaining arguments as items. -/
def items : ParamDoc := ⟨"items", "T[]", .none, none, true, none⟩

end Defaults

/-- A label and then an item, and both may be left out: they may in the wrapper. -/
theorem optionalLast_null : ∃ p : Planner,
    load (Siblings.docs [Defaults.put [Defaults.label, Defaults.item]]) = .ok p.graph ∧
      WellKnown.resolve p.graph = .ok p.known ∧
      ∃ plan ∈ (p.planGroup (({} : MarkerNames).candidates p.graph)).plans,
        plan.definition? = none ∧ plan.method.OptionalLast ∧
        plan.wrapper.params.map (·.default?) = [some (.string "x"), some .null] ∧
        plan.wrapper.OptionalLast := by
  have hcheck : Siblings.check [Defaults.put [Defaults.label, Defaults.item]] (fun _ plans =>
      plans.any fun plan => plan.definition? == none && decide plan.method.OptionalLast &&
        plan.wrapper.params.map (·.default?) == [some (.string "x"), some .null] &&
        decide (plan.method.params.Pairwise fun _ r => r.default? = some .null)) = true := by
    decide +kernel
  obtain ⟨p, hload, hknown, hasked⟩ := Siblings.exists_of_check hcheck
  obtain ⟨plan, hplan, hasked⟩ := List.any_eq_true.mp hasked
  simp only [Bool.and_eq_true, beq_iff_eq, decide_eq_true_eq] at hasked
  obtain ⟨⟨⟨hnone, hlegal⟩, hdefaults⟩, hnulls⟩ := hasked
  refine ⟨p, hload, hknown, plan, hplan, hnone, hlegal, hdefaults, ?_⟩
  exact (Planner.optionalLast_iff hplan hnone hlegal).mpr (hnulls.imp fun hnull _ _ => hnull)

/-- **An optional label and then the remaining arguments**: the wrapper gathers none, and asks for
an argument after the label. -/
theorem not_optionalLast_of_params : ∃ p : Planner,
    load (Siblings.docs [Defaults.put [Defaults.label, Defaults.items]]) = .ok p.graph ∧
      WellKnown.resolve p.graph = .ok p.known ∧
      ∃ plan ∈ (p.planGroup (({} : MarkerNames).candidates p.graph)).plans,
        plan.definition? = none ∧ plan.method.OptionalLast ∧ ¬plan.wrapper.OptionalLast := by
  have hcheck : Siblings.check [Defaults.put [Defaults.label, Defaults.items]] (fun _ plans =>
      plans.any fun plan => plan.definition? == none && decide plan.method.OptionalLast &&
        !decide plan.wrapper.OptionalLast) = true := by
    decide +kernel
  obtain ⟨p, hload, hknown, hasked⟩ := Siblings.exists_of_check hcheck
  obtain ⟨plan, hplan, hasked⟩ := List.any_eq_true.mp hasked
  simp only [Bool.and_eq_true, beq_iff_eq, decide_eq_true_eq, Bool.not_eq_true',
    decide_eq_false_iff_not] at hasked
  exact ⟨p, hload, hknown, plan, hplan, hasked.1.1, hasked.1.2, hasked.2⟩

end LateBridge
