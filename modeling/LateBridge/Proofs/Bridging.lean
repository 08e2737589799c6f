import LateBridge.Proofs.Bridge.Plans
import LateBridge.Proofs.Dispatch.Instances
import LateBridge.Proofs.Document.Loading
import LateBridge.Proofs.Symbols.HierarchyCheck

/-!
# Proofs/Bridging — a wrapper lets through what its method binds

The signature of a wrapper is made before any argument exists; a call binds by the run-time types of
its arguments.  The two meet in the substitution for the type parameters: it passes the constraints,
so everything in the wrapper's signature is above what is put into the method's
(`bound_call_fits_wrapper`), and it can be read back off the arguments it makes
(`infer_instance_eq`).
-/

namespace LateBridge

/-- **A plan with a wrapper of its own** for which no erasure was given. -/
structure Planner.FreshPlan (p : Planner) (ms : List Method) (plan : BridgePlan) : Prop where
  mem : plan ∈ (p.planGroup ms).plans
  fresh : plan.definition? = none
  ungiven : ∀ marks, p.names.read plan.method = .ok (some marks) → ∀ q ∈ marks.marked, q.2 = none

/-! ## A small program

Boxes behind an interface, shapes behind another one, and a method whose type parameter is marked:
its box erases to an interface, its array to the array root, and its item to the constraint. -/

namespace Demo

/-- A program with roots of its own. -/
def docs : List GraphDocument :=
  [{ coreLibrary := false, usings := []
     types := CoreLibrary.bareTypes ++ [
      CoreLibrary.interfaceType "Shop" "IBox",
      { CoreLibrary.classType "Shop" "Box" with
        typeParams := [CoreLibrary.param "T"], interfaces := ["IBox"] },
      CoreLibrary.interfaceType "Shop" "IShape",
      { CoreLibrary.classType "Shop" "Circle" with interfaces := ["IShape"] },
      { CoreLibrary.classType "Shop" "Store" with isPartial := true, methods := [
        { name := "Put", accessibility := "public", flags := {}
          typeParams := [{ CoreLibrary.param "T" with
            constraints := ["IShape"]
            attributes := [⟨"Bridgegen.DynamicBridgeAttribute", [], []⟩] }]
          params := [⟨"box", "Box<T>", .none, none, false, none⟩,
            ⟨"rest", "T[]", .none, none, false, none⟩, ⟨"item", "T", .none, none, false, none⟩]
          returns := "T", attributes := [], location := none }] }] }]

/-- Every type parameter stands for a circle. -/
def circles (plan : BridgePlan) : Ty.Subst :=
  plan.method.vars.map fun v => (v, .plain (.top (some "Shop") "Circle" []))

/-- One object of each instantiated parameter type. -/
def objects (plan : BridgePlan) : List Value :=
  plan.method.params.map fun q => .object (q.type.subst (circles plan)) 0

/-- What is asked of the only plan of the program. -/
def checkPlan (g : Graph) (plan : BridgePlan) : Bool :=
  plan.definition?.isNone &&
    (match ({} : MarkerNames).read plan.method with
    | .ok (some marks) => marks.marked.all (·.2.isNone)
    | _ => true) &&
    plan.method.vars.all (fun v => plan.method.params.any (·.type.vars.contains v)) &&
    plan.method.params.all (fun q => q.type.pointedVars.all (!plan.method.vars.contains ·)) &&
    (match g.checkConstraints (circles plan) (circles plan) with
    | .ok () => true
    | .error _ => false) &&
    plan.wrapper.params.map (·.type) == [.plain (.top (some "Shop") "IBox" []),
      .plain (.top (some "System") "Array" []), .plain (.top (some "Shop") "IShape" [])]

/-- What the check says of a plan. -/
structure CheckedPlan (g : Graph) (plan : BridgePlan) : Prop where
  fresh : plan.definition? = none
  ungiven : ∀ marks, ({} : MarkerNames).read plan.method = .ok (some marks) →
    ∀ q ∈ marks.marked, q.2 = none
  occurs : ∀ v ∈ plan.method.vars, ∃ q ∈ plan.method.params, v ∈ q.type.vars
  pointed : ∀ q ∈ plan.method.params, ∀ v ∈ q.type.pointedVars, v ∉ plan.method.vars
  constraints : g.checkConstraints (circles plan) (circles plan) = .ok ()
  types : plan.wrapper.params.map (·.type) = [.plain (.top (some "Shop") "IBox" []),
    .plain (.top (some "System") "Array" []), .plain (.top (some "Shop") "IShape" [])]

theorem checkedPlan_of_checkPlan {g : Graph} {plan : BridgePlan} (h : checkPlan g plan = true) :
    CheckedPlan g plan := by
  simp only [checkPlan, Bool.and_eq_true, beq_iff_eq, Option.isNone_iff_eq_none, List.all_eq_true,
    List.any_eq_true, Bool.not_eq_true', List.contains_iff_mem] at h
  obtain ⟨⟨⟨⟨⟨hfresh, hmarks⟩, hoccurs⟩, hpointed⟩, hconstraints⟩, htypes⟩ := h
  refine ⟨hfresh, fun marks hread => ?_, hoccurs, fun q hq v hv hmem => ?_, ?_, htypes⟩
  · simpa [hread] using hmarks
  · exact Bool.false_ne_true ((hpointed q hq v hv).symm.trans (List.contains_iff_mem.mpr hmem))
  · split at hconstraints
    · assumption
    · cases hconstraints

theorem forall₂_objects (plan : BridgePlan) :
    List.Forall₂ (fun q arg => Graph.IsObject (q.type.subst (circles plan)) arg)
      plan.method.params (objects plan) := by
  rw [objects, List.forall₂_map_right_iff, List.forall₂_same]
  exact fun q _ => ⟨0, rfl⟩

theorem map_fst_circles (plan : BridgePlan) : (circles plan).map (·.1) = plan.method.vars := by
  simp [circles, Function.comp_def]

/-- Whether documents load, have a lawful hierarchy and give one such plan. -/
def check (docs : List GraphDocument) : Bool :=
  match load docs with
  | .error _ => false
  | .ok g =>
    g.checkRoots && g.checkHierarchy 8 &&
      match WellKnown.resolve g with
      | .error _ => false
      | .ok known =>
        match (Planner.planGroup ⟨g, known, {}⟩ g.methods).plans with
        | [plan] => checkPlan g plan
        | _ => false

/-- What the check says of documents. -/
theorem exists_plan_of_check {docs : List GraphDocument} (h : check docs = true) :
    ∃ g known plan, Compiled docs g ∧ g.OneInstance ∧ WellKnown.resolve g = .ok known ∧
      Planner.FreshPlan ⟨g, known, {}⟩ g.methods plan ∧ CheckedPlan g plan := by
  rw [check] at h
  split at h
  · cases h
  rename_i g hload
  obtain ⟨hlawful, h⟩ := (Bool.and_eq_true _ _).mp h
  obtain ⟨hroots, hhierarchy⟩ := (Bool.and_eq_true _ _).mp hlawful
  split at h
  · cases h
  rename_i known hknown
  split at h
  · rename_i plan hplans
    have hplan := checkedPlan_of_checkPlan h
    have hcompiled : Compiled docs g :=
      ⟨hload, .inr (Graph.rooted_of_checkRoots hroots),
        Graph.lawful_of_checkHierarchy hhierarchy (by decide)⟩
    refine ⟨g, known, plan, hcompiled, Graph.oneInstance_of_checkHierarchy hhierarchy (by decide),
      hknown, ⟨?_, hplan.fresh, hplan.ungiven⟩, hplan⟩
    rw [hplans]
    exact List.mem_singleton_self plan
  · cases h

theorem check_docs : check docs = true := by decide +kernel

end Demo

/-! ## Type arguments that a call accepts -/

variable {docs : List GraphDocument} {g : Graph} {known : WellKnown} {names : MarkerNames}
  {ms : List Method} {plan : BridgePlan}

/-- Erasure over a graph that a compiler accepts. -/
theorem Compiled.standard (hg : Compiled docs g) (hknown : WellKnown.resolve g = .ok known)
    (marks : Marks) : (Planner.erasure ⟨g, known, names⟩ marks).Standard where
  lawful := hg.lawful
  rooted := hg.rooted
  known := WellKnown.rootsOf_of_resolve hknown
  unmanaged _ h := value_of_unmanaged_of_load hg.loaded h

/-- Type arguments for all type parameters of a method that pass the constraints are accepted for
its marked ones. -/
theorem Compiled.accepts (hg : Compiled docs g) {m : Method} (hm : m ∈ g.methods) {marks : Marks}
    (hread : names.read m = .ok (some marks)) (hungiven : ∀ q ∈ marks.marked, q.2 = none)
    {s : Ty.Subst} (hs : s.map (·.1) = m.vars) (hsat : ∀ p ∈ s, g.satisfies s p.1 p.2 = true) :
    (Planner.erasure ⟨g, known, names⟩ marks).Accepts s where
  untouched := by
    refine untouched_of_load hg.loaded (m := m.id) fun p hp => ?_
    exact (vars_of_load hg.loaded hm).2 p.1 (hs ▸ List.mem_map_of_mem hp)
  ungiven := hungiven
  known v hv := by
    have hmem : v ∈ s.map (·.1) := hs ▸ MarkerNames.mem_vars_of_isMarked hread hv
    obtain ⟨p, hp, rfl⟩ := List.mem_map.mp hmem
    exact List.lookup_isSome_iff.mpr ⟨p, hp, beq_self_eq_true _⟩
  satisfies v t ht := hsat (v, t) (mem_of_lookup ht)

/-- **The signature of a wrapper is above that of its method** under type arguments that pass the
constraints. -/
theorem Planner.FreshPlan.bounds (hg : Compiled docs g) (hknown : WellKnown.resolve g = .ok known)
    (hms : ∀ m ∈ ms, m ∈ g.methods) (hplan : FreshPlan ⟨g, known, names⟩ ms plan) {s : Ty.Subst}
    (hs : s.map (·.1) = plan.method.vars) (hsat : ∀ p ∈ s, g.satisfies s p.1 p.2 = true) :
    List.Forall₂ (fun q w => g.isAssignable (q.type.subst s) (w.type.subst s) = true)
        plan.method.params plan.wrapper.params ∧
      (plan.method.returnsVoid = false → plan.method.flags.isAsync = false →
        g.isAssignable (plan.method.returns.subst s) (plan.wrapper.returns.subst s) = true) := by
  obtain ⟨hmem, hfresh, hungiven⟩ := hplan
  obtain ⟨m, hm, -, hmem⟩ := mem_planGroup.mp hmem
  obtain ⟨marks, hread, herrors, rfl⟩ := mem_planMethod.mp hmem
  rw [planOf_wrapper hfresh]
  exact freshWrapper_bounds (hg.standard hknown marks)
    (hg.accepts (hms m hm) hread (hungiven marks hread) hs hsat) herrors

/-! ## Everything that binds gets through -/

/-- **What a method binds gets through its wrapper.**  The type arguments are those of its type
parameters in order, each passes its constraints, every argument with a run-time type converts to
the parameter types of the method and of the wrapper, and a result that is not awaited converts to
the wrapper's. -/
theorem bound_call_fits_wrapper {args : List Value} {s : Ty.Subst} (hg : Compiled docs g)
    (hknown : WellKnown.resolve g = .ok known) (hms : ∀ m ∈ ms, m ∈ g.methods)
    (hplan : Planner.FreshPlan ⟨g, known, names⟩ ms plan)
    (hinfer : g.infer plan.method args = .ok s) :
    s.map (·.1) = plan.method.vars ∧ (∀ p ∈ s, g.satisfies s p.1 p.2 = true) ∧
      args.length = plan.method.params.length ∧
      plan.wrapper.params.length = plan.method.params.length ∧
      (∀ (i : Nat) (q : Param) (w : WrapperParam) (arg : Value) (t : Ty),
        plan.method.params[i]? = some q → plan.wrapper.params[i]? = some w → args[i]? = some arg →
        arg.runtimeType? g = some t →
        g.isAssignable t (q.type.subst s) = true ∧ g.isAssignable t (w.type.subst s) = true) ∧
      (plan.method.returnsVoid = false → plan.method.flags.isAsync = false →
        g.isAssignable (plan.method.returns.subst s) (plan.wrapper.returns.subst s) = true) := by
  obtain ⟨hlength, bound, -, hinstantiation, hsat, hargs⟩ := Graph.infer_eq_ok_iff.mp hinfer
  have hs := Graph.map_fst_of_instantiation hinstantiation
  obtain ⟨hparams, hreturns⟩ := hplan.bounds hg hknown hms hs hsat
  refine ⟨hs, hsat, hlength, hparams.length_eq.symm, fun i q w arg t hq hw harg ht => ?_, hreturns⟩
  have hqarg : (q, arg) ∈ plan.method.params.zip args :=
    List.mem_of_getElem? (List.getElem?_zip_eq_some.mpr ⟨hq, harg⟩)
  have hqw : (q, w) ∈ plan.method.params.zip plan.wrapper.params :=
    List.mem_of_getElem? (List.getElem?_zip_eq_some.mpr ⟨hq, hw⟩)
  have hconverts := Graph.isAssignable_of_checkArg (hargs _ hqarg) ht
  exact ⟨hconverts, hg.lawful.isAssignable_trans hg.rooted hconverts
    ((List.forall₂_iff_zip.mp hparams).2 hqw)⟩

/-- Circles go through. -/
theorem bound_call_fits_wrapper_circles : ∃ g known plan args s, Compiled Demo.docs g ∧
    WellKnown.resolve g = .ok known ∧ Planner.FreshPlan ⟨g, known, {}⟩ g.methods plan ∧
    g.infer plan.method args = .ok s ∧ s.map (·.1) = plan.method.vars ∧
    args.length = plan.method.params.length ∧
    plan.wrapper.params.length = plan.method.params.length := by
  obtain ⟨g, known, plan, hg, hone, hknown, hplan, hchecked⟩ :=
    Demo.exists_plan_of_check Demo.check_docs
  have hmethod : plan.method ∈ g.methods := Planner.method_mem_of_mem_planGroup hplan.mem
  have hinfer : g.infer plan.method (Demo.objects plan) = .ok (Demo.circles plan) :=
    hone.infer_eq (vars_of_load hg.loaded hmethod).1 hchecked.occurs hchecked.pointed
      (Demo.map_fst_circles plan) hchecked.constraints (Demo.forall₂_objects plan)
  obtain ⟨hs, -, hlength, hparams, -⟩ :=
    bound_call_fits_wrapper hg hknown (fun _ hm => hm) hplan hinfer
  exact ⟨g, known, plan, _, _, hg, hknown, hplan, hinfer, hs, hlength, hparams⟩

/-! ## Every instantiation gets through and is found again -/

/-- **Bridging loses no instantiation.**  Objects of the instantiated parameter types convert to the
wrapper's, late binding finds the type arguments again, and a result that is not awaited converts
to the wrapper's. -/
theorem infer_instance_eq {args : List Value} {s : Ty.Subst} (hg : Compiled docs g)
    (hone : g.OneInstance) (hknown : WellKnown.resolve g = .ok known)
    (hms : ∀ m ∈ ms, m ∈ g.methods) (hplan : Planner.FreshPlan ⟨g, known, names⟩ ms plan)
    (hoccurs : ∀ v ∈ plan.method.vars, ∃ q ∈ plan.method.params, v ∈ q.type.vars)
    (hpointed : ∀ q ∈ plan.method.params, ∀ v ∈ q.type.pointedVars, v ∉ plan.method.vars)
    (hs : s.map (·.1) = plan.method.vars) (hconstraints : g.checkConstraints s s = .ok ())
    (hargs : List.Forall₂ (fun q arg => Graph.IsObject (q.type.subst s) arg) plan.method.params
      args) :
    List.Forall₂ (fun arg w => ∃ t, arg.runtimeType? g = some t ∧
        g.isAssignable t (w.type.subst s) = true) args plan.wrapper.params ∧
      g.infer plan.method args = .ok s ∧
      (plan.method.returnsVoid = false → plan.method.flags.isAsync = false →
        g.isAssignable (plan.method.returns.subst s) (plan.wrapper.returns.subst s) = true) := by
  have hsat := Graph.checkConstraints_eq_ok_iff.mp hconstraints
  obtain ⟨hparams, hreturns⟩ := hplan.bounds hg hknown hms hs hsat
  have hmethod : plan.method ∈ g.methods :=
    hms plan.method (Planner.method_mem_of_mem_planGroup hplan.mem)
  refine ⟨(forall₂_through hargs hparams).imp ?_,
    hone.infer_eq (vars_of_load hg.loaded hmethod).1 hoccurs hpointed hs hconstraints hargs,
    hreturns⟩
  rintro arg w ⟨q, ⟨id, rfl⟩, hw⟩
  exact ⟨_, rfl, hw⟩

/-- Circles are found again. -/
theorem infer_instance_eq_circles : ∃ g known plan args s, Compiled Demo.docs g ∧ g.OneInstance ∧
    WellKnown.resolve g = .ok known ∧ Planner.FreshPlan ⟨g, known, {}⟩ g.methods plan ∧
    plan.wrapper.params.map (·.type) = [.plain (.top (some "Shop") "IBox" []),
      .plain (.top (some "System") "Array" []), .plain (.top (some "Shop") "IShape" [])] ∧
    g.checkConstraints s s = .ok () ∧
    List.Forall₂ (fun q arg => Graph.IsObject (q.type.subst s) arg) plan.method.params args ∧
    List.Forall₂ (fun arg w => ∃ t, arg.runtimeType? g = some t ∧
      g.isAssignable t (w.type.subst s) = true) args plan.wrapper.params ∧
    g.infer plan.method args = .ok s := by
  obtain ⟨g, known, plan, hg, hone, hknown, hplan, hchecked⟩ :=
    Demo.exists_plan_of_check Demo.check_docs
  obtain ⟨hfits, hinfer, -⟩ := infer_instance_eq hg hone hknown (fun _ hm => hm) hplan
    hchecked.occurs hchecked.pointed (Demo.map_fst_circles plan) hchecked.constraints
    (Demo.forall₂_objects plan)
  exact ⟨g, known, plan, _, _, hg, hone, hknown, hplan, hchecked.types, hchecked.constraints,
    Demo.forall₂_objects plan, hfits, hinfer⟩

end LateBridge
