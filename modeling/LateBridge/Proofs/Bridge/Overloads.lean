import LateBridge.Proofs.Bridge.Siblings

/-!
# Proofs/Bridge/Overloads — wrappers that stand side by side

    overloads of a type, no two alike ──planned one by one──▸ wrappers, some of them alike

Overloads are told apart by name, number of type parameters and parameter types, where the type
parameters of a method have no names of their own (`Ty.SameUpTo`).  Erasing is many to one: arrays
all erase to one type, boxes to one interface.  So two overloads may get wrappers that nothing tells
apart, and no plan is compared with another.  It takes a name from a marker, type parameters marked
in different places, or a late-bound parameter whose declared types differ; where none of these
happens the wrappers differ because the overloads do (`clash_cases`).  Each of the three
happens (`wrappers_clash`).
-/

namespace LateBridge

/-! ## Signatures without names -/

/-- What each type parameter becomes when one list of them stands for another. -/
def Ty.relabel (vs ws : List TypeVar) : Ty.Subst := vs.zip (ws.map .var)

theorem Ty.relabel_cons (v w : TypeVar) (vs ws : List TypeVar) :
    relabel (v :: vs) (w :: ws) = (v, .var w) :: relabel vs ws :=
  rfl

/-- **Two types that are the same as they stand, or when the type parameters of the first are called
as those of the second.** -/
def Ty.SameUpTo (vs ws : List TypeVar) (t u : Ty) : Prop :=
  t = u ∨ t.subst (Ty.relabel vs ws) = u

instance (vs ws : List TypeVar) (t u : Ty) : Decidable (t.SameUpTo vs ws u) :=
  inferInstanceAs (Decidable (_ ∨ _))

/-- **Two methods of one type that overloading cannot tell apart.** -/
def Method.Alike (m other : Method) : Prop :=
  m.declaring = other.declaring ∧ m.name = other.name ∧ m.arity = other.arity ∧
    List.Forall₂ (fun q r : Param => q.type.SameUpTo m.vars other.vars r.type) m.params other.params

instance (m other : Method) : Decidable (m.Alike other) := inferInstanceAs (Decidable (_ ∧ _))

/-- **A graph in which no type declares two methods alike.** -/
def Graph.DistinctOverloads (g : Graph) : Prop :=
  ∀ m ∈ g.methods, ∀ other ∈ g.methods, m.Alike other → m = other

instance (g : Graph) : Decidable g.DistinctOverloads :=
  inferInstanceAs (Decidable (∀ m ∈ g.methods, ∀ other ∈ g.methods, _))

/-- What overloading looks at in a wrapper, as it stands. -/
def Wrapper.overload (w : Wrapper) : String × Nat × List (Ty × Bool) :=
  (w.name, w.typeParams.length, w.params.map fun q => (q.type, q.refKind != .none))

/-- **Two wrappers that overloading cannot tell apart**: the same name, as many type parameters, and
parameters of the same types that are passed alike, by value or by reference.  Those with the same
`overload` are. -/
def Wrapper.Alike (w other : Wrapper) : Prop :=
  w.name = other.name ∧ w.typeParams.length = other.typeParams.length ∧
    List.Forall₂ (fun q r : WrapperParam =>
      q.type.SameUpTo w.typeParams other.typeParams r.type ∧
        (q.refKind = .none ↔ r.refKind = .none)) w.params other.params

instance (w other : Wrapper) : Decidable (w.Alike other) := inferInstanceAs (Decidable (_ ∧ _))

/-- **Two plans of one type whose wrappers clash**: both are wrappers of their own, and alike. -/
def BridgePlan.Clash (plan other : BridgePlan) : Prop :=
  plan ≠ other ∧ plan.declaring = other.declaring ∧ plan.definition? = none ∧
    other.definition? = none ∧ plan.wrapper.Alike other.wrapper

instance (plan other : BridgePlan) : Decidable (plan.Clash other) :=
  inferInstanceAs (Decidable (_ ∧ _))

/-! ## Renaming the parameters that stay -/

namespace MarkerNames

variable {names : MarkerNames}

/-- Which type parameters of a method are marked, from the first to the last. -/
def pattern (names : MarkerNames) (m : Method) : List Bool := m.typeParams.map names.marks

/-- A parameter that is not marked is renamed alike among all and among those that stay. -/
theorem lookup_relabel {ps qs : List TypeParam} (h : ps.map names.marks = qs.map names.marks)
    {v : TypeVar} (hv : v ∉ (ps.filter names.marks).map (·.var)) :
    (Ty.relabel ((ps.filter (!names.marks ·)).map (·.var))
        ((qs.filter (!names.marks ·)).map (·.var))).lookup v =
      (Ty.relabel (ps.map (·.var)) (qs.map (·.var))).lookup v := by
  induction ps generalizing qs with
  | nil => rfl
  | cons a ps ih =>
    cases qs with
    | nil => cases h
    | cons b qs =>
      obtain ⟨hab, hrest⟩ := List.cons.inj h
      cases hmark : names.marks a with
      | true =>
        rw [List.filter_cons_of_pos (by simpa using hmark), List.map_cons, List.mem_cons,
          not_or] at hv
        rw [List.filter_cons_of_neg (by simp [hmark]),
          List.filter_cons_of_neg (by simp [← hab, hmark]), ih hrest hv.2, List.map_cons,
          List.map_cons, Ty.relabel_cons, List.lookup_cons, beq_eq_false_iff_ne.mpr hv.1]
      | false =>
        rw [List.filter_cons_of_neg (by simp [hmark])] at hv
        rw [List.filter_cons_of_pos (by simp [hmark]),
          List.filter_cons_of_pos (by simp [← hab, hmark]), List.map_cons, List.map_cons,
          List.map_cons, List.map_cons, Ty.relabel_cons, Ty.relabel_cons, List.lookup_cons,
          List.lookup_cons, ih hrest hv]

/-- **A type without marked parameters** is renamed alike among all and among those that stay. -/
theorem subst_relabel {m other : Method} (h : names.pattern m = names.pattern other) {t : Ty}
    (ht : ∀ v ∈ t.vars, v ∉ names.markedVars m) :
    t.subst (Ty.relabel (names.unmarkedVars m) (names.unmarkedVars other)) =
      t.subst (Ty.relabel m.vars other.vars) :=
  Ty.subst_congr t fun v hv => by
    have hlookup := lookup_relabel h (ht v hv)
    rw [Ty.subst_var, Ty.subst_var, unmarkedVars, unmarkedVars, hlookup]
    rfl

end MarkerNames

namespace Planner

variable {p : Planner} {ms : List Method} {plan other : BridgePlan}

/-! ## Wrappers of one method -/

/-- **A method has one plan.** -/
theorem eq_of_method_eq (hplan : plan ∈ (p.planGroup ms).plans)
    (hother : other ∈ (p.planGroup ms).plans) (h : plan.method = other.method) : plan = other := by
  obtain ⟨m, -, -, hmem⟩ := mem_planGroup.mp hplan
  obtain ⟨m', -, -, hmem'⟩ := mem_planGroup.mp hother
  obtain ⟨marks, hread, -, rfl⟩ := mem_planMethod.mp hmem
  obtain ⟨marks', hread', -, rfl⟩ := mem_planMethod.mp hmem'
  obtain rfl : m = m' := h
  obtain rfl : marks = marks' := Option.some.inj (Except.ok.inj (hread.symm.trans hread'))
  rfl

/-- Methods of different names have wrappers of one name only if a marker gives it. -/
theorem renamed_of_name_eq (hplan : plan ∈ (p.planGroup ms).plans)
    (hother : other ∈ (p.planGroup ms).plans) (h : plan.wrapper.name = other.wrapper.name)
    (hne : plan.method.name ≠ other.method.name) :
    (p.names.rename? plan.method).isSome ∨ (p.names.rename? other.method).isSome := by
  by_contra hnone
  simp only [not_or, Bool.not_eq_true, Option.isSome_eq_false_iff, Option.isNone_iff_eq_none]
    at hnone
  obtain ⟨hrename, hrename'⟩ := hnone
  rw [wrapper_name hplan, wrapper_name hother, hrename, hrename'] at h
  exact hne h

/-- What a wrapper of its own has of the method. -/
structure OfMethod (names : MarkerNames) (plan : BridgePlan) : Prop where
  typeParams : plan.wrapper.typeParams = names.unmarkedVars plan.method
  targets : plan.wrapper.params.map (·.target) = plan.method.params.map (·.type)
  static : ∀ q ∈ plan.wrapper.params, q.isDynamic = false →
    q.type = q.target ∧ ∀ v ∈ q.target.vars, v ∉ names.markedVars plan.method

/-- **Where nothing is erased, alike wrappers have alike methods**: it is enough that the late-bound
parameters have the same declared types. -/
theorem OfMethod.types_sameUpTo {names : MarkerNames} (hplan : OfMethod names plan)
    (hother : OfMethod names other) (halike : plan.wrapper.Alike other.wrapper)
    (hpattern : names.pattern plan.method = names.pattern other.method)
    (herased : ∀ x ∈ plan.wrapper.params.zip other.wrapper.params,
      x.1.isDynamic = true ∨ x.2.isDynamic = true →
        x.1.target.SameUpTo plan.method.vars other.method.vars x.2.target) :
    List.Forall₂ (fun q r : Param => q.type.SameUpTo plan.method.vars other.method.vars r.type)
      plan.method.params other.method.params := by
  obtain ⟨-, -, hparams⟩ := halike
  have htargets : List.Forall₂ (fun q r : WrapperParam =>
      q.target.SameUpTo plan.method.vars other.method.vars r.target)
      plan.wrapper.params other.wrapper.params := by
    refine List.forall₂_iff_zip.mpr ⟨hparams.length_eq, fun {q r} hqr => ?_⟩
    by_cases hdynamic : q.isDynamic = true ∨ r.isDynamic = true
    · exact herased (q, r) hqr hdynamic
    -- Neither is erased, so both have their declared types, which mention no marked parameter.
    rw [not_or, Bool.not_eq_true, Bool.not_eq_true] at hdynamic
    obtain ⟨htype, hfree⟩ := hplan.static q (List.of_mem_zip hqr).1 hdynamic.1
    obtain ⟨htype', -⟩ := hother.static r (List.of_mem_zip hqr).2 hdynamic.2
    obtain ⟨hsame, -⟩ := (List.forall₂_iff_zip.mp hparams).2 hqr
    rw [htype, htype', hplan.typeParams, hother.typeParams] at hsame
    exact hsame.imp_right (MarkerNames.subst_relabel hpattern hfree).symm.trans
  have htypes : List.Forall₂ (Ty.SameUpTo plan.method.vars other.method.vars)
      (plan.method.params.map (·.type)) (other.method.params.map (·.type)) := by
    rw [← hplan.targets, ← hother.targets, List.forall₂_map_left_iff, List.forall₂_map_right_iff]
    exact htargets
  rwa [List.forall₂_map_left_iff, List.forall₂_map_right_iff] at htypes

section Loaded

variable {docs : List GraphDocument} (h : load docs = .ok p.graph)
  (hms : ∀ m ∈ ms, m ∈ p.graph.methods)

include h hms

theorem ofMethod_of_fresh (hplan : plan ∈ (p.planGroup ms).plans)
    (hfresh : plan.definition? = none) : OfMethod p.names plan := by
  obtain ⟨m, hm, -, hmem⟩ := mem_planGroup.mp hplan
  obtain ⟨marks, hread, herrors, rfl⟩ := mem_planMethod.mp hmem
  refine ⟨?_, map_target m marks, fun q hq hstatic => ⟨type_eq_target hfresh hq hstatic, ?_⟩⟩
  · rw [planOf_wrapper hfresh]
    exact retained_eq (vars_of_load h (hms m hm)).1 hread
  · intro v hv hmarked
    have hdynamic := (isDynamic_iff hread herrors hq).mpr ⟨v, hv, hmarked⟩
    exact Bool.false_ne_true (hstatic.symm.trans hdynamic)

/-- **Wrappers clash only if erasing or a marker makes them so**: a marker gives one of them its
name, the type parameters are marked in different places, or a late-bound parameter has different
declared types. -/
theorem clash_cases (hdistinct : p.graph.DistinctOverloads)
    (hplan : plan ∈ (p.planGroup ms).plans) (hother : other ∈ (p.planGroup ms).plans)
    (hclash : plan.Clash other) :
    (plan.method.name ≠ other.method.name ∧
      ((p.names.rename? plan.method).isSome ∨ (p.names.rename? other.method).isSome)) ∨
    p.names.pattern plan.method ≠ p.names.pattern other.method ∨
    ∃ x ∈ plan.wrapper.params.zip other.wrapper.params,
      (x.1.isDynamic = true ∨ x.2.isDynamic = true) ∧
        ¬x.1.target.SameUpTo plan.method.vars other.method.vars x.2.target := by
  obtain ⟨hne, hdeclaring, hfresh, hfresh', halike⟩ := hclash
  by_cases hname : plan.method.name = other.method.name
  swap
  · exact .inl ⟨hname, renamed_of_name_eq hplan hother halike.1 hname⟩
  refine .inr (or_iff_not_imp_left.mpr fun hpattern => ?_)
  rw [not_not] at hpattern
  by_contra hnone
  simp only [not_exists, not_and, not_not] at hnone
  have harity : plan.method.arity = other.method.arity := by
    simpa [MarkerNames.pattern, Method.arity] using congrArg List.length hpattern
  have htypes := (ofMethod_of_fresh h hms hplan hfresh).types_sameUpTo
    (ofMethod_of_fresh h hms hother hfresh') halike hpattern hnone
  have hmethods := hdistinct _ (hms _ (method_mem_of_mem_planGroup hplan)) _
    (hms _ (method_mem_of_mem_planGroup hother)) ⟨hdeclaring, hname, harity, htypes⟩
  exact hne (eq_of_method_eq hplan hother hmethods)

end Loaded

end Planner

/-! Classes whose wrappers clash. -/

namespace Siblings

/-- **A class in which no two overloads are alike**, and two plans of it clash; of these plans
something more is said. -/
def Clashing (methods : List MethodDoc) (also : BridgePlan → BridgePlan → Prop) : Prop :=
  ∃ p : Planner, load (docs methods) = .ok p.graph ∧ WellKnown.resolve p.graph = .ok p.known ∧
    p.graph.DistinctOverloads ∧
    ∃ plan ∈ (p.planGroup (({} : MarkerNames).candidates p.graph)).plans,
      ∃ other ∈ (p.planGroup (({} : MarkerNames).candidates p.graph)).plans,
        plan.Clash other ∧ also plan other

theorem clashing_of_check {methods : List MethodDoc} {also : BridgePlan → BridgePlan → Prop}
    [∀ plan other, Decidable (also plan other)]
    (h : check methods (fun g plans => decide (g.DistinctOverloads ∧
      ∃ plan ∈ plans, ∃ other ∈ plans, plan.Clash other ∧ also plan other)) = true) :
    Clashing methods also := by
  obtain ⟨p, hload, hknown, hasked⟩ := exists_of_check h
  exact ⟨p, hload, hknown, of_decide_eq_true hasked⟩

/-- A type parameter, marked or not, with its bounds. -/
def param (name : String) (marked : Bool) (bounds : List String) : TypeParamDoc :=
  { CoreLibrary.param name with
    attributes := if marked then [⟨"Bridgegen.DynamicBridgeAttribute", [], []⟩] else []
    constraints := bounds }

/-- A method with two type parameters, an argument of each and one more. -/
def crossed (first second : TypeParamDoc) (last : String) : MethodDoc :=
  { bridged "Put" "T" none with
    typeParams := [first, second]
    params := [⟨"one", "T", .none, none, false, none⟩, ⟨"two", "U", .none, none, false, none⟩,
      ⟨"three", last, .none, none, false, none⟩] }

/-- Two overloads that are marked in different places. -/
def crossing : List MethodDoc :=
  [crossed (param "T" true ["U"]) (param "U" false []) "U[]",
    crossed (param "T" false []) (param "U" true ["T"]) "T[]"]

end Siblings

/-- Two overloads that take arrays clash, and no marker gives them a name. -/
theorem clash_cases_arrays : ∃ p : Planner,
    load (Siblings.docs [Siblings.bridged "Put" "T[]" none,
      Siblings.bridged "Put" "T[][]" none]) = .ok p.graph ∧ p.graph.DistinctOverloads ∧
      ∃ plan other : BridgePlan, plan.Clash other ∧
        (p.names.pattern plan.method ≠ p.names.pattern other.method ∨
        ∃ x ∈ plan.wrapper.params.zip other.wrapper.params,
          (x.1.isDynamic = true ∨ x.2.isDynamic = true) ∧
            ¬x.1.target.SameUpTo plan.method.vars other.method.vars x.2.target) := by
  obtain ⟨p, hload, -, hdistinct, plan, hplan, other, hother, hclash, hname⟩ :
      Siblings.Clashing [Siblings.bridged "Put" "T[]" none, Siblings.bridged "Put" "T[][]" none]
        fun plan other => plan.method.name = other.method.name :=
    Siblings.clashing_of_check (by decide +kernel)
  have hcases := Planner.clash_cases hload (Siblings.candidates_subset _) hdistinct hplan hother
    hclash
  exact ⟨p, hload, hdistinct, plan, other, hclash,
    hcases.resolve_left fun hnames => hnames.1 hname⟩

/-- **Overloads get wrappers that nothing tells apart**: two arrays erase to one type, a marker
gives a wrapper the name of another, or each of two type parameters erases to the other. -/
theorem wrappers_clash :
    (Siblings.Clashing [Siblings.bridged "Put" "T[]" none, Siblings.bridged "Put" "T[][]" none]
      fun plan other => plan.wrapper.overload = other.wrapper.overload) ∧
    (Siblings.Clashing [Siblings.bridged "Put" "T" none, Siblings.bridged "Take" "T" (some "Put")]
      fun plan other => plan.wrapper.overload = other.wrapper.overload) ∧
    Siblings.Clashing Siblings.crossing fun plan other =>
      plan.method.name = other.method.name ∧
        ∀ x ∈ plan.wrapper.params.zip other.wrapper.params,
          x.1.isDynamic = true ∨ x.2.isDynamic = true →
            x.1.target.SameUpTo plan.method.vars other.method.vars x.2.target :=
  ⟨Siblings.clashing_of_check (by decide +kernel), Siblings.clashing_of_check (by decide +kernel),
    Siblings.clashing_of_check (by decide +kernel)⟩

end LateBridge
