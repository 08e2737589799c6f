import LateBridge.Proofs.Bridge.ErasureScope
import LateBridge.Proofs.Bridge.Plans

/-!
# Proofs/Bridge/Signatures — what a wrapper's signature mentions

A wrapper of its own is made of erased types, so what it mentions is visible in the method and not
marked, unless a type given for a marked parameter mentions a marked one (`freshWrapper_free`).  A
wrapper that implements a definition has the definition's types, which know nothing of the method.
Either way the signature mentions only the wrapper's own type parameters and those of the types
around it (`signature_closed`).  Given types are not looked into when they are read, and one that
mentions its own parameter is put into the signature (`signature_not_closed_of_given`).
-/

namespace LateBridge

/-- **The types in the signature of a wrapper.** -/
def Wrapper.signature (w : Wrapper) : List Ty :=
  w.params.map (·.type) ++ [w.returns] ++ w.constraints.flatMap (·.types)

theorem Wrapper.mem_signature {w : Wrapper} {t : Ty} : t ∈ w.signature ↔
    (∃ q ∈ w.params, q.type = t) ∨ t = w.returns ∨ ∃ c ∈ w.constraints, t ∈ c.types := by
  simp [signature]

/-- The type parameters mentioned by the types given for marked ones. -/
def Marks.givenVars (marks : Marks) : List TypeVar :=
  marks.marked.flatMap fun p => p.2.toList.flatMap Ty.vars

namespace MarkerNames

variable {names : MarkerNames}

theorem mem_types_of_givenType? {marker : Attribute} {t : Ty}
    (h : givenType? marker = some (some t)) : t ∈ marker.types := by
  unfold givenType? at h
  split at h
  · cases h
  · cases h
  · rename_i hargs _
    cases h
    simp [Attribute.types, hargs]
  · cases h

/-- **A given type is stored with the method.** -/
theorem mem_storedTypes_of_readParams {m : Method} {ps : List TypeParam}
    {marked : List (TypeVar × Option Ty)} (h : names.readParams m ps = .ok marked) {v : TypeVar}
    {t : Ty} (ht : (v, some t) ∈ marked) : t ∈ ps.flatMap TypeParam.storedTypes := by
  induction ps generalizing marked with
  | nil =>
    cases h
    cases ht
  | cons p ps ih =>
    rw [List.flatMap_cons, List.mem_append]
    rw [readParams] at h
    split at h
    · exact .inr (ih h ht)
    rename_i marker hmarker
    split at h
    · cases h
    rename_i given hgiven
    split at h
    · rename_i hmore
      cases h
      obtain hhead | htail := List.mem_cons.mp ht
      · cases hhead
        have hattribute : marker ∈ p.attributes := List.mem_of_find?_eq_some hmarker
        exact .inl (List.mem_append_right _
          (List.mem_flatMap.mpr ⟨marker, hattribute, mem_types_of_givenType? hgiven⟩))
      · exact .inr (ih hmore htail)
    · cases h

end MarkerNames

namespace Planner

variable {p : Planner} {m : Method} {marks : Marks}

/-! ## Wrappers of their own -/

theorem free_typeOf {a : Erasure.Answer} (h : (p.erasure marks).FreeAnswer m a) :
    (p.erasure marks).Free m (typeOf a) := by
  cases a with
  | ok t => exact h t rfl
  | error x => exact Erasure.free_of_vars_eq_nil rfl

section Fresh

variable (he : (p.erasure marks).Inside m)

include he

/-- Types erased one after the other. -/
theorem free_threaded {ts : List Ty} (hts : ∀ t ∈ ts, t.WellFormed p.graph.names m.visible)
    {s : Erasure.State} (hs : s.Free (p.erasure marks) m) :
    (∀ a ∈ (threaded (p.erasure marks).simplify s ts).1, (p.erasure marks).FreeAnswer m a) ∧
      (threaded (p.erasure marks).simplify s ts).2.Free (p.erasure marks) m := by
  obtain ⟨hall, hs'⟩ := threaded_forall₂ (f := (p.erasure marks).simplify) ts
    (I := (·.Free (p.erasure marks) m)) (R := fun _ a => (p.erasure marks).FreeAnswer m a)
    (fun t ht s hs => he.free_simplify hs (hts t ht)) hs
  refine ⟨fun a ha => ?_, hs'⟩
  obtain ⟨_, -, hfree⟩ := exists_of_mem_forall₂ hall ha
  exact hfree

/-- **What a draft erases to is free.** -/
theorem draft_free (hm : ∀ t ∈ m.storedTypes, t.WellFormed p.graph.names m.visible) :
    (∀ x ∈ (p.draft m marks).params, (p.erasure marks).FreeAnswer m x.1) ∧
      (p.erasure marks).FreeAnswer m (p.draft m marks).returns ∧
        (p.draft m marks).state.Free (p.erasure marks) m := by
  have hnew : ({} : Erasure.State).Free (p.erasure marks) m := fun v a h => nomatch h
  have hmarked : ∀ v ∈ marks.marked.map (·.1), (p.erasure marks).isMarked v = true :=
    List.forall_mem_map.mpr fun q hq => List.any_eq_true.mpr ⟨q, hq, beq_self_eq_true _⟩
  have hparamTypes : ∀ t ∈ m.params.map (·.type), t.WellFormed p.graph.names m.visible :=
    fun t ht => hm t (by simp_all [Method.storedTypes])
  have hreturnType : m.returns.WellFormed p.graph.names m.visible :=
    hm _ (by simp [Method.storedTypes])
  obtain ⟨-, hs₁⟩ := threaded_forall₂ (f := (p.erasure marks).eraseParam)
    (marks.marked.map (·.1)) (I := (·.Free (p.erasure marks) m))
    (R := fun _ a => (p.erasure marks).FreeAnswer m a)
    (fun v hv s hs => he.free_eraseParam hs (hmarked v hv)) hnew
  obtain ⟨hparams, hs₂⟩ := free_threaded he hparamTypes hs₁
  refine ⟨fun x hx => hparams _ (List.of_mem_zip hx).1, ?_⟩
  rw [draft]
  dsimp only
  split
  · exact ⟨Erasure.freeAnswer_ok (Erasure.free_of_vars_eq_nil rfl), hs₂⟩
  · exact he.free_simplifyReturn hs₂ hreturnType _

/-- The constraints of a parameter that stays are free. -/
theorem freshClause_free {s : Erasure.State} (hs : s.Free (p.erasure marks) m) {v : TypeVar}
    (hv : v ∈ m.vars) : (∀ t ∈ (p.freshClause marks s v).1.types, (p.erasure marks).Free m t) ∧
      (p.freshClause marks s v).2.Free (p.erasure marks) m := by
  obtain ⟨hanswers, hs'⟩ := free_threaded he (he.constraints v hv) hs
  refine ⟨fun t ht => ?_, hs'⟩
  obtain ⟨a, ha, hta⟩ := List.mem_filterMap.mp ht
  cases a with
  | error x => cases hta
  | ok u =>
    dsimp only at hta
    split at hta
    · cases hta
      exact hanswers _ ha t rfl
    · cases hta

/-- **The signature of a wrapper of its own is free.** -/
theorem freshWrapper_free (hm : ∀ t ∈ m.storedTypes, t.WellFormed p.graph.names m.visible) :
    ∀ t ∈ (p.freshWrapper (p.draft m marks)).signature, (p.erasure marks).Free m t := by
  obtain ⟨hparams, hreturns, hs⟩ := draft_free he hm
  intro t ht
  obtain ⟨w, hw, rfl⟩ | rfl | ⟨c, hc, ht⟩ := Wrapper.mem_signature.mp ht
  · obtain ⟨x, hx, rfl⟩ := List.mem_map.mp hw
    exact free_typeOf (hparams _ (List.of_mem_zip hx).2)
  · exact free_typeOf hreturns
  · have hkept : ∀ v ∈ retained m marks, v ∈ m.vars := fun v hv => List.mem_of_mem_filter hv
    obtain ⟨hall, -⟩ := threaded_forall₂ (f := p.freshClause marks) (retained m marks)
      (I := (·.Free (p.erasure marks) m))
      (R := fun _ c => ∀ t ∈ c.types, (p.erasure marks).Free m t)
      (fun v hv s hs => freshClause_free he hs (hkept v hv)) hs
    obtain ⟨_, -, hfree⟩ := exists_of_mem_forall₂ hall hc
    exact hfree t ht

end Fresh

/-! ## Wrappers that implement a definition -/

/-- The signature of a wrapper that implements a definition is stored with the definition. -/
theorem definedWrapper_stored {d : Draft} {definition : Method} :
    ∀ t ∈ (definedWrapper d definition).signature, t ∈ definition.storedTypes := by
  intro t ht
  simp only [Method.storedTypes, List.mem_append]
  obtain ⟨w, hw, rfl⟩ | rfl | ⟨c, hc, ht⟩ := Wrapper.mem_signature.mp ht
  · obtain ⟨x, hx, rfl⟩ := List.mem_map.mp hw
    exact .inl (.inl (.inr (List.mem_map_of_mem (List.of_mem_zip hx).1)))
  · exact .inl (.inr (List.mem_singleton_self _))
  · obtain ⟨q, hq, rfl⟩ := List.mem_map.mp hc
    exact .inl (.inl (.inl (List.mem_flatMap.mpr ⟨q, hq, List.mem_append_left _ ht⟩)))

/-- A definition is another method of the declaring type, with the name of the wrapper and as many
parameters. -/
theorem mem_definitions {definition : Method} (h : definition ∈ p.definitions m marks) :
    (∃ d, p.graph.decl? m.declaring = some d ∧ definition ∈ d.methods) ∧ definition.id ≠ m.id ∧
      definition.name = marks.wrapperName m ∧ definition.params.length = m.params.length := by
  rw [definitions] at h
  cases hd : p.graph.decl? m.declaring with
  | none =>
    rw [hd] at h
    cases h
  | some d =>
    rw [hd, Option.map_some, Option.getD_some] at h
    obtain ⟨hnamed, hfits⟩ := List.mem_filter.mp h
    simp only [Bool.and_eq_true, bne_iff_ne, beq_iff_eq] at hfits
    obtain ⟨⟨⟨⟨hother, -⟩, -⟩, hlength⟩, -⟩ := hfits
    obtain ⟨hmem, hname⟩ := List.mem_filter.mp hnamed
    exact ⟨⟨d, rfl, hmem⟩, hother, eq_of_beq hname, hlength⟩

/-- **The wrapper of a plan** is one of its own or implements a definition. -/
theorem planOf_wrapper_cases (d : Draft) : (p.planOf d).wrapper = p.freshWrapper d ∨
    ∃ definition ∈ p.definitions d.method d.marks,
      (p.planOf d).wrapper = definedWrapper d definition := by
  rcases hdefinitions : p.definitions d.method d.marks with _ | ⟨definition, _ | ⟨other, rest⟩⟩
  · exact .inl (by simp only [planOf, hdefinitions])
  · exact .inr ⟨definition, List.mem_singleton_self _, by simp only [planOf, hdefinitions]⟩
  · exact .inl (by simp only [planOf, hdefinitions])

end Planner

/-! ## Closed signatures -/

section Loaded

variable {docs : List GraphDocument} {g : Graph} {known : WellKnown} {names : MarkerNames}
  {m : Method} {marks : Marks} (h : load docs = .ok g)
  (hnames : ∀ doc ∈ docs, ∀ e ∈ doc.entries, e.wellNamed = true)
  (hm : m ∈ g.methods) (hmarks : names.read m = .ok (some marks))

include h hnames hm hmarks

/-- **The marks of a loaded method fit the method.** -/
theorem inside_of_read (hknown : WellKnown.resolve g = .ok known) :
    (Planner.erasure ⟨g, known, names⟩ marks).Inside m where
  stored := wellStored_of_load h hnames
  known := WellKnown.vars_of_resolve hknown
  own _ hv := MarkerNames.mem_vars_of_isMarked hmarks hv
  given v hv := by
    obtain ⟨⟨w, given⟩, hmem, hgiven⟩ := List.mem_flatMap.mp hv
    obtain ⟨t, ht, hvt⟩ := List.mem_flatMap.mp hgiven
    obtain rfl : given = some t := Option.mem_toList.mp ht
    have hparams := (MarkerNames.readParams_of_read hmarks).1
    have hstored : t ∈ m.storedTypes := by
      simp only [Method.storedTypes, List.mem_append]
      exact .inl (.inl (.inl (MarkerNames.mem_storedTypes_of_readParams hparams hmem)))
    exact (wellFormed_of_mem_methods h hnames hm hstored).mem_vars hvt
  constraints v hv t ht := by
    obtain ⟨q, hq, ht⟩ := List.mem_flatMap.mp (constraintTypes_subset h hm hv ht)
    refine wellFormed_of_mem_methods h hnames hm ?_
    simp only [Method.storedTypes, List.mem_append]
    exact .inl (.inl (.inl (List.mem_flatMap.mpr ⟨q, hq, List.mem_append_left _ ht⟩)))

omit hnames in
/-- A definition that the wrapper could implement belongs to the same type, and nothing that is
visible in it is marked. -/
theorem definition_of_mem {definition : Method}
    (hdefinition : definition ∈ Planner.definitions ⟨g, known, names⟩ m marks) :
    definition ∈ g.methods ∧ definition.declaring = m.declaring ∧
      ∀ v ∈ definition.visible, marks.isMarked v = false := by
  obtain ⟨⟨d, hd, hmem⟩, hother, -, -⟩ := Planner.mem_definitions hdefinition
  obtain ⟨d₀, hd₀, hm₀⟩ := List.mem_flatMap.mp hm
  obtain ⟨hname₀, -⟩ := method?_of_mem h hd₀ hm₀
  obtain rfl : d₀ = d := Option.some.inj ((decl?_of_mem h hd₀).symm.trans (hname₀ ▸ hd))
  obtain ⟨hname, -⟩ := method?_of_mem h hd₀ hmem
  have hmethod : definition ∈ g.methods := List.mem_flatMap.mpr ⟨d₀, hd₀, hmem⟩
  refine ⟨hmethod, hname.trans hname₀.symm, fun v hv => ?_⟩
  by_contra hmarked
  have howner : v.owner = .method m.id := (vars_of_load h hm).2 v
    (MarkerNames.mem_vars_of_isMarked hmarks (Bool.not_eq_false _ ▸ hmarked))
  obtain htype | hown := List.mem_append.mp hv
  · obtain ⟨n, hn⟩ := ofType_of_mem_vars htype
    cases howner.symm.trans hn
  · have hdefinitionOwner := (vars_of_load h hmethod).2 v hown
    exact hother (Owner.method.inj (hdefinitionOwner.symm.trans howner))

/-- **What the wrapper of a plan mentions**: marked parameters as far as given types mention them,
and otherwise its own type parameters and those of the types around it. -/
theorem mentions_of_planOf (hknown : WellKnown.resolve g = .ok known) {wrapper : Wrapper}
    (hwrapper : (Planner.planOf ⟨g, known, names⟩
      (Planner.draft ⟨g, known, names⟩ m marks)).wrapper = wrapper)
    {t : Ty} (ht : t ∈ wrapper.signature) {v : TypeVar} (hv : v ∈ t.vars) :
    (marks.isMarked v = true → v ∈ marks.givenVars) ∧
      (marks.isMarked v = false → v ∈ wrapper.typeParams ∨ v ∈ m.declaring.vars) := by
  subst hwrapper
  obtain hfresh | ⟨definition, hdefinition, hdefined⟩ := Planner.planOf_wrapper_cases
    (p := ⟨g, known, names⟩) (Planner.draft ⟨g, known, names⟩ m marks)
  · rw [hfresh] at ht ⊢
    have hfree := Planner.freshWrapper_free (inside_of_read h hnames hm hmarks hknown)
      (fun u hu => wellFormed_of_mem_methods h hnames hm hu) t ht
    obtain ⟨hvisible, hgiven⟩ := hfree v hv
    refine ⟨hgiven, fun hunmarked => ?_⟩
    obtain haround | hown := List.mem_append.mp hvisible
    · exact .inr haround
    · have hretained : v ∈ Planner.retained m marks :=
        List.mem_filter.mpr ⟨hown, by rw [hunmarked, Bool.not_false]⟩
      exact .inl hretained
  · rw [hdefined] at ht ⊢
    obtain ⟨hmethod, hdeclaring, hunmarked⟩ := definition_of_mem h hm hmarks hdefinition
    have hstored := Planner.definedWrapper_stored t ht
    have hvisible := (wellFormed_of_mem_methods h hnames hmethod hstored).mem_vars hv
    refine ⟨fun hmarked => ?_, fun _ => ?_⟩
    · exact absurd (hmarked.symm.trans (hunmarked v hvisible)) (by decide)
    · exact (List.mem_append.mp hvisible).symm.imp_right (hdeclaring ▸ ·)

end Loaded

/-- **Wrapper signatures are closed.**  If no type given for a marked parameter mentions a marked
one, the signature of a planned wrapper mentions only the wrapper's own type parameters and those of
the types around the method, and no marked parameter among them. -/
theorem signature_closed {docs : List GraphDocument} {g : Graph} {known : WellKnown}
    {names : MarkerNames} {ms : List Method} {plan : BridgePlan} {marks : Marks}
    (hnames : ∀ doc ∈ docs, ∀ e ∈ doc.entries, e.wellNamed = true) (h : load docs = .ok g)
    (hknown : WellKnown.resolve g = .ok known) (hms : ∀ m ∈ ms, m ∈ g.methods)
    (hplan : plan ∈ (Planner.planGroup ⟨g, known, names⟩ ms).plans)
    (hmarks : names.read plan.method = .ok (some marks))
    (hgiven : ∀ v ∈ marks.givenVars, marks.isMarked v = false) :
    ∀ t ∈ plan.wrapper.signature, ∀ v ∈ t.vars, marks.isMarked v = false ∧
      (v ∈ plan.wrapper.typeParams ∨ v ∈ plan.method.declaring.vars) := by
  intro t ht v hv
  obtain ⟨m, hm, -, hmem⟩ := Planner.mem_planGroup.mp hplan
  obtain ⟨marks', hread, -, rfl⟩ := Planner.mem_planMethod.mp hmem
  obtain rfl : marks = marks' := Option.some.inj (Except.ok.inj (hmarks.symm.trans hread))
  obtain ⟨hmarked, hunmarked⟩ := mentions_of_planOf h hnames (hms m hm) hread hknown rfl ht hv
  have hfree : marks.isMarked v = false := by
    by_contra hmark
    have hmark : marks.isMarked v = true := Bool.not_eq_false _ ▸ hmark
    exact absurd (hmark.symm.trans (hgiven v (hmarked hmark))) (by decide)
  exact ⟨hfree, hunmarked hfree⟩

/-! A method with a type given for its marked parameter: with a type of its own all is well; with
the parameter itself, the wrapper is left with a parameter that nothing declares. -/

namespace Given

/-- A method whose first type parameter is marked with a given type. -/
def put (given : String) : MethodDoc :=
  { name := "Put", accessibility := "public", flags := {}
    typeParams := [
      { CoreLibrary.param "T" with
        attributes := [⟨"Bridgegen.DynamicBridgeAttribute", [.typeOf given], []⟩] },
      { CoreLibrary.param "U" with constraints := ["IBox<T>", "IBox<U>"] }]
    params := [⟨"item", "T", .none, none, false, none⟩, ⟨"rest", "U[]", .none, none, false, none⟩]
    returns := "void", attributes := [], location := none }

/-- A generic class with the method. -/
def docs (given : String) : List GraphDocument :=
  [{ coreLibrary := false, usings := []
     types := CoreLibrary.bareTypes ++ [
      { CoreLibrary.interfaceType "Shop" "IBox" with typeParams := [CoreLibrary.param "C"] },
      { CoreLibrary.classType "Shop" "Store" with
        typeParams := [CoreLibrary.param "S"], isPartial := true, methods := [put given] }] }]

/-- The class. -/
def store : DeclName := .top (some "Shop") "Store" ["S"]

/-- The type parameter of the class. -/
def ofStore : Ty := .var ⟨.type store, 0, "S"⟩

/-- The type parameter of the method that is not marked. -/
def rest : Ty := .var ⟨.method ⟨store, 0⟩, 1, "U"⟩

/-- A box of something. -/
def boxOf (t : Ty) : Ty := .named (.top (some "Shop") "IBox" ["C"]) [t]

/-- Whether documents give one plan, of which something holds. -/
def check (docs : List GraphDocument) (asked : Marks → BridgePlan → Bool) : Bool :=
  match load docs with
  | .error _ => false
  | .ok g =>
    match WellKnown.resolve g with
    | .error _ => false
    | .ok known =>
      match (Planner.planGroup ⟨g, known, {}⟩ g.methods).plans with
      | [plan] =>
        match ({} : MarkerNames).read plan.method with
        | .ok (some marks) => asked marks plan
        | _ => false
      | _ => false

theorem exists_plan_of_check {docs : List GraphDocument} {asked : Marks → BridgePlan → Bool}
    (h : check docs asked = true) : ∃ g known plan marks, load docs = .ok g ∧
      WellKnown.resolve g = .ok known ∧ plan ∈ (Planner.planGroup ⟨g, known, {}⟩ g.methods).plans ∧
        ({} : MarkerNames).read plan.method = .ok (some marks) ∧ asked marks plan = true := by
  rw [check] at h
  split at h
  · cases h
  rename_i g hload
  split at h
  · cases h
  rename_i known hknown
  split at h
  · rename_i plan hplans
    split at h
    · rename_i marks hmarks
      exact ⟨g, known, plan, marks, hload, hknown, by simp [hplans], hmarks, h⟩
    · cases h
  · cases h

end Given

/-- The wrapper of a method with a box as the given type. -/
theorem signature_closed_box : ∃ (g : Graph) (known : WellKnown) (plan : BridgePlan)
    (marks : Marks), load (Given.docs "IBox<S[]>") = .ok g ∧
    WellKnown.resolve g = .ok known ∧ plan ∈ (Planner.planGroup ⟨g, known, {}⟩ g.methods).plans ∧
      plan.wrapper.signature = [Given.boxOf (.array Given.ofStore 1), .array Given.rest 1, .void,
        Given.boxOf Given.rest] ∧
      ∀ t ∈ plan.wrapper.signature, ∀ v ∈ t.vars, marks.isMarked v = false ∧
        (v ∈ plan.wrapper.typeParams ∨ v ∈ plan.method.declaring.vars) := by
  have hcheck : Given.check (Given.docs "IBox<S[]>") (fun marks plan =>
      marks.givenVars.all (!marks.isMarked ·) && plan.wrapper.signature ==
        [Given.boxOf (.array Given.ofStore 1), .array Given.rest 1, .void,
          Given.boxOf Given.rest]) = true := by decide +kernel
  have hnames : ∀ doc ∈ Given.docs "IBox<S[]>", ∀ e ∈ doc.entries, e.wellNamed = true := by
    decide +kernel
  obtain ⟨g, known, plan, marks, hload, hknown, hplan, hmarks, hasked⟩ :=
    Given.exists_plan_of_check hcheck
  obtain ⟨hgiven, hsignature⟩ := Bool.and_eq_true_iff.mp hasked
  exact ⟨g, known, plan, marks, hload, hknown, hplan, eq_of_beq hsignature,
    signature_closed hnames hload hknown (fun m hm => hm) hplan hmarks
      (by simpa using hgiven)⟩

/-- **A given type that mentions its own parameter leaves it in the wrapper's signature**, where
nothing declares it. -/
theorem signature_not_closed_of_given : ∃ (g : Graph) (known : WellKnown) (plan : BridgePlan)
    (marks : Marks), load (Given.docs "T") = .ok g ∧
    WellKnown.resolve g = .ok known ∧ plan ∈ (Planner.planGroup ⟨g, known, {}⟩ g.methods).plans ∧
      ({} : MarkerNames).read plan.method = .ok (some marks) ∧
      ∃ t ∈ plan.wrapper.signature, ∃ v ∈ t.vars, marks.isMarked v = true ∧
        v ∉ plan.wrapper.typeParams ∧ v ∉ plan.method.declaring.vars := by
  have hcheck : Given.check (Given.docs "T") (fun marks plan => plan.wrapper.signature.any fun t =>
      t.vars.any fun v => marks.isMarked v && !plan.wrapper.typeParams.contains v &&
        !plan.method.declaring.vars.contains v) = true := by decide +kernel
  obtain ⟨g, known, plan, marks, hload, hknown, hplan, hmarks, hasked⟩ :=
    Given.exists_plan_of_check hcheck
  refine ⟨g, known, plan, marks, hload, hknown, hplan, hmarks, ?_⟩
  simpa [and_assoc] using hasked

end LateBridge
