import LateBridge.Proofs.Bridge.Signatures
import LateBridge.Proofs.Source.Denotation
import LateBridge.Source.BridgeCode

/-!
# Proofs/Source/Capture — printed names that mean another type parameter

    stored type ──source──▸ text in the target ──read in the scope of the method──▸ type
                                                 │ the same, where no name is hidden

A target is printed with the types of its method, and type parameters are printed by their bare
names.  The types of nested declarations have arguments that nobody wrote: a reference leaves out
those of the outer types, and the graph puts in these types' own parameters.  Printed, they are
names like others, and the method or a type further inside may have a type parameter of that name.
So the text of a type denotes the type exactly if every type parameter that it mentions is the
innermost one of its name (`target_denotes_iff`).
-/

namespace LateBridge

/-! ## What a target prints -/

/-- **The types in the declaration of a target**: its header has the types of the parameters and the
return type, and its clauses have the constraint types. -/
def Method.signatureTypes (m : Method) : List Ty :=
  m.params.map (·.type) ++ [m.returns] ++ m.typeParams.flatMap (·.types)

theorem Method.signatureTypes_subset (m : Method) : m.signatureTypes ⊆ m.storedTypes := by
  intro t ht
  simp only [signatureTypes, storedTypes, List.mem_append] at ht ⊢
  obtain (ht | ht) | ht := ht
  · exact .inl (.inl (.inr ht))
  · exact .inl (.inr ht)
  · obtain ⟨q, hq, ht⟩ := List.mem_flatMap.mp ht
    exact .inl (.inl (.inl (List.mem_flatMap.mpr ⟨q, hq, List.mem_append_left _ ht⟩)))

/-- **The scope of a target** is that of its method. -/
def BridgePlan.scope (plan : BridgePlan) (usings : List String) : Scope :=
  ⟨plan.declaring, plan.method.vars, usings⟩

/-! ## What the text denotes -/

/-- **Printed types denote what their names are taken for.** -/
theorem bindType_captured {docs : List GraphDocument} {g : Graph} (h : load docs = .ok g)
    (hnames : ∀ doc ∈ docs, ∀ e ∈ doc.entries, e.name.wellNamed = true)
    (hspaces : DeclName.SpacesApart g.names) {s : Scope}
    (hs : ∀ v ∈ s.type.vars ++ s.methodVars, v.spellable = true) (context : String) {t : Ty}
    (ht : t.WellFormed g.names (s.type.vars ++ s.methodVars))
    (hnesting : t.nesting ≤ TypeReader.maxNesting) :
    g.bindType s context t.source = .ok (t.subst s.captures) := by
  have hcoherent : DeclName.Coherent g.names := coherent_of_load h hnames
  have hread : TypeSyntax.read t.source = .ok t.written :=
    ht.read_source hcoherent.wellNamed (fun v hv => TypeVar.isName_of_spellable (hs v hv)) hnesting
  have hresolve : g.resolve s t.written = .ok (t.subst s.captures) :=
    Graph.resolve_captured hcoherent hspaces hs ht
  rw [Graph.bindType, hread]
  simp only [hresolve]

section Target

variable {docs : List GraphDocument} {g : Graph} {known : WellKnown} {names : MarkerNames}
  {ms : List Method} {plan : BridgePlan} (h : load docs = .ok g)
  (hnames : ∀ doc ∈ docs, ∀ e ∈ doc.entries, e.wellNamed = true)
  (hms : ∀ m ∈ ms, m ∈ g.methods)
  (hplan : plan ∈ (Planner.planGroup ⟨g, known, names⟩ ms).plans)

include h hnames hms hplan

/-- The types that a target prints are well formed in its scope. -/
theorem wellFormed_of_mem_signatureTypes {t : Ty} (ht : t ∈ plan.method.signatureTypes)
    (usings : List String) : t.WellFormed g.names
      ((plan.scope usings).type.vars ++ (plan.scope usings).methodVars) :=
  wellFormed_of_mem_methods h hnames (hms _ (Planner.method_mem_of_mem_planGroup hplan))
    (plan.method.signatureTypes_subset ht)

/-- **When a target denotes the types of its method.**  Read and resolved in the scope of the
method, the text of a type that the target prints denotes the type with the innermost type
parameters of their names; so it denotes the type itself exactly if each type parameter that the
type mentions is the innermost one of its name. -/
theorem target_denotes_iff (hspaces : DeclName.SpacesApart g.names)
    (hspellable : ∀ v ∈ plan.method.visible, v.spellable = true) (usings : List String)
    (context : String) {t : Ty} (ht : t ∈ plan.method.signatureTypes)
    (hnesting : t.nesting ≤ TypeReader.maxNesting) :
    g.bindType (plan.scope usings) context t.source =
        .ok (t.subst (plan.scope usings).captures) ∧
      (g.bindType (plan.scope usings) context t.source = .ok t ↔
        ∀ v ∈ t.vars, (plan.scope usings).var? v.name = some v) := by
  have hformed := wellFormed_of_mem_signatureTypes h hnames hms hplan ht usings
  have hbind := bindType_captured h
    (fun doc hdoc e he => Entry.name_wellNamed (hnames doc hdoc e he)) hspaces
    (s := plan.scope usings) hspellable context hformed hnesting
  refine ⟨hbind, ?_⟩
  rw [hbind, ← hformed.subst_captures_iff]
  exact ⟨Except.ok.inj, congrArg _⟩

end Target

/-! A shelf for things of one type, with a box inside, and a method that puts an item into a box of
the shelf. -/

namespace Capture

/-- The method. -/
def put : MethodDoc :=
  { name := "Put", accessibility := "public", flags := {}
    typeParams := [
      { CoreLibrary.param "T" with attributes := [⟨"Bridgegen.DynamicBridgeAttribute", [], []⟩] }]
    params := [⟨"box", "Box", .none, none, false, none⟩, ⟨"item", "T", .none, none, false, none⟩]
    returns := "void", attributes := [], location := none }

/-- The shelf, by the name of its type parameter. -/
def docs (things : String) : List GraphDocument :=
  [{ coreLibrary := false, usings := []
     types := CoreLibrary.bareTypes ++ [
      { CoreLibrary.classType "Shop" "Shelf" with
        typeParams := [CoreLibrary.param things], isPartial := true, methods := [put]
        nested := [CoreLibrary.classType "Shop" "Box"] }] }]

/-- Whether a target has a header, the names in its scope can be spelled, and it prints a text for a
type whose type parameters, one by one, are or are not the innermost ones of their names. -/
def prints (header text : String) (innermost : List Bool) (plan : BridgePlan) : Bool :=
  BridgeEmitter.targetHeader plan == header && plan.method.visible.all (·.spellable) &&
    plan.method.signatureTypes.any fun t => t.source == text &&
      decide (t.nesting ≤ TypeReader.maxNesting) &&
        t.vars.map (fun v => (plan.scope []).var? v.name == some v) == innermost

theorem exists_printed {things header text : String} {innermost : List Bool}
    (hcheck : Given.check (docs things) (fun _ => prints header text innermost) = true)
    (hspaces : DeclName.SpacesApart ((loadedEntries (docs things)).map (·.name))) :
    ∃ g known plan, load (docs things) = .ok g ∧ WellKnown.resolve g = .ok known ∧
      plan ∈ (Planner.planGroup ⟨g, known, {}⟩ g.methods).plans ∧
      BridgeEmitter.targetHeader plan = header ∧ DeclName.SpacesApart g.names ∧
      (∀ v ∈ plan.method.visible, v.spellable = true) ∧
      ∃ t ∈ plan.method.signatureTypes, t.source = text ∧ t.nesting ≤ TypeReader.maxNesting ∧
        t.vars.map (fun v => (plan.scope []).var? v.name == some v) = innermost := by
  obtain ⟨g, known, plan, -, hload, hknown, hplan, -, hprints⟩ := Given.exists_plan_of_check hcheck
  simp only [prints, Bool.and_eq_true, beq_iff_eq, List.all_eq_true, List.any_eq_true,
    decide_eq_true_eq] at hprints
  obtain ⟨⟨hheader, hspellable⟩, t, ht, ⟨htext, hnesting⟩, hinnermost⟩ := hprints
  exact ⟨g, known, plan, hload, hknown, hplan, hheader, names_of_load hload ▸ hspaces, hspellable,
    t, ht, htext, hnesting, hinnermost⟩

end Capture

/-- Things and items have names of their own: the text of the box denotes it. -/
theorem target_denotes_box : ∃ (g : Graph) (known : WellKnown) (plan : BridgePlan),
    load (Capture.docs "S") = .ok g ∧ WellKnown.resolve g = .ok known ∧
      plan ∈ (Planner.planGroup ⟨g, known, {}⟩ g.methods).plans ∧
      BridgeEmitter.targetHeader plan =
        "void _Put_PrivateBridgeTarget<T>(global::Shop.Shelf<S>.Box box, T item)" ∧
      ∃ t ∈ plan.method.signatureTypes, t.source = "global::Shop.Shelf<S>.Box" ∧
        g.bindType (plan.scope []) "" t.source = .ok t := by
  have hcheck : Given.check (Capture.docs "S") (fun _ => Capture.prints
      "void _Put_PrivateBridgeTarget<T>(global::Shop.Shelf<S>.Box box, T item)"
      "global::Shop.Shelf<S>.Box" [true]) = true := by decide +kernel
  have hnames : ∀ doc ∈ Capture.docs "S", ∀ e ∈ doc.entries, e.wellNamed = true := by decide +kernel
  have hspaces : DeclName.SpacesApart ((loadedEntries (Capture.docs "S")).map (·.name)) := by
    unfold DeclName.SpacesApart
    decide +kernel
  obtain ⟨g, known, plan, hload, hknown, hplan, hheader, hspaces, hspellable, t, ht, htext, hnesting,
    hinnermost⟩ := Capture.exists_printed hcheck hspaces
  refine ⟨g, known, plan, hload, hknown, hplan, hheader, t, ht, htext, ?_⟩
  refine (target_denotes_iff hload hnames (fun m hm => hm) hplan hspaces hspellable [] "" ht
    hnesting).2.mpr fun v hv => ?_
  have hmem := List.mem_map_of_mem (f := fun v => (plan.scope []).var? v.name == some v) hv
  rw [hinnermost, List.mem_singleton] at hmem
  exact eq_of_beq hmem

/-- **Things that are called as the items**: the text of the box denotes a box on another shelf. -/
theorem target_captures_box : ∃ (g : Graph) (known : WellKnown) (plan : BridgePlan),
    load (Capture.docs "T") = .ok g ∧ WellKnown.resolve g = .ok known ∧
      plan ∈ (Planner.planGroup ⟨g, known, {}⟩ g.methods).plans ∧
      BridgeEmitter.targetHeader plan =
        "void _Put_PrivateBridgeTarget<T>(global::Shop.Shelf<T>.Box box, T item)" ∧
      ∃ t ∈ plan.method.signatureTypes, t.source = "global::Shop.Shelf<T>.Box" ∧
        g.bindType (plan.scope []) "" t.source ≠ .ok t := by
  have hcheck : Given.check (Capture.docs "T") (fun _ => Capture.prints
      "void _Put_PrivateBridgeTarget<T>(global::Shop.Shelf<T>.Box box, T item)"
      "global::Shop.Shelf<T>.Box" [false]) = true := by decide +kernel
  have hnames : ∀ doc ∈ Capture.docs "T", ∀ e ∈ doc.entries, e.wellNamed = true := by decide +kernel
  have hspaces : DeclName.SpacesApart ((loadedEntries (Capture.docs "T")).map (·.name)) := by
    unfold DeclName.SpacesApart
    decide +kernel
  obtain ⟨g, known, plan, hload, hknown, hplan, hheader, hspaces, hspellable, t, ht, htext, hnesting,
    hinnermost⟩ := Capture.exists_printed hcheck hspaces
  refine ⟨g, known, plan, hload, hknown, hplan, hheader, t, ht, htext, fun hbind => ?_⟩
  have hformed := wellFormed_of_mem_signatureTypes hload hnames (fun m hm => hm) hplan ht []
  have hcaptured := bindType_captured hload
    (fun doc hdoc e he => Entry.name_wellNamed (hnames doc hdoc e he)) hspaces
    (s := plan.scope []) hspellable "" hformed hnesting
  -- so every type parameter of the box is the innermost one of its name
  have hall := hformed.subst_captures_iff.mp (Except.ok.inj (hcaptured.symm.trans hbind))
  have hmem : false ∈ t.vars.map fun v => (plan.scope []).var? v.name == some v :=
    hinnermost ▸ List.mem_singleton_self _
  obtain ⟨v, hv, hhidden⟩ := List.mem_map.mp hmem
  rw [hall v hv, beq_self_eq_true] at hhidden
  cases hhidden

end LateBridge
