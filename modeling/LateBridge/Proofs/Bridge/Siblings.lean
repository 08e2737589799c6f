import LateBridge.Proofs.Bridge.Coherence

/-!
# Proofs/Bridge/Siblings — bridges that share a type

    methods of a type ──planned one by one──▸ plans ──written side by side──▸ members of the type

No plan is compared with another, but the members they give stand in one type.  They meet in two
places.

* A definition is found by a **key**, and the key of a plan alone says which definition the plan
  implements.  So a definition is implemented once exactly if the plans that implement one have
  different keys (`implemented_once_iff`).
* A target has to differ from every other member.  It is compared, letter by letter, with the
  members of the document and with the one wrapper of its own plan.  What is left open is an at
  sign in front of a name and the name given to a sibling's wrapper (`freshTargets_iff`).
-/

namespace LateBridge

/-! ## Keys of definitions -/

/-- **What a definition is found by**: its type, its name, whether it is static, and how many
parameters and type parameters it has. -/
structure DefinitionKey where
  declaring : DeclName
  name : String
  isStatic : Bool
  params : Nat
  arity : Nat
  deriving DecidableEq, Repr

/-- The key of a method. -/
def Method.definitionKey (m : Method) : DefinitionKey :=
  ⟨m.declaring, m.name, m.flags.isStatic, m.params.length, m.arity⟩

/-- The key that a method with some marks looks for a definition by. -/
def Marks.definitionKey (marks : Marks) (m : Method) : DefinitionKey :=
  ⟨m.declaring, marks.wrapperName m, m.flags.isStatic, m.params.length,
    (Planner.retained m marks).length⟩

/-- **The key of a plan** is that of its wrapper. -/
def BridgePlan.definitionKey (plan : BridgePlan) : DefinitionKey :=
  ⟨plan.declaring, plan.wrapper.name, plan.method.flags.isStatic, plan.method.params.length,
    plan.retained.length⟩

namespace Graph

variable (g : Graph)

/-- The definitions with a key, in declaration order. -/
def definitionsBy (key : DefinitionKey) : List Method :=
  ((g.decl? key.declaring).map fun d =>
    d.methods.filter fun m => m.flags.partialDefinition && m.definitionKey == key).getD []

/-- The one definition with a key. -/
def definitionBy? (key : DefinitionKey) : Option MethodId :=
  match g.definitionsBy key with
  | [definition] => some definition.id
  | _ => none

variable {g}

/-- **A definition found by a key has the key.** -/
theorem exists_of_definitionBy? {docs : List GraphDocument} (h : load docs = .ok g)
    {key : DefinitionKey} {id : MethodId} (hid : g.definitionBy? key = some id) :
    ∃ definition, g.method? id = some definition ∧ definition.definitionKey = key := by
  rw [definitionBy?] at hid
  split at hid
  · rename_i definition hone
    cases hid
    have hmem : definition ∈ g.definitionsBy key := hone ▸ List.mem_singleton_self _
    rw [definitionsBy] at hmem
    cases hd : g.decl? key.declaring with
    | none =>
      rw [hd] at hmem
      cases hmem
    | some d =>
      rw [hd, Option.map_some, Option.getD_some, List.mem_filter, Bool.and_eq_true,
        beq_iff_eq] at hmem
      obtain ⟨hmethod, -, hkey⟩ := hmem
      exact ⟨definition, (method?_of_mem h (mem_decls_of_find? hd) hmethod).2, hkey⟩
  · cases hid

/-- No definition has two keys. -/
theorem definitionBy?_injective {docs : List GraphDocument} (h : load docs = .ok g)
    {key key' : DefinitionKey} {id : MethodId} (hid : g.definitionBy? key = some id)
    (hid' : g.definitionBy? key' = some id) : key = key' := by
  obtain ⟨definition, hfound, rfl⟩ := exists_of_definitionBy? h hid
  obtain ⟨definition', hfound', rfl⟩ := exists_of_definitionBy? h hid'
  rw [Option.some.inj (hfound.symm.trans hfound')]

end Graph

namespace Planner

/-! ## What a plan implements -/

/-- The key of a plan is that of its method's marks. -/
theorem planOf_definitionKey {p : Planner} {d : Draft} :
    (p.planOf d).definitionKey = d.marks.definitionKey d.method := by
  rw [BridgePlan.definitionKey, planOf_name]
  rfl

section Loaded

variable {docs : List GraphDocument} {p : Planner} {m : Method} {marks : Marks}
  (h : load docs = .ok p.graph) (hm : m ∈ p.graph.methods)
  (hread : p.names.read m = .ok (some marks))

include hread

/-- A method that is marked keeps fewer type parameters than it has. -/
theorem length_retained_lt : (retained m marks).length < m.arity := by
  obtain ⟨hparams, hne⟩ := MarkerNames.readParams_of_read hread
  obtain ⟨⟨v, given⟩, hmarked⟩ := List.exists_mem_of_ne_nil _ hne
  have hv : v ∈ m.vars :=
    (MarkerNames.sublist_of_readParams hparams).mem (List.mem_map_of_mem hmarked)
  have hmark : marks.isMarked v = true := List.any_eq_true.mpr ⟨_, hmarked, beq_self_eq_true _⟩
  calc (retained m marks).length < m.vars.length :=
        List.length_filter_lt_length_iff_exists.mpr ⟨v, hv, by simp [hmark]⟩
    _ = m.arity := by rw [Method.vars, List.length_map, Method.arity]

include h hm

/-- **The definitions of a method are those with its key.**  The method itself is none of them, as
it has more type parameters. -/
theorem definitions_eq : p.definitions m marks = p.graph.definitionsBy (marks.definitionKey m) := by
  obtain ⟨d, hd, hmd, hname, hfound⟩ := exists_declaring h hm
  have hkey : p.graph.decl? (marks.definitionKey m).declaring = some d := hfound
  rw [definitions, Graph.definitionsBy, hkey, hfound, Option.map_some, Option.map_some,
    Option.getD_some, Option.getD_some, TypeDecl.methodsNamed, List.filter_filter]
  refine List.filter_congr fun other hother => Bool.eq_iff_iff.mpr ?_
  obtain ⟨hother, hplace⟩ := method?_of_mem h hd hother
  simp only [Bool.and_eq_true, beq_iff_eq, bne_iff_ne, Method.definitionKey,
    Marks.definitionKey, DefinitionKey.mk.injEq]
  constructor
  · rintro ⟨⟨⟨⟨⟨-, hdefinition⟩, hstatic⟩, hparams⟩, harity⟩, hnamed⟩
    exact ⟨hdefinition, hother.trans hname, hnamed, hstatic, hparams, harity⟩
  · rintro ⟨hdefinition, -, hnamed, hstatic, hparams, harity⟩
    refine ⟨⟨⟨⟨⟨fun hid => ?_, hdefinition⟩, hstatic⟩, hparams⟩, harity⟩, hnamed⟩
    obtain rfl : other = m := Option.some.inj
      (hplace.symm.trans (hid ▸ (method?_of_mem h hd hmd).2))
    exact absurd harity (length_retained_lt hread).ne'

theorem planOf_definition? :
    (p.planOf (p.draft m marks)).definition? = p.graph.definitionBy? (marks.definitionKey m) := by
  have hmarks : (p.draft m marks).marks = marks := rfl
  rw [Graph.definitionBy?, planOf, draft_method, hmarks, definitions_eq h hm hread]
  rcases p.graph.definitionsBy (marks.definitionKey m) with _ | ⟨definition, _ | ⟨other, rest⟩⟩ <;>
    rfl

end Loaded

section Group

variable {docs : List GraphDocument} {p : Planner} {ms : List Method}
  (h : load docs = .ok p.graph) (hms : ∀ m ∈ ms, m ∈ p.graph.methods)

include h hms

/-- **The key of a plan says what it implements.** -/
theorem definition?_eq {plan : BridgePlan} (hplan : plan ∈ (p.planGroup ms).plans) :
    plan.definition? = p.graph.definitionBy? plan.definitionKey := by
  obtain ⟨m, hm, -, hmem⟩ := mem_planGroup.mp hplan
  obtain ⟨marks, hread, -, rfl⟩ := mem_planMethod.mp hmem
  rw [planOf_definition? h (hms m hm) hread, planOf_definitionKey]
  rfl

/-- **A definition is implemented once** exactly if plans that implement one have different keys. -/
theorem implemented_once_iff : ((p.planGroup ms).plans.filterMap (·.definition?)).Nodup ↔
    (p.planGroup ms).plans.Pairwise fun plan other =>
      plan.definition?.isSome → plan.definitionKey ≠ other.definitionKey := by
  rw [List.Nodup, List.pairwise_filterMap]
  refine List.Pairwise.iff_of_mem fun {plan other} hplan hother => ?_
  have hfirst := definition?_eq h hms hplan
  have hsecond := definition?_eq h hms hother
  constructor
  · intro hdiffer hsome hkey
    obtain ⟨id, hid⟩ := Option.isSome_iff_exists.mp hsome
    exact hdiffer id hid id (by rw [hsecond, ← hkey, ← hfirst, hid]) rfl
  · rintro hkeys id hid _ hid' rfl
    exact hkeys (Option.isSome_iff_exists.mpr ⟨id, hid⟩)
      (Graph.definitionBy?_injective h (hfirst ▸ hid) (hsecond ▸ hid'))

end Group

end Planner

/-! A class with marked methods and definitions, for the plans that they give together. -/

namespace Siblings

/-- A method with one marked type parameter, and a name for its wrapper. -/
def bridged (name type : String) (rename? : Option String) : MethodDoc :=
  { name, accessibility := "public", flags := {}
    typeParams := [
      { CoreLibrary.param "T" with attributes := [⟨"Bridgegen.DynamicBridgeAttribute", [], []⟩] }]
    params := [⟨"item", type, .none, none, false, none⟩], returns := "void"
    attributes := rename?.toList.map fun rename =>
      ⟨"Bridgegen.DynamicBridgeMethodAttribute", [.value (.string rename)], []⟩
    location := none }

/-- A partial definition. -/
def definition (name type : String) : MethodDoc :=
  { name, accessibility := "public", flags := { partialDefinition := true }, typeParams := []
    params := [⟨"item", type, .none, none, false, none⟩], returns := "void", attributes := []
    location := none }

/-- The class. -/
def docs (methods : List MethodDoc) : List GraphDocument :=
  [{ coreLibrary := false, usings := []
     types := CoreLibrary.bareTypes ++
      [{ CoreLibrary.classType "Shop" "Store" with isPartial := true, methods }] }]

/-- The place of a method in the class. -/
def place (position : Nat) : MethodId := ⟨.top (some "Shop") "Store" [], position⟩

/-- Whether something holds of the plans of a class. -/
def check (methods : List MethodDoc) (asked : Graph → List BridgePlan → Bool) : Bool :=
  match load (docs methods) with
  | .error _ => false
  | .ok g =>
    match WellKnown.resolve g with
    | .error _ => false
    | .ok known =>
      asked g (Planner.planGroup ⟨g, known, {}⟩ (({} : MarkerNames).candidates g)).plans

theorem exists_of_check {methods : List MethodDoc} {asked : Graph → List BridgePlan → Bool}
    (h : check methods asked = true) : ∃ p : Planner, load (docs methods) = .ok p.graph ∧
      WellKnown.resolve p.graph = .ok p.known ∧
        asked p.graph (p.planGroup (({} : MarkerNames).candidates p.graph)).plans = true := by
  unfold check at h
  split at h
  · cases h
  rename_i g hload
  split at h
  · cases h
  rename_i known hknown
  exact ⟨⟨g, known, {}⟩, hload, hknown, h⟩

theorem candidates_subset (g : Graph) :
    ∀ m ∈ ({} : MarkerNames).candidates g, m ∈ g.methods :=
  fun _ hm => List.mem_of_mem_filter hm

end Siblings

/-- Two methods with a definition each. -/
def Siblings.apart : List MethodDoc :=
  [bridged "Put" "T" none, bridged "Take" "T" none, definition "Put" "System.Object",
    definition "Take" "System.Object"]

/-- Both definitions are implemented, each by one plan. -/
theorem implemented_once_two : ∃ p : Planner, load (Siblings.docs Siblings.apart) = .ok p.graph ∧
    WellKnown.resolve p.graph = .ok p.known ∧
      (p.planGroup (({} : MarkerNames).candidates p.graph)).plans.map (·.definition?) =
        [some (Siblings.place 2), some (Siblings.place 3)] ∧
      ((p.planGroup (({} : MarkerNames).candidates p.graph)).plans.filterMap
        (·.definition?)).Nodup := by
  have hcheck : Siblings.check Siblings.apart (fun _ plans =>
      plans.map (·.definition?) == [some (Siblings.place 2), some (Siblings.place 3)] &&
        decide (plans.Pairwise fun plan other =>
          plan.definition?.isSome → plan.definitionKey ≠ other.definitionKey)) = true := by
    decide +kernel
  obtain ⟨p, hload, hknown, hasked⟩ := Siblings.exists_of_check hcheck
  obtain ⟨hdefinitions, hkeys⟩ := Bool.and_eq_true_iff.mp hasked
  refine ⟨p, hload, hknown, eq_of_beq hdefinitions, ?_⟩
  exact (Planner.implemented_once_iff hload (Siblings.candidates_subset _)).mpr
    (of_decide_eq_true hkeys)

/-- Two overloads and one definition. -/
def Siblings.overloads : List MethodDoc :=
  [bridged "Put" "T" none, bridged "Put" "T[]" none, definition "Put" "System.Object"]

/-- **Overloads of one name share a definition**: both wrappers implement it. -/
theorem implemented_twice_of_overloads : ∃ p : Planner,
    load (Siblings.docs Siblings.overloads) = .ok p.graph ∧
      WellKnown.resolve p.graph = .ok p.known ∧
      (({} : MarkerNames).candidates p.graph).Nodup ∧
      ¬((p.planGroup (({} : MarkerNames).candidates p.graph)).plans.filterMap
        (·.definition?)).Nodup := by
  have hcheck : Siblings.check Siblings.overloads (fun g plans =>
      decide (({} : MarkerNames).candidates g).Nodup &&
        !decide (plans.filterMap (·.definition?)).Nodup) = true := by decide +kernel
  obtain ⟨p, hload, hknown, hasked⟩ := Siblings.exists_of_check hcheck
  exact ⟨p, hload, hknown, by simpa using hasked⟩

/-! ## Names of members -/

/-- **A name as an identifier**: an at sign in front of it is not part of it. -/
def identifier (name : String) : String :=
  match name.toList with
  | '@' :: rest => String.ofList rest
  | _ => name

/-- A name that starts otherwise is spelled in two ways. -/
theorem identifier_eq_iff {name target : String} {c : Char} {rest : List Char}
    (htarget : target.toList = c :: rest) (hc : c ≠ '@') :
    identifier name = target ↔ name = target ∨ name = "@" ++ target := by
  have hat : ("@" ++ target).toList = '@' :: target.toList := by simp
  rw [identifier]
  split
  · rename_i body hname
    constructor
    · rintro rfl
      exact .inr (String.toList_inj.mp (by rw [hname, hat, String.toList_ofList]))
    · rintro (rfl | rfl)
      · exact absurd (List.cons.inj (htarget.symm.trans hname)).1 hc
      · rw [hat] at hname
        rw [← (List.cons.inj hname).2, String.ofList_toList]
  · rename_i hplain
    constructor
    · exact .inl
    · rintro (rfl | rfl)
      · rfl
      · exact absurd hat (hplain _)

theorem toList_targetName (method : String) :
    (targetName method).toList = '_' :: (method ++ "_PrivateBridgeTarget").toList := by
  simp [targetName]

namespace Graph

variable {g : Graph}

/-- **The names of the members of a type.** -/
def memberNames (g : Graph) (d : TypeDecl) : List String :=
  d.members ++ d.methods.map (·.name) ++ (g.nestedIn d.name).map (·.name.simple)

theorem hasMember_iff {d : TypeDecl} {name : String} :
    g.hasMember d name = true ↔ name ∈ g.memberNames d := by
  simp [hasMember, memberNames, or_assoc]

end Graph

/-- The name that a marker gives to the wrapper of a method. -/
def MarkerNames.rename? (names : MarkerNames) (m : Method) : Option String :=
  match names.read m with
  | .ok (some marks) => marks.method?.bind (·.rename?)
  | _ => none

/-- **Targets with names of their own.**  No member that the type of a target has in the document,
and no wrapper that any plan gives it, is the same identifier. -/
structure FreshTargets (g : Graph) (plans : List BridgePlan) : Prop where
  members : ∀ plan ∈ plans, ∀ d, g.decl? plan.declaring = some d →
    ∀ name ∈ g.memberNames d, identifier name ≠ identifier plan.target
  wrappers : ∀ plan ∈ plans, ∀ other ∈ plans, other.declaring = plan.declaring →
    identifier other.wrapper.name ≠ identifier plan.target

namespace Planner

variable {p : Planner}

/-- The target of a draft without errors is no member of the document. -/
theorem target_notMem_of_hasErrors {d : Draft} (h : hasErrors (p.reports d) = false)
    {decl : TypeDecl} (hdecl : p.graph.decl? d.method.declaring = some decl) :
    targetName d.method.name ∉ p.graph.memberNames decl := by
  intro hmem
  have hreport : p.targetReports d.method d.marks = [.ofRule .targetNameTaken
      [d.method.display, targetName d.method.name] d.method.location] := by
    rw [targetReports, hdecl, Option.any_some, Graph.hasMember_iff.mpr hmem, Bool.or_true,
      if_pos rfl]
  have herror := hasErrors_eq_false.mp h _ (by
    rw [reports, List.mem_eraseDups, hreport]
    exact List.mem_append_left _ (List.mem_append_left _ (List.mem_append_right _ (.head _))))
  cases herror

variable {docs : List GraphDocument} {ms : List Method} {plan : BridgePlan}
  (hplan : plan ∈ (p.planGroup ms).plans)

include hplan

theorem identifier_eq_target_iff {name : String} : identifier name = plan.target ↔
    name = plan.target ∨ name = "@" ++ plan.target := by
  obtain ⟨m, -, -, hmem⟩ := mem_planGroup.mp hplan
  obtain ⟨marks, -, -, rfl⟩ := mem_planMethod.mp hmem
  exact identifier_eq_iff (toList_targetName m.name) (by decide)

theorem identifier_target : identifier plan.target = plan.target :=
  (identifier_eq_target_iff hplan).mpr (.inl rfl)

theorem target_notMem {d : TypeDecl} (hd : p.graph.decl? plan.declaring = some d) :
    plan.target ∉ p.graph.memberNames d := by
  obtain ⟨m, -, -, hmem⟩ := mem_planGroup.mp hplan
  obtain ⟨marks, -, herrors, rfl⟩ := mem_planMethod.mp hmem
  exact target_notMem_of_hasErrors herrors hd

/-- **A wrapper is called what its marker says**, else as its method. -/
theorem wrapper_name : plan.wrapper.name = (p.names.rename? plan.method).getD plan.method.name := by
  obtain ⟨m, -, -, hmem⟩ := mem_planGroup.mp hplan
  obtain ⟨marks, hread, -, rfl⟩ := mem_planMethod.mp hmem
  rw [planOf_name, MarkerNames.rename?, planOf_method, draft_method, hread]
  rfl

omit hplan

/-- **Targets have names of their own** exactly if no member of their type is a target's name with
an at sign, and no name given to a wrapper of their type is a target's. -/
theorem freshTargets_iff (h : load docs = .ok p.graph) (hms : ∀ m ∈ ms, m ∈ p.graph.methods) :
    FreshTargets p.graph (p.planGroup ms).plans ↔
      (∀ plan ∈ (p.planGroup ms).plans, ∀ d, p.graph.decl? plan.declaring = some d →
        "@" ++ plan.target ∉ p.graph.memberNames d) ∧
      ∀ plan ∈ (p.planGroup ms).plans, ∀ other ∈ (p.planGroup ms).plans,
        other.declaring = plan.declaring → ∀ rename, p.names.rename? other.method = some rename →
          identifier rename ≠ plan.target := by
  constructor
  · intro hfresh
    refine ⟨fun plan hplan d hd hmem => ?_, fun plan hplan other hother hsame rename hrename => ?_⟩
    · have hat : identifier ("@" ++ plan.target) = plan.target :=
        (identifier_eq_target_iff hplan).mpr (.inr rfl)
      exact hfresh.members plan hplan d hd _ hmem (hat.trans (identifier_target hplan).symm)
    · have hname := hfresh.wrappers plan hplan other hother hsame
      rwa [wrapper_name hother, hrename, Option.getD_some, identifier_target hplan] at hname
  · rintro ⟨hat, hrenames⟩
    have hmembers : ∀ plan ∈ (p.planGroup ms).plans, ∀ d, p.graph.decl? plan.declaring = some d →
        ∀ name ∈ p.graph.memberNames d, identifier name ≠ identifier plan.target := by
      intro plan hplan d hd name hname hclash
      rw [identifier_target hplan, identifier_eq_target_iff hplan] at hclash
      obtain rfl | rfl := hclash
      · exact target_notMem hplan hd hname
      · exact hat plan hplan d hd hname
    refine ⟨hmembers, fun plan hplan other hother hsame => ?_⟩
    rw [wrapper_name hother]
    cases hrename : p.names.rename? other.method with
    | some rename =>
      rw [Option.getD_some, identifier_target hplan]
      exact hrenames plan hplan other hother hsame rename hrename
    | none =>
      -- The wrapper is called as the method, which is a member of the type.
      have hmethod := hms _ (method_mem_of_mem_planGroup hother)
      obtain ⟨d, -, hmd, -, hfound⟩ := exists_declaring h hmethod
      have hname : other.method.name ∈ p.graph.memberNames d :=
        List.mem_append_left _ (List.mem_append_right _ (List.mem_map_of_mem hmd))
      exact hmembers plan hplan d (hsame ▸ hfound) _ hname

end Planner

/-- Two methods, and a name of its own for one of the wrappers. -/
theorem freshTargets_renamed : ∃ p : Planner,
    load (Siblings.docs [Siblings.bridged "Put" "T" none,
      Siblings.bridged "Take" "T" (some "@TakeAny")]) = .ok p.graph ∧
      WellKnown.resolve p.graph = .ok p.known ∧
      (p.planGroup (({} : MarkerNames).candidates p.graph)).plans.map (·.wrapper.name) =
        ["Put", "@TakeAny"] ∧
      FreshTargets p.graph (p.planGroup (({} : MarkerNames).candidates p.graph)).plans := by
  have hcheck : Siblings.check [Siblings.bridged "Put" "T" none,
      Siblings.bridged "Take" "T" (some "@TakeAny")] (fun g plans =>
        plans.map (·.wrapper.name) == ["Put", "@TakeAny"] &&
          (plans.all fun plan => ((g.decl? plan.declaring).all fun d =>
            !(g.memberNames d).contains ("@" ++ plan.target)) &&
              plans.all fun other => identifier other.wrapper.name != plan.target)) = true := by
    decide +kernel
  obtain ⟨p, hload, hknown, hasked⟩ := Siblings.exists_of_check hcheck
  obtain ⟨hnames, hfresh⟩ := Bool.and_eq_true_iff.mp hasked
  simp only [List.all_eq_true, Bool.and_eq_true] at hfresh
  refine ⟨p, hload, hknown, eq_of_beq hnames,
    (Planner.freshTargets_iff hload (Siblings.candidates_subset _)).mpr ⟨?_, ?_⟩⟩
  · intro plan hplan d hd
    simpa [hd] using (hfresh plan hplan).1
  · intro plan hplan other hother _ rename hrename
    have hname := (hfresh plan hplan).2 other hother
    rw [Planner.wrapper_name hother, hrename] at hname
    simpa using hname

/-- Whether a wrapper has, as an identifier, the name of a target of its type. -/
def Siblings.clashes (plans : List BridgePlan) : Bool :=
  plans.any fun plan => plans.any fun other => other.declaring == plan.declaring &&
    identifier other.wrapper.name == identifier plan.target

theorem not_freshTargets_of_clashes {g : Graph} {plans : List BridgePlan}
    (h : Siblings.clashes plans = true) : ¬FreshTargets g plans := by
  intro hfresh
  simp only [Siblings.clashes, List.any_eq_true, Bool.and_eq_true, beq_iff_eq] at h
  obtain ⟨plan, hplan, other, hother, hsame, hclash⟩ := h
  exact hfresh.wrappers plan hplan other hother hsame hclash

/-- **A wrapper with the name of a target**: its own, with an at sign, or that of another method,
letter by letter. -/
theorem not_freshTargets_of_rename :
    (∃ p : Planner,
      load (Siblings.docs [Siblings.bridged "Put" "T" (some "@_Put_PrivateBridgeTarget")]) =
        .ok p.graph ∧ WellKnown.resolve p.graph = .ok p.known ∧
        ¬FreshTargets p.graph (p.planGroup (({} : MarkerNames).candidates p.graph)).plans) ∧
    ∃ p : Planner,
      load (Siblings.docs [Siblings.bridged "Put" "T" none,
        Siblings.bridged "Take" "T" (some "_Put_PrivateBridgeTarget")]) = .ok p.graph ∧
        WellKnown.resolve p.graph = .ok p.known ∧
        ¬FreshTargets p.graph (p.planGroup (({} : MarkerNames).candidates p.graph)).plans := by
  have hself : Siblings.check [Siblings.bridged "Put" "T" (some "@_Put_PrivateBridgeTarget")]
      (fun _ plans => Siblings.clashes plans) = true := by decide +kernel
  have hother : Siblings.check [Siblings.bridged "Put" "T" none,
      Siblings.bridged "Take" "T" (some "_Put_PrivateBridgeTarget")]
      (fun _ plans => Siblings.clashes plans) = true := by decide +kernel
  obtain ⟨p, hload, hknown, hclash⟩ := Siblings.exists_of_check hself
  obtain ⟨p', hload', hknown', hclash'⟩ := Siblings.exists_of_check hother
  exact ⟨⟨p, hload, hknown, not_freshTargets_of_clashes hclash⟩,
    p', hload', hknown', not_freshTargets_of_clashes hclash'⟩

end LateBridge
