import LateBridge.Proofs.Bridge.Locality
import LateBridge.Proofs.Generation

/-!
# Proofs/Isolation — groups do not interfere

    documents ──load──▸ graph ──groups of other namespaces──▸ plans, files, reports
        │                 │                                        ‖
      strip             strip                                      ‖
        ▾                 ▾                                        ‖
    documents ──load──▸ graph ──all groups──────────────────▸ plans, files, reports

Without the methods of a namespace a pass gives what it gave, less the group of the namespace
(`generate_strip`).  Documents that differ only in such methods are the same without them, so all
other groups are the same in both passes (`groups_isolated`): what fails in one namespace cannot be
seen in another.
-/

namespace LateBridge

variable {space : Option String}

/-! ## Files -/

/-- A constant is spelled by the kind of its type. -/
theorem Graph.literal_strip {g : Graph} (t : Ty) (c : Constant) :
    (g.strip space).literal t c = g.literal t c := by
  have henumeration : (g.strip space).isEnumeration t = g.isEnumeration t := by
    simp only [isEnumeration, kind?_strip]
  cases c <;> simp only [literal, intLiteral, henumeration]

namespace BridgeEmitter

variable {b : BridgeEmitter}

/-- Writing over what is left of a graph. -/
def strip (space : Option String) (b : BridgeEmitter) : BridgeEmitter :=
  { b with graph := b.graph.strip space }

theorem typeHeader_strip (n : DeclName) : (b.strip space).typeHeader n = b.typeHeader n := by
  rw [typeHeader, typeHeader]
  simp only [strip, Graph.decl?_strip, Option.map_map]
  rfl

theorem bridgeCode_strip (plan : BridgePlan) :
    (b.strip space).bridgeCode plan = b.bridgeCode plan := by
  have hparam : (b.strip space).wrapperParam = b.wrapperParam := by
    funext q
    simp only [wrapperParam, strip, Graph.literal_strip]
  have hheader : (b.strip space).wrapperHeader plan = b.wrapperHeader plan := by
    rw [wrapperHeader, wrapperHeader, wrapperParams, wrapperParams, hparam]
  rw [bridgeCode, bridgeCode, wrapperCode, wrapperCode, hheader]
  rfl

mutual

theorem typeCode_strip : (n : TypeNode) → (b.strip space).typeCode n = b.typeCode n
  | .node type plans nested => by
    rw [typeCode, typeCode, typeHeader_strip, funext bridgeCode_strip, typesCode_strip nested]

theorem typesCode_strip : (ns : List TypeNode) → (b.strip space).typesCode ns = b.typesCode ns
  | [] => by rw [typesCode, typesCode]
  | n :: ns => by rw [typesCode, typesCode, typeCode_strip n, typesCode_strip ns]

end

/-- **A file is written as before.** -/
theorem emit_strip (own : Option String) (plans : List BridgePlan) :
    (b.strip space).emit own plans = b.emit own plans := by
  simp only [emit, fileCode, typesCode_strip]
  rfl

end BridgeEmitter

/-! ## Groups -/

/-- **A group of methods that are left comes out as before.** -/
theorem runGroup_strip {g : Graph} {known : WellKnown} {options : GeneratorOptions}
    {own : Option String} {ms : List Method} (hms : ∀ m ∈ ms, g.KeepsMethod space m) :
    runGroup (g.strip space) known options own ms = runGroup g known options own ms := by
  have hplans : Planner.planGroup ⟨g.strip space, known, options.names⟩ ms =
      Planner.planGroup ⟨g, known, options.names⟩ ms :=
    Planner.planGroup_strip (p := ⟨g, known, options.names⟩) hms
  have hemit : ∀ plans, BridgeEmitter.emit ⟨g.strip space, known, options.emit⟩ own plans =
      BridgeEmitter.emit ⟨g, known, options.emit⟩ own plans :=
    fun plans => BridgeEmitter.emit_strip (b := ⟨g, known, options.emit⟩) own plans
  simp only [runGroup, hplans, hemit]

/-- Repeats go whether entries are left out before or after. -/
theorem eraseDups_filter {α : Type} [BEq α] [LawfulBEq α] (q : α → Bool) :
    (as : List α) → (as.filter q).eraseDups = as.eraseDups.filter q
  | [] => rfl
  | a :: as => by
    have ih := eraseDups_filter q (as.filter fun b => !b == a)
    rw [List.eraseDups_cons]
    cases hq : q a with
    | true =>
      rw [List.filter_cons_of_pos hq, List.filter_cons_of_pos hq, List.eraseDups_cons, ← ih,
        List.filter_comm]
    | false =>
      have hwithout : (as.filter fun b => !b == a).filter q = as.filter q := by
        rw [List.filter_filter]
        refine List.filter_congr fun b _ => ?_
        by_cases hb : b = a <;> simp [hb, hq]
      rw [List.filter_cons_of_neg (by simp [hq]), List.filter_cons_of_neg (by simp [hq]), ← ih,
        hwithout]
termination_by as => as.length
decreasing_by exact Nat.lt_succ_of_le (List.length_filter_le _ _)

/-- Without the methods of a namespace its group is gone, and the others are as before. -/
theorem groupBySpace_filter (ms : List Method) :
    groupBySpace (ms.filter fun m => m.space != space) =
      (groupBySpace ms).filter fun x => x.1 != space := by
  have hspaces : (ms.filter fun m => m.space != space).map Method.space =
      (ms.map Method.space).filter (· != space) := by
    rw [List.filter_map]
    rfl
  rw [groupBySpace, groupBySpace, hspaces, eraseDups_filter, List.filter_map]
  refine List.map_congr_left fun own hown => ?_
  have hother : (own != space) = true := (List.mem_filter.mp hown).2
  rw [List.filter_filter]
  refine congrArg (Prod.mk own) (List.filter_congr fun m _ => ?_)
  by_cases hm : m.space = own <;> simp_all

/-! ## A pass -/

theorem WellKnown.resolve_strip {g : Graph} : resolve (g.strip space) = resolve g := by
  have hrequired : ∀ name, required (g.strip space) name = required g name := fun name => by
    rw [required, required, Graph.find?_strip]
    cases g.find? name <;> rfl
  have hoptional : ∀ name, optional? (g.strip space) name = optional? g name := fun name => by
    rw [optional?, optional?, Graph.find?_strip, Option.map_map]
    rfl
  have hname : ∀ name, ((g.strip space).find? name).map (·.name) = (g.find? name).map (·.name) :=
    fun name => by
      rw [Graph.find?_strip, Option.map_map]
      rfl
  have hstate : ∀ name, (((g.strip space).find? name).filter (isEnumWith "Never")).map
      (fun d => Ty.plain d.name) =
        ((g.find? name).filter (isEnumWith "Never")).map fun d => Ty.plain d.name := fun name => by
    rw [Graph.find?_strip, Option.filter_map, Option.map_map]
    rfl
  simp only [resolve, hrequired, hoptional, hname, hstate]

section Loaded

variable {docs : List GraphDocument} {g : Graph} (h : load docs = .ok g)

include h

theorem methods_strip : (g.strip space).methods = g.methods.filter fun m => m.space != space := by
  rw [Graph.methods, Graph.methods, Graph.strip, List.flatMap_map, List.filter_flatMap]
  refine List.flatMap_congr fun d hd => ?_
  have hdeclaring : ∀ m ∈ d.methods, m.space = d.name.space := fun m hm =>
    congrArg DeclName.space (method?_of_mem h hd hm).1
  by_cases hspace : d.name.space = space
  · rw [TypeDecl.strip_of_eq hspace]
    exact (List.filter_eq_nil_iff.mpr fun m hm => by simp [hdeclaring m hm, hspace]).symm
  · rw [TypeDecl.strip_of_ne hspace]
    exact (List.filter_eq_self.mpr fun m hm => by simp [hdeclaring m hm, hspace]).symm

/-- **A pass without the methods of a namespace** gives what it gave, less the group of the
namespace. -/
theorem generate_strip (options : GeneratorOptions) : generate (g.strip space) options =
    ⟨(generate g options).groups.filter fun r => r.space != space,
      (generate g options).globalReports⟩ := by
  have hcandidates : options.names.candidates (g.strip space) =
      (options.names.candidates g).filter fun m => m.space != space := by
    rw [MarkerNames.candidates, MarkerNames.candidates, methods_strip h, List.filter_comm]
  rw [generate, generate, WellKnown.resolve_strip]
  cases WellKnown.resolve g with
  | error d => rfl
  | ok known =>
    simp only [hcandidates, groupBySpace_filter, List.filter_map]
    congr 1
    refine List.map_congr_left fun x hx => ?_
    obtain ⟨hx, hother⟩ := List.mem_filter.mp hx
    obtain ⟨hgroup, -⟩ := mem_groupBySpace.mp hx
    refine runGroup_strip fun m hm => ?_
    rw [hgroup] at hm
    obtain ⟨hm, hspace⟩ := List.mem_filter.mp hm
    have hown : m.declaring.space = x.1 := eq_of_beq hspace
    exact Graph.keepsMethod_of_load h (List.mem_of_mem_filter hm) (hown ▸ by simpa using hother)

end Loaded

/-- **Groups do not interfere.**  If documents differ only in the methods of one namespace, every
group of another namespace has the same plans, the same file or none, and the same reports.  A
pass in which an interface closure goes past the visit limit does not end, and is not meant. -/
theorem groups_isolated {docs docs' : List GraphDocument} {g g' : Graph}
    (hdocs : docs.map (·.strip space) = docs'.map (·.strip space)) (h : load docs = .ok g)
    (h' : load docs' = .ok g') (options : GeneratorOptions) :
    (generate g options).globalReports = (generate g' options).globalReports ∧
      ((generate g options).groups.filter fun r => r.space != space) =
        (generate g' options).groups.filter fun r => r.space != space := by
  have hstrip : g.strip space = g'.strip space :=
    Except.ok.inj ((load_strip h).symm.trans (hdocs ▸ load_strip h'))
  have hpass := (generate_strip h options).symm.trans (hstrip ▸ generate_strip h' options)
  obtain ⟨hgroups, hreports⟩ := Generation.mk.inj hpass
  exact ⟨hreports, hgroups⟩

/-! Two namespaces.  What the methods of the second are makes no difference to the first. -/

namespace Neighbours

/-- A public method with one marked type parameter. -/
def bridged (name : String) (params : List ParamDoc) : MethodDoc :=
  { name, accessibility := "public", flags := {}
    typeParams := [
      { CoreLibrary.param "T" with attributes := [⟨"Bridgegen.DynamicBridgeAttribute", [], []⟩] }]
    params, returns := "void", attributes := [], location := none }

/-- A parameter of the marked type. -/
def item : ParamDoc := ⟨"item", "T", .none, none, false, none⟩

/-- A class that can be given members. -/
def partialClass (space name : String) (methods : List MethodDoc) : TypeDoc :=
  { CoreLibrary.classType space name with isPartial := true, methods }

/-- A shop with one method beside a yard with any. -/
def docs (methods : List MethodDoc) : List GraphDocument :=
  [{ coreLibrary := false, usings := []
     types := CoreLibrary.bareTypes ++
      [partialClass "Shop" "Store" [bridged "Put" [item]], partialClass "Yard" "Shed" methods] }]

/-- The namespaces of a pass and whether they have a file. -/
def outcome (docs : List GraphDocument) : Option (List (Option String × Bool)) :=
  match load docs with
  | .error _ => none
  | .ok g => some ((generate g {}).groups.map fun r => (r.space, r.artifact?.isSome))

theorem exists_of_outcome {docs : List GraphDocument} {files : List (Option String × Bool)}
    (h : outcome docs = some files) : ∃ g, load docs = .ok g ∧
      (generate g {}).groups.map (fun r => (r.space, r.artifact?.isSome)) = files := by
  unfold outcome at h
  split at h
  · cases h
  · rename_i g hload
    exact ⟨g, hload, Option.some.inj h⟩

end Neighbours

/-- The yard fails in one of two passes; the shop has its file in both. -/
theorem groups_isolated_failing : ∃ g g' : Graph,
    load (Neighbours.docs [Neighbours.bridged "Keep" [Neighbours.item]]) = .ok g ∧
      load (Neighbours.docs [Neighbours.bridged "Make" []]) = .ok g' ∧
      (generate g {}).groups.map (fun r => (r.space, r.artifact?.isSome)) =
        [(some "Shop", true), (some "Yard", true)] ∧
      (generate g' {}).groups.map (fun r => (r.space, r.artifact?.isSome)) =
        [(some "Shop", true), (some "Yard", false)] ∧
      ((generate g {}).groups.filter fun r => r.space != some "Yard") =
        (generate g' {}).groups.filter fun r => r.space != some "Yard" := by
  have hfine : Neighbours.outcome (Neighbours.docs [Neighbours.bridged "Keep" [Neighbours.item]]) =
      some [(some "Shop", true), (some "Yard", true)] := by decide +kernel
  have hfails : Neighbours.outcome (Neighbours.docs [Neighbours.bridged "Make" []]) =
      some [(some "Shop", true), (some "Yard", false)] := by decide +kernel
  obtain ⟨g, hload, hfiles⟩ := Neighbours.exists_of_outcome hfine
  obtain ⟨g', hload', hfiles'⟩ := Neighbours.exists_of_outcome hfails
  have hdocs : (Neighbours.docs [Neighbours.bridged "Keep" [Neighbours.item]]).map
      (·.strip (some "Yard")) =
        (Neighbours.docs [Neighbours.bridged "Make" []]).map (·.strip (some "Yard")) := by rfl
  exact ⟨g, g', hload, hload', hfiles, hfiles', (groups_isolated hdocs hload hload' {}).2⟩

end LateBridge
