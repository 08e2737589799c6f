import LateBridge.Generation
import LateBridge.Proofs.Bridge.Plans
import Mathlib.Data.List.Nodup

/-!
# Proofs/Generation — no method that asks for a bridge is lost

Grouping by namespace parts the candidates (`mem_groupBySpace`).  In a group a file, the absence of
errors and a plan for every method are the same thing (`delivers_runGroup`), because a method drops
out only with an error; and files of different namespaces have different names
(`artifactFileName_injective`).
-/

namespace LateBridge

/-! ## Groups -/

/-- What is kept of a list without repeats of earlier entries holds none twice. -/
theorem nodup_eraseDups {α : Type} [BEq α] [LawfulBEq α] (as : List α) : as.eraseDups.Nodup := by
  induction hlength : as.length using Nat.strongRecOn generalizing as with
  | ind k ih =>
    cases as with
    | nil => exact List.nodup_nil
    | cons a as =>
      have hshorter : (as.filter fun b => !b == a).length < k :=
        hlength ▸ Nat.lt_succ_of_le (List.length_filter_le _ as)
      have hnew : a ∉ (as.filter fun b => !b == a).eraseDups := by
        rw [List.mem_eraseDups, List.mem_filter]
        exact fun h => absurd h.2 (by simp)
      rw [List.eraseDups_cons]
      exact List.nodup_cons.mpr ⟨hnew, ih _ hshorter _ rfl⟩

/-- Every namespace has one group. -/
theorem nodup_groupBySpace (ms : List Method) : ((groupBySpace ms).map (·.1)).Nodup := by
  rw [groupBySpace, List.map_map]
  exact (List.map_id _).symm ▸ nodup_eraseDups _

/-- **A group holds the methods of its namespace**, in their order, and there are some. -/
theorem mem_groupBySpace {ms : List Method} {x : Option String × List Method} :
    x ∈ groupBySpace ms ↔ x.2 = ms.filter (·.space == x.1) ∧ x.2 ≠ [] := by
  obtain ⟨space, group⟩ := x
  simp only [groupBySpace, List.mem_map, List.mem_eraseDups, Prod.mk.injEq]
  constructor
  · rintro ⟨_, ⟨m, hm, rfl⟩, rfl, rfl⟩
    exact ⟨rfl, List.ne_nil_of_mem (List.mem_filter.mpr ⟨hm, beq_self_eq_true _⟩)⟩
  · rintro ⟨rfl, hne⟩
    obtain ⟨m, hm⟩ := List.exists_mem_of_ne_nil _ hne
    obtain ⟨hm, hspace⟩ := List.mem_filter.mp hm
    exact ⟨space, ⟨m, hm, eq_of_beq hspace⟩, rfl, rfl⟩

/-- **Every method is in one group**, that of its namespace. -/
theorem exists_group {ms : List Method} {m : Method} (hm : m ∈ ms) :
    ∃ x ∈ groupBySpace ms, m ∈ x.2 ∧ x.1 = m.space ∧ ∀ y ∈ groupBySpace ms, m ∈ y.2 → y = x := by
  have hmem : m ∈ ms.filter (·.space == m.space) :=
    List.mem_filter.mpr ⟨hm, beq_self_eq_true _⟩
  refine ⟨(m.space, ms.filter (·.space == m.space)),
    mem_groupBySpace.mpr ⟨rfl, List.ne_nil_of_mem hmem⟩, hmem, rfl, fun y hy hmy => ?_⟩
  obtain ⟨hfilter, -⟩ := mem_groupBySpace.mp hy
  rw [hfilter] at hmy
  have hspace : m.space = y.1 := eq_of_beq (List.mem_filter.mp hmy).2
  rw [hspace]
  exact Prod.ext rfl hfilter

/-! ## One group -/

/-- **What a group makes of its methods**: a file exactly if there is no error, exactly if every
method has a plan; its plans are then those of the methods in order, and otherwise an error says
so. -/
structure Delivers (ms : List Method) (r : GroupResult) : Prop where
  iff_noErrors : r.artifact?.isSome = true ↔ hasErrors r.reports = false
  iff_planned : r.artifact?.isSome = true ↔ ∀ m ∈ ms, ∃ plan ∈ r.plans, plan.method = m
  delivered : ∀ a, r.artifact? = some a →
    r.plans.map (·.method) = ms ∧ a.bridgeCount = r.plans.length
  told : r.artifact? = none → ∃ d ∈ r.reports, d.isError = true

theorem hasErrors_eq_true {ds : List Diagnostic} :
    hasErrors ds = true ↔ ∃ d ∈ ds, d.isError = true := by
  simp [hasErrors]

/-- **A method drops out of a group only with an error.** -/
theorem delivers_runGroup {g : Graph} {known : WellKnown} {options : GeneratorOptions}
    {space : Option String} {ms : List Method} (hms : ms ≠ [])
    (hasks : ∀ m ∈ ms, options.names.asks m = true) :
    Delivers ms (runGroup g known options space ms) := by
  let p : Planner := ⟨g, known, options.names⟩
  have hplanned : (∀ m ∈ ms, ∃ plan ∈ (p.planGroup ms).plans, plan.method = m) ↔
      hasErrors (p.planGroup ms).reports = false := by
    rw [Planner.hasErrors_planGroup]
    exact forall₂_congr fun m hm => Planner.exists_plan_iff hm (hasks m hm)
  have hartifact : (runGroup g known options space ms).artifact? =
      if hasErrors (p.planGroup ms).reports || (p.planGroup ms).plans.isEmpty then none
      else some (BridgeEmitter.emit ⟨g, known, options.emit⟩ space (p.planGroup ms).plans) := rfl
  cases herrors : hasErrors (p.planGroup ms).reports with
  | true =>
    rw [herrors, Bool.true_or, if_pos rfl] at hartifact
    have hnone : ¬(runGroup g known options space ms).artifact?.isSome = true := by
      simp [hartifact]
    have hfails : ¬hasErrors (p.planGroup ms).reports = false := by simp [herrors]
    refine ⟨iff_of_false hnone hfails, iff_of_false hnone fun h => hfails (hplanned.mp h),
      fun a ha => ?_, fun _ => hasErrors_eq_true.mp herrors⟩
    exact absurd (hartifact.symm.trans ha) (Option.some_ne_none a).symm
  | false =>
    have hmethods : (p.planGroup ms).plans.map (·.method) = ms :=
      Planner.map_method_planGroup hasks (Planner.hasErrors_planGroup.mp herrors)
    have hplans : (p.planGroup ms).plans ≠ [] := fun hnil =>
      hms (hmethods.symm.trans (congrArg (List.map (·.method)) hnil))
    rw [herrors, Bool.false_or, if_neg (by simpa using hplans)] at hartifact
    have hsome : (runGroup g known options space ms).artifact?.isSome = true := by
      rw [hartifact, Option.isSome_some]
    refine ⟨iff_of_true hsome herrors, iff_of_true hsome (hplanned.mpr herrors), fun a ha => ?_,
      fun hnone => ?_⟩
    · obtain rfl := Option.some.inj (hartifact.symm.trans ha)
      exact ⟨hmethods, rfl⟩
    · exact absurd (hnone.symm.trans hartifact) (Option.some_ne_none _).symm

/-! ## File names -/

/-- **Different namespaces have different files.** -/
theorem artifactFileName_injective : Function.Injective artifactFileName := by
  have hlonger : ∀ space : String, space ++ "_Bridges.g.cs" ≠ "Bridges.g.cs" := by
    intro space heq
    have hlength := congrArg String.length heq
    have hlong : "_Bridges.g.cs".length = 13 := rfl
    have hshort : "Bridges.g.cs".length = 12 := rfl
    rw [String.length_append] at hlength
    omega
  intro a b h
  cases a with
  | none =>
    cases b with
    | none => rfl
    | some b => exact absurd h.symm (hlonger b)
  | some a =>
    cases b with
    | none => exact absurd h (hlonger a)
    | some b => rw [(String.append_left_inj _).mp h]

theorem fileName_runGroup {g : Graph} {known : WellKnown} {options : GeneratorOptions}
    {space : Option String} {ms : List Method} {a : Artifact}
    (h : (runGroup g known options space ms).artifact? = some a) :
    a.fileName = artifactFileName space := by
  rw [runGroup] at h
  split at h
  · cases h
  · cases h
    rfl

/-! ## A pass -/

/-- **No candidate is lost.**  With the well-known types there, every method that asks for a bridge
is in the one group of its namespace, no other method is in any, and each group gives a file exactly
if no error is reported in it and exactly if all its methods have plans; the files have different
names.  A pass in which an interface closure goes past the visit limit does not end, and is not
meant. -/
theorem generate_keeps_candidates {g : Graph} {options : GeneratorOptions} {known : WellKnown}
    (hknown : WellKnown.resolve g = .ok known) :
    (generate g options).globalReports = [] ∧
      List.Forall₂ (fun x r => r = runGroup g known options x.1 x.2 ∧ r.space = x.1 ∧
          Delivers x.2 r)
        (groupBySpace (options.names.candidates g)) (generate g options).groups ∧
      ((generate g options).groups.map (·.space)).Nodup ∧
      (∀ x ∈ groupBySpace (options.names.candidates g),
        x.2 = (options.names.candidates g).filter (·.space == x.1)) ∧
      (∀ m ∈ options.names.candidates g, ∃ x ∈ groupBySpace (options.names.candidates g),
        m ∈ x.2 ∧ x.1 = m.space ∧
          ∀ y ∈ groupBySpace (options.names.candidates g), m ∈ y.2 → y = x) ∧
      ((generate g options).artifacts.map (·.fileName)).Nodup := by
  have hgroups : (generate g options).groups = (groupBySpace (options.names.candidates g)).map
      fun x => runGroup g known options x.1 x.2 := by
    simp only [generate, hknown]
  have hdelivers : ∀ x ∈ groupBySpace (options.names.candidates g),
      Delivers x.2 (runGroup g known options x.1 x.2) := by
    intro x hx
    obtain ⟨hfilter, hne⟩ := mem_groupBySpace.mp hx
    refine delivers_runGroup hne fun m hm => ?_
    rw [hfilter] at hm
    exact (List.mem_filter.mp (List.mem_filter.mp hm).1).2
  refine ⟨by simp only [generate, hknown], ?_, ?_, fun x hx => (mem_groupBySpace.mp hx).1,
    fun m hm => exists_group hm, ?_⟩
  · rw [hgroups, List.forall₂_map_right_iff, List.forall₂_same]
    exact fun x hx => ⟨rfl, rfl, hdelivers x hx⟩
  · rw [hgroups, List.map_map]
    exact nodup_groupBySpace _
  · rw [Generation.artifacts, hgroups]
    refine List.Nodup.sublist (sublist_map_filterMap (fun r => artifactFileName r.space)
      fun r hr a ha => ?_) ?_
    · obtain ⟨x, -, rfl⟩ := List.mem_map.mp hr
      exact fileName_runGroup ha
    · have hnames := List.Nodup.map artifactFileName_injective
        (nodup_groupBySpace (options.names.candidates g))
      rwa [List.map_map] at hnames ⊢

/-- A class in a namespace with some methods. -/
def sampleClass (space name : String) (methods : List Method) : TypeDecl :=
  { name := .top (some space) name [], kind := .classType, typeParams := [], base? := none
    interfaces := [], isPartial := true, isStatic := false, methods, members := []
    location := none }

/-- A method with one marked type parameter. -/
def sampleMethod : Method :=
  let id : MethodId := ⟨.top (some "Shop") "Store" [], 0⟩
  let v : TypeVar := ⟨.method id, 0, "T"⟩
  { id, name := "Put"
    typeParams := [⟨v, .none, {}, [], [⟨"Bridgegen.DynamicBridgeAttribute", [], []⟩], none⟩]
    params := [⟨"item", .var v, .none, none, false, none⟩], returns := .void, flags := {}
    accessibility := .everyone, attributes := [], location := none }

/-- The types that have to be there, and a type with the method. -/
def sampleGraph : Graph :=
  { decls := [sampleClass "System" "Object" [], sampleClass "System" "ValueType" [],
      sampleClass "System" "Array" [], sampleClass "System" "String" [],
      sampleClass "System" "Boolean" [], sampleClass "System" "ArgumentException" [],
      sampleClass "Microsoft.CSharp.RuntimeBinder" "RuntimeBinderException" [],
      sampleClass "Shop" "Store" [sampleMethod]] }

/-- The method of the sample is in the group of its namespace. -/
theorem generate_keeps_candidates_sample : ∃ known, WellKnown.resolve sampleGraph = .ok known ∧
    ({} : MarkerNames).candidates sampleGraph = [sampleMethod] ∧
    (generate sampleGraph {}).globalReports = [] ∧
    ∃ x ∈ groupBySpace (({} : MarkerNames).candidates sampleGraph),
      sampleMethod ∈ x.2 ∧ x.1 = some "Shop" := by
  have hresolves : (WellKnown.resolve sampleGraph).isOk = true := by decide +kernel
  have hcandidates : ({} : MarkerNames).candidates sampleGraph = [sampleMethod] := by
    decide +kernel
  cases hknown : WellKnown.resolve sampleGraph with
  | error d => exact absurd hresolves (by simp [hknown, Except.isOk, Except.toBool])
  | ok known =>
    obtain ⟨hreports, -, -, -, hgroup, -⟩ := @generate_keeps_candidates sampleGraph {} known hknown
    obtain ⟨x, hx, hmem, hspace, -⟩ := hgroup sampleMethod (by rw [hcandidates]; exact .head _)
    exact ⟨known, rfl, hcandidates, hreports, x, hx, hmem, hspace⟩

end LateBridge
