import LateBridge.Proofs.Bridge.Plans
import LateBridge.Proofs.Document.Derived

/-!
# Proofs/Bridge/Composition — a group is planned method by method

    methods ──▸ findings of each ──repeats dropped──▸ reports of the group

What planning a method finds is a report on the method itself, or that a type around it cannot be
given members (`Finding`).  Methods share the types around them, so a group drops what it has told of
a type before, and nothing else: its plans and its reports are those of the single methods, one after
the other (`planning_compositional`).
-/

namespace LateBridge

/-! ## Findings -/

/-- **What planning a method finds**: a type around it that cannot be given members, or a report on
the method itself. -/
inductive Finding where
  | closed (type : TypeDecl)
  | onMethod (report : Diagnostic)

namespace Finding

/-- The report of a finding. -/
def report : Finding → Diagnostic
  | closed d => Planner.closedReport d
  | onMethod r => r

/-- The type that a finding is about. -/
def type? : Finding → Option TypeDecl
  | closed d => some d
  | onMethod _ => none

/-- **Findings without repeats**: a type is told of once, and not if it was told of before. -/
def dropRepeats (told : List DeclName) : List Finding → List Finding
  | [] => []
  | onMethod r :: fs => onMethod r :: dropRepeats told fs
  | closed d :: fs =>
    if d.name ∈ told then dropRepeats told fs else closed d :: dropRepeats (told ++ [d.name]) fs

variable {told : List DeclName} {fs : List Finding}

/-- Reports on methods are never dropped. -/
theorem dropRepeats_onMethod (reports : List Diagnostic) :
    dropRepeats told (reports.map onMethod ++ fs) =
      reports.map onMethod ++ dropRepeats told fs := by
  induction reports with
  | nil => rfl
  | cons r reports ih => exact congrArg (onMethod r :: ·) ih

/-- Of different types those are told of that were not before. -/
theorem dropRepeats_closed {ds : List TypeDecl} (hnodup : (ds.map (·.name)).Nodup) :
    dropRepeats told (ds.map closed ++ fs) =
      (ds.filter fun d => !told.contains d.name).map closed ++
        dropRepeats (told ++ (ds.filter fun d => !told.contains d.name).map (·.name)) fs := by
  induction ds generalizing told with
  | nil => simp
  | cons d ds ih =>
    rw [List.map_cons, List.nodup_cons] at hnodup
    obtain ⟨hd, hnodup⟩ := hnodup
    rw [List.map_cons, List.cons_append, dropRepeats, List.filter_cons]
    split
    case isTrue hmem =>
      rw [if_neg (by simpa using hmem), ih hnodup]
    case isFalse hmem =>
      have hlater : ds.filter (fun d' => !(told ++ [d.name]).contains d'.name) =
          ds.filter fun d' => !told.contains d'.name := by
        refine List.filter_congr fun d' hd' => ?_
        have hne : d'.name ≠ d.name := fun heq => hd (heq ▸ List.mem_map_of_mem hd')
        simp [hne]
      rw [if_pos (by simpa using hmem), ih hnodup, hlater, List.map_cons, List.map_cons,
        List.append_assoc, List.singleton_append, List.cons_append]

theorem sublist_dropRepeats : (dropRepeats told fs).Sublist fs := by
  induction fs generalizing told with
  | nil => exact .slnil
  | cons f fs ih =>
    cases f with
    | onMethod r => exact ih.cons_cons _
    | closed d =>
      rw [dropRepeats]
      split
      · exact ih.cons _
      · exact ih.cons_cons _

/-- The types that findings are about. -/
def types (fs : List Finding) : List TypeDecl := fs.filterMap type?

/-- **No type is told of twice**, nor one that was told of before. -/
theorem nodup_dropRepeats : ((types (dropRepeats told fs)).map (·.name)).Nodup ∧
    ∀ d ∈ types (dropRepeats told fs), d.name ∉ told := by
  induction fs generalizing told with
  | nil => exact ⟨List.nodup_nil, List.forall_mem_nil _⟩
  | cons f fs ih =>
    cases f with
    | onMethod r => exact ih
    | closed d =>
      rw [dropRepeats]
      split
      case isTrue => exact ih
      case isFalse hnew =>
        obtain ⟨hnodup, hfresh⟩ := @ih (told ++ [d.name])
        simp only [List.mem_append, List.mem_singleton, not_or] at hfresh
        refine ⟨List.nodup_cons.mpr ⟨fun hmem => ?_, hnodup⟩, ?_⟩
        · obtain ⟨d', hd', hname⟩ := List.mem_map.mp hmem
          exact (hfresh d' hd').2 hname
        · exact List.forall_mem_cons.mpr ⟨hnew, fun d' hd' => (hfresh d' hd').1⟩

/-- **Every type is told of that was not before**, if types of one name are one. -/
theorem mem_types_dropRepeats (hname : ∀ d ∈ types fs, ∀ d' ∈ types fs, d.name = d'.name → d = d')
    {d : TypeDecl} (hd : d ∈ types fs) (htold : d.name ∉ told) :
    d ∈ types (dropRepeats told fs) := by
  induction fs generalizing told with
  | nil => exact absurd hd List.not_mem_nil
  | cons f fs ih =>
    cases f with
    | onMethod r => exact ih hname hd htold
    | closed first =>
      have hrest : ∀ d ∈ types fs, ∀ d' ∈ types fs, d.name = d'.name → d = d' := fun d hd d' hd' =>
        hname d (List.mem_cons_of_mem _ hd) d' (List.mem_cons_of_mem _ hd')
      rw [dropRepeats]
      split
      case isTrue hfirst =>
        obtain rfl | hd := List.mem_cons.mp hd
        · exact absurd hfirst htold
        · exact ih hrest hd htold
      case isFalse =>
        by_cases heq : d = first
        · exact heq ▸ List.mem_cons_self
        · have hne : d.name ≠ first.name := fun h =>
            heq (hname d hd first List.mem_cons_self h)
          refine List.mem_cons_of_mem _ (ih hrest ((List.mem_cons.mp hd).resolve_left heq) ?_)
          simp [htold, hne]

/-- The reports of findings by the rule about types are those on their types. -/
theorem filter_reports_closed (h : ∀ r, onMethod r ∈ fs → r.code ≠ Rule.typeNotPartial.number) :
    (fs.map report).filter (·.code == Rule.typeNotPartial.number) =
      (types fs).map Planner.closedReport := by
  induction fs with
  | nil => rfl
  | cons f fs ih =>
    have hrest := ih fun r hr => h r (List.mem_cons_of_mem _ hr)
    cases f with
    | onMethod r =>
      have hr : r.code ≠ Rule.typeNotPartial.number := h r List.mem_cons_self
      rw [List.map_cons, List.filter_cons_of_neg (by simpa [report] using hr), hrest]
      rfl
    | closed d =>
      rw [List.map_cons, List.filter_cons_of_pos rfl, hrest]
      rfl

/-- Dropping repeats leaves the reports of all other rules. -/
theorem filter_reports_dropRepeats :
    ((dropRepeats told fs).map report).filter (·.code != Rule.typeNotPartial.number) =
      (fs.map report).filter (·.code != Rule.typeNotPartial.number) := by
  induction fs generalizing told with
  | nil => rfl
  | cons f fs ih =>
    cases f with
    | onMethod r => rw [dropRepeats, List.map_cons, List.map_cons, List.filter_cons,
        List.filter_cons, ih]
    | closed d =>
      have hrule : ((closed d).report.code != Rule.typeNotPartial.number) = false := rfl
      rw [dropRepeats, List.map_cons, List.filter_cons_of_neg (by simp [hrule])]
      split
      · exact ih
      · rw [List.map_cons, List.filter_cons_of_neg (by simp [hrule]), ih]

end Finding

/-! ## What planning one method finds -/

namespace Planner

variable {p : Planner} {m : Method}

/-- **What planning a method finds**: the types around it that are not partial, else the reports on
it. -/
def findings (p : Planner) (m : Method) : List Finding :=
  if p.closedTypes m = [] then (p.planMethod m).reports.map .onMethod
  else (p.closedTypes m).map .closed

/-- The report of a rule has no number of another one. -/
theorem code_ofRule_ne {rule other : Rule} (h : rule ≠ other) (args : List String)
    (location : Option Location) : (Diagnostic.ofRule rule args location).code ≠ other.number := by
  intro heq
  have hrule : Rule.ofNumber? rule.number = Rule.ofNumber? other.number := congrArg _ heq
  rw [Rule.ofNumber?_number, Rule.ofNumber?_number] at hrule
  exact h (Option.some.inj hrule)

theorem code_of_mem_answerReports {shown : String} {location : Option Location}
    {answer : Erasure.Answer} {r : Diagnostic} (h : r ∈ answerReports m shown location answer) :
    r.code ≠ Rule.typeNotPartial.number := by
  cases answer with
  | ok t => cases h
  | error x =>
    obtain rfl := List.mem_singleton.mp h
    cases x <;> exact code_ofRule_ne (by decide) _ _

theorem code_of_mem_signatureReports {marks : Marks} {r : Diagnostic}
    (h : r ∈ signatureReports m marks) : r.code ≠ Rule.typeNotPartial.number := by
  simp only [signatureReports, droppedConstraints, List.mem_append, List.mem_flatMap,
    List.mem_ite_nil_right, List.mem_singleton] at h
  obtain (⟨tp, -, ⟨-, rfl⟩ | ⟨-, rfl⟩⟩ | ⟨-, rfl⟩) | ⟨-, rfl⟩ := h
  all_goals exact code_ofRule_ne (by decide) _ _

theorem code_of_mem_draftReports {d : Draft} {r : Diagnostic} (h : r ∈ draftReports d) :
    r.code ≠ Rule.typeNotPartial.number := by
  simp only [draftReports, paramReports, List.mem_append, List.mem_flatMap,
    List.mem_ite_nil_right, List.mem_singleton] at h
  obtain (⟨x, -, hr⟩ | ⟨x, -, ⟨-, rfl⟩ | hr⟩) | hr := h
  · exact code_of_mem_answerReports hr
  · exact code_ofRule_ne (by decide) _ _
  · exact code_of_mem_answerReports hr
  · exact code_of_mem_answerReports hr

/-- **No report on a draft is by the rule about types.** -/
theorem code_of_mem_reports {d : Draft} {r : Diagnostic} (h : r ∈ p.reports d) :
    r.code ≠ Rule.typeNotPartial.number := by
  simp only [reports, List.mem_eraseDups, List.mem_append] at h
  obtain (((h | h) | h) | h) | h := h
  · exact code_of_mem_signatureReports h
  · exact code_of_mem_draftReports h
  · simp only [targetReports, List.mem_ite_nil_right, List.mem_singleton] at h
    obtain ⟨-, rfl⟩ := h
    exact code_ofRule_ne (by decide) _ _
  · rw [definitionReports] at h
    split at h
    · cases h
    · cases h
    · obtain rfl := List.mem_singleton.mp h
      exact code_ofRule_ne (by decide) _ _
  · simp only [inferenceReports] at h
    split at h
    · cases h
    · obtain rfl := List.mem_singleton.mp h
      exact code_ofRule_ne (by decide) _ _

/-- **No report on a method is by the rule about types.** -/
theorem code_of_mem_planMethod {r : Diagnostic} (h : r ∈ (p.planMethod m).reports) :
    r.code ≠ Rule.typeNotPartial.number := by
  rw [planMethod] at h
  split at h
  · rename_i d hread
    obtain rfl := List.mem_singleton.mp h
    obtain ⟨rule, hrule, args, location, rfl⟩ := MarkerNames.onMarker_of_read hread
    have hother : ∀ rule ∈ MarkerNames.markerRules, rule ≠ .typeNotPartial := by decide
    exact code_ofRule_ne (hother rule hrule) _ _
  · cases h
  · exact code_of_mem_reports h

theorem code_of_onMethod_mem_findings {r : Diagnostic} (h : .onMethod r ∈ p.findings m) :
    r.code ≠ Rule.typeNotPartial.number := by
  rw [findings] at h
  split at h
  · obtain ⟨r', hr', hfinding⟩ := List.mem_map.mp h
    exact Finding.onMethod.inj hfinding ▸ code_of_mem_planMethod hr'
  · obtain ⟨d, -, hfinding⟩ := List.mem_map.mp h
    cases hfinding

/-- The types that planning a method tells of are those around it that are not partial. -/
theorem types_findings (p : Planner) (m : Method) :
    Finding.types (p.findings m) = p.closedTypes m := by
  rw [findings, Finding.types]
  split
  · rename_i hclosed
    rw [hclosed, List.filterMap_map]
    exact List.filterMap_eq_nil_iff.mpr fun _ _ => rfl
  · rw [List.filterMap_map]
    exact List.filterMap_some

/-! ## Groups -/

/-- **The reports of methods one after the other** are what each of them finds, without the types
that were told of before. -/
theorem planFrom_reports {ms : List Method}
    (hms : ∀ m ∈ ms, ((p.closedTypes m).map (·.name)).Nodup) (told : List DeclName) :
    (p.planFrom told ms).reports =
      (Finding.dropRepeats told (ms.flatMap p.findings)).map Finding.report := by
  induction ms generalizing told with
  | nil => rfl
  | cons m ms ih =>
    obtain ⟨hm, hms⟩ := List.forall_mem_cons.mp hms
    rw [planFrom, List.flatMap_cons, findings]
    split
    · rename_i hclosed
      rw [if_pos hclosed, Finding.dropRepeats_onMethod, List.map_append, List.map_map,
        Outcome.append, ih hms]
      exact congrArg (· ++ _) (List.map_id _).symm
    · rename_i hclosed
      rw [if_neg hclosed, Finding.dropRepeats_closed hm, List.map_append, List.map_map]
      exact congrArg (_ ++ ·) (ih hms _)

/-- One method alone has all its findings reported. -/
theorem reports_planGroup_singleton (p : Planner) (m : Method) :
    (p.planGroup [m]).reports = (p.findings m).map Finding.report := by
  rw [planGroup, planFrom, findings]
  split
  · rename_i hclosed
    rw [if_pos hclosed, List.map_map]
    simp [Outcome.append, planFrom, Finding.report, Function.comp_def]
  · rename_i hclosed
    rw [if_neg hclosed, List.map_map]
    simp [Outcome.append, planFrom, Finding.report, Function.comp_def]

/-! ## Loaded programs -/

section Loaded

variable {docs : List GraphDocument} (h : load docs = .ok p.graph) (hm : m ∈ p.graph.methods)

include h hm

/-- The types around a method of the program are found under their own names. -/
theorem exists_decl?_of_mem_chain {n : DeclName} (hn : n ∈ m.declaring.chain) :
    ∃ d ∈ p.graph.decls, d.name = n ∧ p.graph.decl? n = some d := by
  obtain ⟨host, hhost, -, hname, -⟩ := exists_declaring h hm
  obtain ⟨d, hd, rfl⟩ := exists_decl_around h hhost (hname ▸ hn)
  exact ⟨d, hd, rfl, decl?_of_mem h hd⟩

/-- **The types that planning a method tells of.** -/
theorem mem_closedTypes {d : TypeDecl} : d ∈ p.closedTypes m ↔
    d ∈ p.graph.decls ∧ d.isPartial = false ∧ d.name ∈ m.declaring.chain := by
  rw [closedTypes, List.mem_filter, List.mem_filterMap, Bool.not_eq_true']
  constructor
  · rintro ⟨⟨n, hn, hd⟩, hclosed⟩
    obtain ⟨d', hd', rfl, hfound⟩ := exists_decl?_of_mem_chain h hm hn
    obtain rfl := Option.some.inj (hfound.symm.trans hd)
    exact ⟨hd', hclosed, hn⟩
  · rintro ⟨hd, hclosed, hn⟩
    exact ⟨⟨d.name, hn, decl?_of_mem h hd⟩, hclosed⟩

theorem nodup_closedTypes : ((p.closedTypes m).map (·.name)).Nodup := by
  have hnames : ((m.declaring.chain.filterMap p.graph.decl?).map (·.name)).Sublist
      (m.declaring.chain.map id) := by
    refine sublist_map_filterMap id fun n hn d hd => ?_
    obtain ⟨d', -, hname, hfound⟩ := exists_decl?_of_mem_chain h hm hn
    exact Option.some.inj (hfound.symm.trans hd) ▸ hname
  rw [List.map_id] at hnames
  refine (DeclName.nodup_chain m.declaring).sublist (List.Sublist.trans ?_ hnames)
  exact List.filter_sublist.map _

end Loaded

/-! ## Composition -/

/-- **A group is planned method by method.**  Its plans are those of the single methods, in order; its
reports are what the single methods report, in order, without repeats about types that are not
partial.  So each such type around one of the methods is told of once, and all other reports are
those of the single methods. -/
structure Composes (p : Planner) (ms : List Method) : Prop where
  plans : (p.planGroup ms).plans = ms.flatMap fun m => (p.planGroup [m]).plans
  single : ∀ m ∈ ms, (p.planGroup [m]).reports = (p.findings m).map Finding.report
  rule : ∀ m ∈ ms, ∀ f ∈ p.findings m,
    f.report.code = Rule.typeNotPartial.number ↔ ∃ d, f = .closed d
  reports : (p.planGroup ms).reports =
    (Finding.dropRepeats [] (ms.flatMap p.findings)).map Finding.report
  once : ∃ told : List TypeDecl, (told.map (·.name)).Nodup ∧
    (∀ d, d ∈ told ↔
      d ∈ p.graph.decls ∧ d.isPartial = false ∧ ∃ m ∈ ms, d.name ∈ m.declaring.chain) ∧
    (p.planGroup ms).reports.filter (·.code == Rule.typeNotPartial.number) =
      told.map closedReport
  others : (p.planGroup ms).reports.filter (·.code != Rule.typeNotPartial.number) =
    ms.flatMap fun m =>
      (p.planGroup [m]).reports.filter (·.code != Rule.typeNotPartial.number)

theorem rule_of_mem_findings {f : Finding} (hf : f ∈ p.findings m) :
    f.report.code = Rule.typeNotPartial.number ↔ ∃ d, f = .closed d := by
  cases f with
  | closed d => exact iff_of_true rfl ⟨d, rfl⟩
  | onMethod r => exact iff_of_false (code_of_onMethod_mem_findings hf) nofun

theorem plans_planGroup (p : Planner) (ms : List Method) :
    (p.planGroup ms).plans = ms.flatMap fun m => (p.planGroup [m]).plans := by
  simp only [planGroup, planFrom_plans, List.flatMap_cons, List.flatMap_nil, List.append_nil]

theorem others_planGroup {ms : List Method}
    (hms : ∀ m ∈ ms, ((p.closedTypes m).map (·.name)).Nodup) :
    (p.planGroup ms).reports.filter (·.code != Rule.typeNotPartial.number) =
      ms.flatMap fun m =>
        (p.planGroup [m]).reports.filter (·.code != Rule.typeNotPartial.number) := by
  rw [planGroup, planFrom_reports hms, Finding.filter_reports_dropRepeats, List.map_flatMap,
    List.filter_flatMap]
  simp only [reports_planGroup_singleton]

section Loaded

variable {docs : List GraphDocument} (h : load docs = .ok p.graph) {ms : List Method}
  (hms : ∀ m ∈ ms, m ∈ p.graph.methods)

include h hms

/-- The types that planning the methods tells of, each by itself. -/
theorem mem_types_findings {d : TypeDecl} : d ∈ Finding.types (ms.flatMap p.findings) ↔
    d ∈ p.graph.decls ∧ d.isPartial = false ∧ ∃ m ∈ ms, d.name ∈ m.declaring.chain := by
  have htypes : Finding.types (ms.flatMap p.findings) = ms.flatMap p.closedTypes := by
    rw [Finding.types, List.filterMap_flatMap]
    exact congrArg (ms.flatMap ·) (funext (types_findings p))
  rw [htypes, List.mem_flatMap]
  constructor
  · rintro ⟨m, hm, hd⟩
    obtain ⟨hd, hclosed, hn⟩ := (mem_closedTypes h (hms m hm)).mp hd
    exact ⟨hd, hclosed, m, hm, hn⟩
  · rintro ⟨hd, hclosed, m, hm, hn⟩
    exact ⟨m, hm, (mem_closedTypes h (hms m hm)).mpr ⟨hd, hclosed, hn⟩⟩

/-- **The group tells of the same types, each once.** -/
theorem mem_types_dropRepeats_findings {d : TypeDecl} :
    d ∈ Finding.types (Finding.dropRepeats [] (ms.flatMap p.findings)) ↔
      d ∈ p.graph.decls ∧ d.isPartial = false ∧ ∃ m ∈ ms, d.name ∈ m.declaring.chain := by
  rw [← mem_types_findings h hms]
  have hname : ∀ d ∈ Finding.types (ms.flatMap p.findings),
      ∀ d' ∈ Finding.types (ms.flatMap p.findings), d.name = d'.name → d = d' := by
    intro d hd d' hd' heq
    have hfound := decl?_of_mem h ((mem_types_findings h hms).mp hd).1
    rw [heq, decl?_of_mem h ((mem_types_findings h hms).mp hd').1] at hfound
    exact (Option.some.inj hfound).symm
  constructor
  · intro hd
    exact (Finding.sublist_dropRepeats.filterMap _).mem hd
  · intro hd
    exact Finding.mem_types_dropRepeats hname hd List.not_mem_nil

end Loaded

end Planner

/-- **Planning is compositional**: a group of methods of a loaded program is planned method by
method, whatever their order and however their types are nested.  Planning in which an interface
closure goes past the visit limit does not end, and is not meant. -/
theorem planning_compositional {docs : List GraphDocument} {p : Planner}
    (h : load docs = .ok p.graph) {ms : List Method} (hms : ∀ m ∈ ms, m ∈ p.graph.methods) :
    p.Composes ms := by
  have hnodup : ∀ m ∈ ms, ((p.closedTypes m).map (·.name)).Nodup := fun m hm =>
    Planner.nodup_closedTypes h (hms m hm)
  have hreports := Planner.planFrom_reports hnodup []
  refine ⟨Planner.plans_planGroup p ms, fun m _ => Planner.reports_planGroup_singleton p m,
    fun _ _ _ => Planner.rule_of_mem_findings, hreports,
    ⟨Finding.types (Finding.dropRepeats [] (ms.flatMap p.findings)), Finding.nodup_dropRepeats.1,
      fun d => Planner.mem_types_dropRepeats_findings h hms, ?_⟩, Planner.others_planGroup hnodup⟩
  rw [Planner.planGroup, hreports]
  refine Finding.filter_reports_closed fun r hr => ?_
  obtain ⟨m, -, hr⟩ := List.mem_flatMap.mp (Finding.sublist_dropRepeats.mem hr)
  exact Planner.code_of_onMethod_mem_findings hr

/-! A type that is not partial around another one, with a method in each, and a partial type. -/

namespace Nested

/-- A method whose type parameter is marked. -/
def bridged (name : String) : MethodDoc :=
  { name, accessibility := "public", flags := {}
    typeParams := [
      { CoreLibrary.param "T" with attributes := [⟨"Bridgegen.DynamicBridgeAttribute", [], []⟩] }]
    params := [⟨"item", "T", .none, none, false, none⟩], returns := "void", attributes := []
    location := none }

/-- The program. -/
def docs : List GraphDocument :=
  [{ coreLibrary := false, usings := []
     types := CoreLibrary.bareTypes ++ [
      { CoreLibrary.classType "Shop" "Shelf" with
        methods := [bridged "Put"]
        nested := [{ CoreLibrary.classType "Shop" "Box" with methods := [bridged "Pack"] }] },
      { CoreLibrary.classType "Shop" "Store" with
        isPartial := true, methods := [bridged "Sell"] }] }]

/-- The program loads, and its methods together get one plan and two reports on types, but each by
itself one plan, one report and two reports. -/
theorem exists_outcomes : ∃ p : Planner, load docs = .ok p.graph ∧
    (p.planGroup p.graph.methods).plans.length = 1 ∧
    (p.planGroup p.graph.methods).reports.map (·.code) = [13, 13] ∧
    p.graph.methods.map (fun m => (p.planGroup [m]).reports.length) = [1, 2, 0] := by
  have hcheck : loadsWith docs (fun g known =>
      let p : Planner := ⟨g, known, {}⟩
      (p.planGroup g.methods).plans.length == 1 &&
        (p.planGroup g.methods).reports.map (·.code) == [13, 13] &&
        g.methods.map (fun m => (p.planGroup [m]).reports.length) == [1, 2, 0]) = true := by
    decide +kernel
  obtain ⟨g, known, hload, -, h⟩ := exists_of_loadsWith hcheck
  simp only [Bool.and_eq_true, beq_iff_eq] at h
  obtain ⟨⟨hplans, hcodes⟩, hsingle⟩ := h
  exact ⟨⟨g, known, {}⟩, hload, hplans, hcodes, hsingle⟩

end Nested

/-- The outer type is told of once, though both methods inside it find that it is not partial. -/
theorem planning_compositional_nested : ∃ p : Planner, load Nested.docs = .ok p.graph ∧
    (p.planGroup p.graph.methods).plans.length = 1 ∧
    (p.planGroup p.graph.methods).reports.map (·.code) = [13, 13] ∧
    p.graph.methods.map (fun m => (p.planGroup [m]).reports.length) = [1, 2, 0] ∧
    p.Composes p.graph.methods := by
  obtain ⟨p, hload, hplans, hcodes, hsingle⟩ := Nested.exists_outcomes
  exact ⟨p, hload, hplans, hcodes, hsingle, planning_compositional hload fun _ hm => hm⟩

end LateBridge
