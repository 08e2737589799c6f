import LateBridge.Proofs.Bridge.ErasureRun
import LateBridge.Proofs.Bridge.Plans
import LateBridge.Proofs.Document.Stripping

/-!
# Proofs/Bridge/Locality — a method is planned without the methods of other namespaces

    graph ──strip a namespace──▸ graph
      └──────▸ one plan ◂──────────┘        of a method of another namespace

Planning reads three things in a graph.  Heads of types are no methods, so the whole hierarchy is
left when methods go.  Constraints are looked up for the parameters of the method itself and for
marked ones, which are among them (`Erasure.eraseVarWithin_strip`).  Members and definitions are
looked for in the type of the method.  So a method that is left has the plan it had
(`Planner.planMethod_strip`), and a group of such methods the same outcome
(`Planner.planGroup_strip`).
-/

namespace LateBridge

variable {space : Option String}

/-! ## The hierarchy -/

namespace Graph

variable {g : Graph}

@[simp] theorem base?_strip (t : Ty) : (g.strip space).base? t = g.base? t := by
  cases t with
  | named n args =>
    rw [base?, base?, decl?_strip]
    cases g.decl? n <;> rfl
  | array element rank => exact special?_strip .array
  | _ => rfl

@[simp] theorem interfaces_strip (t : Ty) : (g.strip space).interfaces t = g.interfaces t := by
  cases t with
  | named n args =>
    rw [interfaces, interfaces, decl?_strip]
    cases g.decl? n <;> rfl
  | _ => rfl

@[simp] theorem baseChain_strip (t : Ty) : (g.strip space).baseChain t = g.baseChain t := by
  rw [baseChain_congr (funext base?_strip)]

@[simp] theorem allInterfaces_strip (t : Ty) :
    (g.strip space).allInterfaces t = g.allInterfaces t := by
  rw [allInterfaces_congr (funext base?_strip) (funext interfaces_strip) rfl]

@[simp] theorem isInterface_strip (t : Ty) :
    (g.strip space).isInterface t = g.isInterface t := by
  rw [isInterface, isInterface, kind?_strip]

theorem isValueType_strip_named (n : DeclName) (args : List Ty) :
    (g.strip space).isValueType (.named n args) = g.isValueType (.named n args) := by
  rw [isValueType, isValueType, decl?_strip, Option.any_map]
  rfl

theorem hasMember_strip (d : TypeDecl) (name : String) :
    (g.strip space).hasMember d name = g.hasMember d name := by
  have hnested : (g.strip space).nestedIn d.name = (g.nestedIn d.name).map (·.strip space) := by
    rw [nestedIn, nestedIn, strip, List.filter_map]
    rfl
  rw [hasMember, hasMember, hnested, List.any_map]
  rfl

/-! ## Methods that are left -/

/-- **A method that stripping leaves alone**: its type keeps its methods, and its type parameters
stay in the graph. -/
structure KeepsMethod (space : Option String) (g : Graph) (m : Method) : Prop where
  declaring : (g.strip space).decl? m.declaring = g.decl? m.declaring
  vars : ∀ v ∈ m.vars, g.Keeps space v

theorem keepsMethod_of_load {docs : List GraphDocument} (h : load docs = .ok g) {m : Method}
    (hm : m ∈ g.methods) (hspace : m.declaring.space ≠ space) : g.KeepsMethod space m := by
  obtain ⟨d, -, -, hname, hfound⟩ := exists_declaring h hm
  refine ⟨?_, fun v hv => keeps_of_method ((vars_of_load h hm).2 v hv) hfound (hname ▸ hspace)⟩
  rw [decl?_strip, hfound, Option.map_some, TypeDecl.strip_of_ne (hname ▸ hspace)]

end Graph

/-! ## Erasure -/

namespace Erasure

variable {e : Erasure}

/-- Erasure over what is left of a graph. -/
def strip (space : Option String) (e : Erasure) : Erasure := { e with graph := e.graph.strip space }

theorem marked_strip : (e.strip space).marked = e.marked := rfl

@[simp] theorem needs_strip (t : Ty) : (e.strip space).needs t = e.needs t := by
  rw [needs_congr marked_strip]

@[simp] theorem toInterface_strip (t : Ty) : (e.strip space).toInterface t = e.toInterface t := by
  rw [toInterface, toInterface, pick_congr marked_strip]
  simp only [strip, Graph.interfaces_strip, Graph.allInterfaces_strip]

theorem ofNamed_strip (n : DeclName) (args : List Ty) :
    (e.strip space).ofNamed (.named n args) = e.ofNamed (.named n args) := by
  have hbase : ∀ t, (e.strip space).usableBase? t = e.usableBase? t := fun t => by
    simp only [usableBase?, needs_strip]
    simp only [strip, Graph.baseChain_strip]
  simp only [ofNamed, toBase, toInterface_strip, hbase]
  simp only [strip, Graph.isInterface_strip, Graph.isValueType_strip_named]

section Steps

variable {step step' : VarStep} (hstep : ∀ s v, e.isMarked v = true → step' s v = step s v)

include hstep

theorem simplifyBy_strip (s : State) (t : Ty) :
    (e.strip space).simplifyBy step' s t = e.simplifyBy step s t := by
  unfold simplifyBy
  rw [needs_strip]
  cases hneeds : e.needs t with
  | false => rfl
  | true =>
    cases t with
    | var v =>
      have hmarked : e.isMarked v = true := by simpa [needs, needsAt, maxNesting] using hneeds
      simp only [hstep s v hmarked]
    | named n args => simp only [ofNamed_strip]
    | _ => rfl

theorem eraseEach_strip (s : State) (found ts : List Ty) :
    (e.strip space).eraseEach step' s found ts = e.eraseEach step s found ts := by
  induction ts generalizing s found with
  | nil => rfl
  | cons t ts ih => simp only [eraseEach, simplifyBy_strip hstep, ih]

theorem ofConstraints_strip (s : State) {v : TypeVar} (hv : e.graph.Keeps space v) :
    (e.strip space).ofConstraints step' s v = e.ofConstraints step s v := by
  have htypes : (e.strip space).graph.constraintTypes v = e.graph.constraintTypes v :=
    Graph.constraintTypes_strip hv
  have hkinds : (e.strip space).graph.constraints v = e.graph.constraints v :=
    Graph.constraints_strip hv
  simp only [ofConstraints, htypes, hkinds, needs_strip, eraseEach_strip hstep]
  rfl

end Steps

/-- The marked parameters stay in the graph. -/
def KeepsMarked (space : Option String) (e : Erasure) : Prop :=
  ∀ v, e.isMarked v = true → e.graph.Keeps space v

variable (he : e.KeepsMarked space)

include he

/-- **A marked parameter is erased as before.**  By induction on the fuel: the parameters that its
constraint types lead to are marked too. -/
theorem eraseVarWithin_strip (fuel : Nat) (s : State) {v : TypeVar} (hv : e.isMarked v = true) :
    (e.strip space).eraseVarWithin fuel s v = e.eraseVarWithin fuel s v := by
  induction fuel generalizing s v with
  | zero => rfl
  | succ fuel ih =>
    simp only [eraseVarWithin, ofConstraints_strip (fun s v hv => ih s hv) _ (he v hv)]
    rfl

theorem eraseParam_strip (s : State) {v : TypeVar} (hv : e.isMarked v = true) :
    (e.strip space).eraseParam s v = e.eraseParam s v := by
  have hfuel : (e.strip space).fuel = e.fuel := rfl
  rw [eraseParam, eraseParam, hfuel, eraseVarWithin_strip he e.fuel s hv]

theorem simplify_strip : (e.strip space).simplify = e.simplify := by
  have hfuel : (e.strip space).fuel = e.fuel := rfl
  funext s t
  rw [simplify, simplify, hfuel,
    simplifyBy_strip fun s _ hv => eraseVarWithin_strip he e.fuel s hv]

theorem simplifyReturn_strip (s : State) (t : Ty) (isAsync : Bool) :
    (e.strip space).simplifyReturn s t isAsync = e.simplifyReturn s t isAsync := by
  have htask : (e.strip space).plainTask? t = e.plainTask? t := rfl
  simp only [simplifyReturn, needs_strip, htask, simplify_strip he]

end Erasure

/-! ## Planning -/

/-- A step that does the same to all elements does the same along the list. -/
theorem threaded_congr {σ α β : Type} {f f' : σ → α → β × σ} {as : List α}
    (h : ∀ a ∈ as, ∀ s, f s a = f' s a) (s : σ) : threaded f s as = threaded f' s as := by
  induction as generalizing s with
  | nil => rfl
  | cons a as ih =>
    obtain ⟨ha, has⟩ := List.forall_mem_cons.mp h
    simp only [threaded, ha, ih has]

namespace Planner

variable {p : Planner} {m : Method} {marks : Marks}

/-- Planning over what is left of a graph. -/
def strip (space : Option String) (p : Planner) : Planner := { p with graph := p.graph.strip space }

theorem erasure_strip : (p.strip space).erasure marks = (p.erasure marks).strip space := rfl

section Method

variable (hm : p.graph.KeepsMethod space m) (hread : p.names.read m = .ok (some marks))

include hm hread

theorem keepsMarked_erasure : (p.erasure marks).KeepsMarked space :=
  fun v hv => hm.vars v (MarkerNames.mem_vars_of_isMarked hread hv)

theorem draft_strip : (p.strip space).draft m marks = p.draft m marks := by
  have he := keepsMarked_erasure hm hread
  have herased : ∀ s, threaded (((p.erasure marks).strip space).eraseParam) s
      (marks.marked.map (·.1)) = threaded (p.erasure marks).eraseParam s (marks.marked.map (·.1)) :=
    threaded_congr fun v hv s => Erasure.eraseParam_strip he s (by
      obtain ⟨x, hx, rfl⟩ := List.mem_map.mp hv
      exact List.any_eq_true.mpr ⟨x, hx, beq_self_eq_true _⟩)
  simp only [draft, erasure_strip, herased, Erasure.simplify_strip he,
    Erasure.simplifyReturn_strip he, Erasure.needs_strip]

theorem freshWrapper_strip {d : Draft} (hd : d.method = m) (hmarks : d.marks = marks) :
    (p.strip space).freshWrapper d = p.freshWrapper d := by
  subst hd hmarks
  have he := keepsMarked_erasure hm hread
  have hclause : ∀ v ∈ retained d.method d.marks, ∀ s,
      (p.strip space).freshClause d.marks s v = p.freshClause d.marks s v := by
    intro v hv s
    have hkeeps := hm.vars v (List.mem_of_mem_filter hv)
    have htypes : (p.strip space).graph.constraintTypes v = p.graph.constraintTypes v :=
      Graph.constraintTypes_strip hkeeps
    have hkinds : (p.strip space).graph.constraints v = p.graph.constraints v :=
      Graph.constraints_strip hkeeps
    simp only [freshClause, erasure_strip, Erasure.simplify_strip he, htypes, hkinds]
    rfl
  simp only [freshWrapper, threaded_congr hclause]

omit hread

theorem definitions_strip : (p.strip space).definitions m marks = p.definitions m marks := by
  have hdecl : (p.strip space).graph.decl? m.declaring = p.graph.decl? m.declaring := hm.declaring
  rw [definitions, definitions, hdecl]

theorem targetReports_strip :
    (p.strip space).targetReports m marks = p.targetReports m marks := by
  have hdecl : (p.strip space).graph.decl? m.declaring = p.graph.decl? m.declaring := hm.declaring
  have hmember : (p.strip space).graph.hasMember = p.graph.hasMember :=
    funext fun d => funext fun name => Graph.hasMember_strip d name
  simp only [targetReports, hdecl, hmember]

/-- **A method that is left is planned as before.** -/
theorem planMethod_strip : (p.strip space).planMethod m = p.planMethod m := by
  have hnames : (p.strip space).names = p.names := rfl
  rw [planMethod, planMethod, hnames]
  cases hread : p.names.read m with
  | error d => rfl
  | ok marks? =>
    cases marks? with
    | none => rfl
    | some marks =>
      have hinferable : (p.strip space).inferable m marks = p.inferable m marks := rfl
      have hshape : (p.strip space).asyncShape = p.asyncShape := rfl
      have hmethod : (p.draft m marks).method = m := rfl
      have hmarks : (p.draft m marks).marks = marks := rfl
      have hreports : (p.strip space).reports (p.draft m marks) = p.reports (p.draft m marks) := by
        simp only [reports, hmethod, hmarks, targetReports_strip hm, definitionReports,
          definitions_strip hm, inferenceReports, hinferable]
      have hplan : (p.strip space).planOf (p.draft m marks) = p.planOf (p.draft m marks) := by
        simp only [planOf, hmethod, hmarks, definitions_strip hm, hinferable, hshape,
          freshWrapper_strip hm hread hmethod hmarks]
      simp only [draft_strip hm hread, hreports, hplan]

end Method

theorem closedTypes_strip (m : Method) :
    (p.strip space).closedTypes m = (p.closedTypes m).map (TypeDecl.strip space) := by
  have hdecl : (p.strip space).graph.decl? =
      fun n => (p.graph.decl? n).map (TypeDecl.strip space) := funext Graph.decl?_strip
  rw [closedTypes, closedTypes, hdecl, ← List.map_filterMap, List.filter_map]
  rfl

/-- **Methods that are left are planned as before**, one after the other. -/
theorem planFrom_strip {ms : List Method} (hms : ∀ m ∈ ms, p.graph.KeepsMethod space m)
    (told : List DeclName) : (p.strip space).planFrom told ms = p.planFrom told ms := by
  induction ms generalizing told with
  | nil => rfl
  | cons m ms ih =>
    obtain ⟨hm, hms⟩ := List.forall_mem_cons.mp hms
    rw [planFrom, planFrom, closedTypes_strip]
    cases hclosed : p.closedTypes m with
    | nil => rw [List.map_nil, planMethod_strip hm, ih hms]
    | cons d ds =>
      have hfresh : ((d :: ds).map (TypeDecl.strip space)).filter (fun d => !told.contains d.name) =
          ((d :: ds).filter fun d => !told.contains d.name).map (TypeDecl.strip space) := by
        rw [List.filter_map]
        rfl
      have hreports : ∀ closed : List TypeDecl,
          (closed.map (TypeDecl.strip space)).map closedReport = closed.map closedReport := by
        intro closed
        rw [List.map_map]
        rfl
      have hnames : ∀ closed : List TypeDecl,
          (closed.map (TypeDecl.strip space)).map (·.name) = closed.map (·.name) := by
        intro closed
        rw [List.map_map]
        rfl
      rw [List.map_cons] at hfresh ⊢
      simp only [hfresh, hreports, hnames, ih hms]

theorem planGroup_strip {ms : List Method} (hms : ∀ m ∈ ms, p.graph.KeepsMethod space m) :
    (p.strip space).planGroup ms = p.planGroup ms := planFrom_strip hms []

end Planner

end LateBridge
