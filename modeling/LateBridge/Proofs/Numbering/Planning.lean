import LateBridge.Generation
import LateBridge.Proofs.Bridge.Signatures
import LateBridge.Proofs.Numbering.Plans

/-!
# Proofs/Numbering/Planning — planning a group over numbers

    methods ──drafts──▸ erased numbers ──reports, read from them──▸ plans over numbers ──read──▸ file

A group is planned over the numbers that loading gave to what its methods store.  Besides the types
that erasure numbers there are those whose names are written in reports: a declared type over its
own parameters.  Reports and files only read.  A group over numbers gives the plans, the reports and
the file of the group over types (`gives_runGroup`).
-/

namespace LateBridge

namespace Numbered

open Interning

/-! ## Reserved numbers -/

/-- The number of the empty type. -/
def voidId : Nat := 0

/-- The number of the error type. -/
def errorId : Nat := 2

theorem denotes_void (i : Numbers) : i.Denotes .void voidId := by
  obtain ⟨rest, hrest⟩ := i.reserved
  rw [Interner.Denotes, ← hrest]
  rfl

theorem denotes_error (i : Numbers) : i.Denotes .error errorId := by
  obtain ⟨rest, hrest⟩ := i.reserved
  rw [Interner.Denotes, ← hrest]
  rfl

/-! ## Programs -/

/-- **What a marked method erases to**, over numbers. -/
structure Draft where
  method : Method
  marks : Marks
  erased : List (TypeVar × Answer)
  params : List (Answer × Bool)
  returns : Answer
  state : State

/-- Plans over numbers, and reports. -/
structure Outcome where
  plans : List Plan
  reports : List Diagnostic

/-- One outcome after another. -/
def Outcome.append (a b : Outcome) : Outcome := ⟨a.plans ++ b.plans, a.reports ++ b.reports⟩

/-- **What came of a group**, its plans over numbers. -/
structure GroupResult where
  space : Option String
  plans : List Plan
  artifact? : Option Artifact
  reports : List Diagnostic

/-- The number of a declared type over its own parameters, which are numbered first. -/
def declared (n : DeclName) : Interning Nat := do
  let vars ← each (fun v => numberOf (.param v)) n.vars
  numberOf (.named n vars)

/-- The number of an answer. -/
def typeOf : Answer → Nat
  | .ok id => id
  | .error _ => errorId

/-- A failure, read. -/
def readFailure : Failure → Interning ErasureError
  | .ambiguous ids => do
    let candidates ← each read ids
    return .ambiguous candidates
  | .unresolvable => return .unresolvable
  | .pointer id => do
    let t ← read id
    return .pointer t

/-- An answer, read. -/
def readAnswer : Answer → Interning Erasure.Answer
  | .ok id => do
    let t ← read id
    return .ok t
  | .error x => do
    let x ← readFailure x
    return .error x

/-- An answer beside something else, read. -/
def readFirst (x : Answer × Bool) : Interning (Erasure.Answer × Bool) := do
  let a ← readAnswer x.1
  return (a, x.2)

/-- An answer under a parameter, read. -/
def readSecond (x : TypeVar × Answer) : Interning (TypeVar × Erasure.Answer) := do
  let a ← readAnswer x.2
  return (x.1, a)

section Planner

variable (p : Planner) (label : Ty → Nat)

/-- The numbers of the parameter types of a method. -/
def paramTypes (m : Method) : List Nat := m.params.map fun q => label q.type

/-- The erasure of the return type. -/
def returned (m : Method) (marks : Marks) (s : State) : Interning (Answer × State) :=
  if label m.returns = voidId then return (.ok voidId, s)
  else simplifyReturn (p.erasure marks) label s (label m.returns) m.flags.isAsync

/-- **The draft of a method.** -/
def draft (m : Method) (marks : Marks) : Interning Draft := do
  let e := p.erasure marks
  let (erased, s) ← eachWith (eraseParam e label) {} (marks.marked.map (·.1))
  let (params, s) ← eachWith (simplify e label) s (paramTypes label m)
  let needs ← each (ask e.needs) (paramTypes label m)
  let (returns, s) ← returned p label m marks s
  return { method := m, marks, erased := (marks.marked.map (·.1)).zip erased
           params := params.zip needs, returns, state := s }

/-- All reports on a draft; they show the types behind its numbers. -/
def reports (d : Draft) : Interning (List Diagnostic) := do
  let erased ← each readSecond d.erased
  let params ← each readFirst d.params
  let returns ← readAnswer d.returns
  return p.reports { method := d.method, marks := d.marks, erased, params, returns, state := {} }

/-- The marked parameters in the parameter types. -/
def inferable (m : Method) (marks : Marks) : Interning (List TypeVar) := do
  let types ← each read (paramTypes label m)
  return types.foldl (p.erasure marks).collect []

/-- Whether a wrapper awaits its target. -/
def asyncShape (returns : Nat) (isAsync : Bool) : Interning AsyncShape :=
  if returns = voidId then return ⟨false, none⟩
  else if !isAsync then return ⟨false, some returns⟩
  else if some returns = p.known.task?.map label ∨ some returns = p.known.valueTask?.map label then
    return ⟨true, none⟩
  else do
    match ← shapeOf returns with
    | .named n [value] =>
      return if p.known.isGenericAwaitable n then ⟨true, some value⟩ else ⟨false, some returns⟩
    | _ => return ⟨false, some returns⟩

/-- A parameter of a wrapper of its own. -/
def freshParam (q : Param) (answer : Answer) (needs : Bool) : WrapperParam :=
  { name := q.name, type := typeOf answer, target := label q.type, refKind := q.refKind
    isParams := q.isParams && !needs
    default? := q.default?.filter fun value => !needs || value == .null, isDynamic := needs }

/-- The number of an answer that may stand in a clause: not that of a root. -/
def usableBound? : Answer → Option Nat
  | .ok id => if id = label p.known.object ∨ id = label p.known.valueType then none else some id
  | .error _ => none

/-- The constraints of a parameter that stays. -/
def freshClause (marks : Marks) (s : State) (v : TypeVar) :
    Interning (ConstraintClause × State) := do
  let (answers, s) ← eachWith (simplify (p.erasure marks) label) s
    ((p.graph.constraintTypes v).map label)
  return (⟨v, p.graph.constraints v, answers.filterMap (usableBound? p label)⟩, s)

/-- **A wrapper of its own.** -/
def freshWrapper (d : Draft) : Interning Wrapper := do
  let m := d.method
  let kept := Planner.retained m d.marks
  let (constraints, _) ← eachWith (freshClause p label d.marks) d.state kept
  return { name := d.marks.wrapperName m, modifiers := d.marks.modifiers m
           isStatic := m.flags.isStatic, isReadonly := m.flags.isReadonly
           isExtension := m.flags.isExtension, isPartial := false
           returns := typeOf d.returns, typeParams := kept, constraints
           params := (m.params.zip d.params).map fun x => freshParam label x.1 x.2.1 x.2.2 }

/-- A parameter of a wrapper that implements a definition. -/
def definedParam (q : Param) (target : Ty) (needs : Bool) : WrapperParam :=
  { name := q.name, type := label q.type, target := label target, refKind := q.refKind
    isParams := q.isParams, default? := none, isDynamic := needs }

/-- The clause of a declared type parameter. -/
def declaredClause (q : TypeParam) : ConstraintClause := ⟨q.var, q.constraints, q.types.map label⟩

/-- **A wrapper that implements a definition.** -/
def definedWrapper (d : Draft) (definition : Method) : Wrapper :=
  { name := definition.name, modifiers := definition.accessibility.keywords
    isStatic := definition.flags.isStatic, isReadonly := definition.flags.isReadonly
    isExtension := definition.flags.isExtension, isPartial := true
    returns := label definition.returns, typeParams := definition.vars
    constraints := definition.typeParams.map (declaredClause label)
    params := (definition.params.zip (d.method.params.zip d.params)).map
      fun x => definedParam label x.1 x.2.1.type x.2.2.2 }

/-- The plan with a wrapper. -/
def planWith (d : Draft) (w : Wrapper) (isAsync : Bool) (definition? : Option MethodId) :
    Interning Plan := do
  let m := d.method
  let shape ← asyncShape p label w.returns isAsync
  let inferable ← inferable p label m d.marks
  return { method := m
           erasures := d.erased.filterMap fun x => x.2.toOption.map (x.1, ·)
           retained := Planner.retained m d.marks, target := targetName m.name, wrapper := w
           shape, definition?, inferable, ignoreUnbound := d.marks.ignoreUnbound }

/-- The plan of a draft without errors. -/
def planOf (d : Draft) : Interning Plan :=
  let m := d.method
  match p.definitions m d.marks with
  | [definition] =>
    planWith p label d (definedWrapper label d definition)
      (m.flags.isAsync || definition.flags.isAsync) (some definition.id)
  | _ => do
    let w ← freshWrapper p label d
    planWith p label d w m.flags.isAsync none

/-- **Planning one method.**  Its name is written in every report on it. -/
def planMethod (m : Method) : Interning Outcome :=
  match p.names.read m with
  | .error d => do
    let _ ← declared m.declaring
    return ⟨[], [d]⟩
  | .ok none => return ⟨[], []⟩
  | .ok (some marks) => do
    let _ ← declared m.declaring
    let d ← draft p label m marks
    let reports ← reports p d
    if hasErrors reports then return ⟨[], reports⟩
    else do
      let plan ← planOf p label d
      return ⟨[plan], reports⟩

/-- The report of a type that cannot be given further members. -/
def closedReport (d : TypeDecl) : Interning Diagnostic := do
  let id ← declared d.name
  let shown ← ask Ty.display id
  return .ofRule .typeNotPartial [shown] d.location

/-- **Planning methods one after the other.** -/
def planFrom (told : List DeclName) : List Method → Interning Outcome
  | [] => return ⟨[], []⟩
  | m :: ms =>
    match p.closedTypes m with
    | [] => do
      let first ← planMethod p label m
      let rest ← planFrom told ms
      return first.append rest
    | closed => do
      let fresh := closed.filter fun d => !told.contains d.name
      let reports ← each closedReport fresh
      let rest ← planFrom (told ++ fresh.map (·.name)) ms
      return Outcome.append ⟨[], reports⟩ rest

end Planner

/-- **One group.** -/
def runGroup (g : Graph) (known : WellKnown) (options : GeneratorOptions) (label : Ty → Nat)
    (space : Option String) (ms : List Method) : Interning GroupResult := do
  let outcome ← planFrom ⟨g, known, options.names⟩ label [] ms
  if hasErrors outcome.reports || outcome.plans.isEmpty then
    return ⟨space, outcome.plans, none, outcome.reports⟩
  else do
    let plans ← each readPlan outcome.plans
    return ⟨space, outcome.plans, some (BridgeEmitter.emit ⟨g, known, options.emit⟩ space plans),
      outcome.reports⟩

/-! ## What drafts and outcomes mean -/

/-- A draft and the same one over numbers. -/
structure DraftDenotes (i : Numbers) (d : LateBridge.Draft) (d' : Draft) : Prop where
  method : d'.method = d.method
  marks : d'.marks = d.marks
  erased : (Meaning.same.pair answer).list.Holds i d.erased d'.erased
  params : (answer.pair .same).list.Holds i d.params d'.params
  returns : answer.Holds i d.returns d'.returns
  state : state.Holds i d.state d'.state

/-- What drafts mean. -/
def drafted : Meaning LateBridge.Draft Draft where
  Holds := DraftDenotes
  mono h hij :=
    ⟨h.method, h.marks, Meaning.mono _ h.erased hij, Meaning.mono _ h.params hij,
      answer.mono h.returns hij, state.mono h.state hij⟩

/-- An outcome and the same one over numbers. -/
structure OutcomeDenotes (i : Numbers) (o : LateBridge.Outcome) (o' : Outcome) : Prop where
  plans : plan.list.Holds i o.plans o'.plans
  reports : o'.reports = o.reports

/-- What outcomes mean. -/
def outcome : Meaning LateBridge.Outcome Outcome where
  Holds := OutcomeDenotes
  mono h hij := ⟨Meaning.mono _ h.plans hij, h.reports⟩

/-- **A group and the same one over numbers**: everything that is delivered is the same, and the
plans mean the same. -/
structure GroupDenotes (i : Numbers) (r : LateBridge.GroupResult) (r' : GroupResult) : Prop where
  space : r'.space = r.space
  plans : plan.list.Holds i r.plans r'.plans
  artifact? : r'.artifact? = r.artifact?
  reports : r'.reports = r.reports

/-- What groups mean. -/
def group : Meaning LateBridge.GroupResult GroupResult where
  Holds := GroupDenotes
  mono h hij := ⟨h.space, Meaning.mono _ h.plans hij, h.artifact?, h.reports⟩

/-! ## Names and answers -/

section Reading

variable {i : Numbers} (hi : i.Grounded)

include hi

/-- **A declared type is numbered over its parameters.** -/
theorem gives_declared (n : DeclName) : (declared n).Gives .type n.declared i := by
  have hvars : (each (fun v => numberOf (.param v)) n.vars).Gives Meaning.type.list
      (n.vars.map Ty.var) i := gives_eachOf hi n.vars fun _ _ _ _ => gives_numberOf .var
  exact Gives.bind hi hvars fun j vars _ hvars => gives_numberOf (.named hvars)

theorem gives_readFailure {x : ErasureError} {x' : Failure} (h : FailureDenotes i x x') :
    (readFailure x').Gives .same x i := by
  cases h with
  | ambiguous h =>
    exact Gives.bind hi (gives_eachRead hi h gives_read) fun _ _ _ hts =>
      gives_pure (congrArg ErasureError.ambiguous hts)
  | unresolvable => exact gives_pure rfl
  | pointer h =>
    exact Gives.bind hi (gives_read hi h) fun _ _ _ ht => gives_pure (congrArg ErasureError.pointer ht)

/-- **Reading an answer gives what it means.** -/
theorem gives_readAnswer {a : Erasure.Answer} {a' : Answer} (h : answer.Holds i a a') :
    (readAnswer a').Gives .same a i := by
  cases h with
  | ok h => exact Gives.bind hi (gives_read hi h) fun _ _ _ ht => gives_pure (congrArg Except.ok ht)
  | error h =>
    exact Gives.bind hi (gives_readFailure hi h) fun _ _ _ hx => gives_pure (congrArg Except.error hx)

theorem gives_readFirst {x : Erasure.Answer × Bool} {x' : Answer × Bool}
    (h : (answer.pair .same).Holds i x x') : (readFirst x').Gives .same x i :=
  Gives.bind hi (gives_readAnswer hi h.1) fun _ _ _ ha => gives_pure (Prod.ext ha h.2)

theorem gives_readSecond {x : TypeVar × Erasure.Answer} {x' : TypeVar × Answer}
    (h : (Meaning.same.pair answer).Holds i x x') : (readSecond x').Gives .same x i :=
  Gives.bind hi (gives_readAnswer hi h.2) fun _ _ _ ha => gives_pure (Prod.ext h.1 ha)

end Reading

theorem denotes_typeOf {i : Numbers} {a : Erasure.Answer} {a' : Answer} (h : answer.Holds i a a') :
    i.Denotes (Planner.typeOf a) (typeOf a') := by
  cases h with
  | ok h => exact h
  | error => exact denotes_error i

/-! ## Drafts -/

section Planner

variable {p : Planner} {label : Ty → Nat} {i : Numbers} {m : Method} {marks : Marks}

/-- **What erasing in a method looks up is numbered**: given types are stored with the method. -/
theorem prepared_erasure (hl : Labels p.graph p.known label i) (hm : m ∈ p.graph.methods)
    (hmarks : p.names.read m = .ok (some marks)) : Prepared (p.erasure marks) label i where
  labels := hl
  given hv := by
    have hparams := (MarkerNames.readParams_of_read hmarks).1
    have hmem := MarkerNames.mem_storedTypes_of_readParams hparams (mem_of_lookup hv)
    refine hl.stored _ (Graph.mem_storedTypes_of_method hm ?_)
    rw [Method.storedTypes, List.append_assoc, List.append_assoc]
    exact List.mem_append_left _ hmem

section Labels

variable (hl : Labels p.graph p.known label i) (hm : m ∈ p.graph.methods)

include hl hm

theorem denotes_paramTypes : Meaning.type.list.Holds i (m.params.map (·.type)) (paramTypes label m) := by
  refine List.forall₂_map_left_iff.mpr (List.forall₂_map_right_iff.mpr ?_)
  refine List.forall₂_same.mpr fun q hq => hl.stored _ (Graph.mem_storedTypes_of_method hm ?_)
  simp only [Method.storedTypes, List.mem_append]
  exact .inl (.inl (.inr (List.mem_map_of_mem hq)))

theorem denotes_returns : i.Denotes m.returns (label m.returns) := by
  refine hl.stored _ (Graph.mem_storedTypes_of_method hm ?_)
  simp only [Method.storedTypes, List.mem_append]
  exact .inl (.inr (List.mem_singleton_self _))

theorem denotes_bounds {q : TypeParam} (hq : q ∈ m.typeParams) :
    Meaning.type.list.Holds i q.types (q.types.map label) := by
  refine List.forall₂_map_right_iff.mpr (List.forall₂_same.mpr fun t ht => ?_)
  refine hl.stored _ (Graph.mem_storedTypes_of_method hm ?_)
  simp only [Method.storedTypes, List.mem_append]
  exact .inl (.inl (.inl (List.mem_flatMap.mpr ⟨q, hq, List.mem_append_left _ ht⟩)))

end Labels

section Drafts

variable (he : Prepared (p.erasure marks) label i) (hm : m ∈ p.graph.methods)

include he hm

theorem gives_returned {s : Erasure.State} {s' : State} (hs : state.Holds i s s') :
    (returned p label m marks s').Gives (answer.pair state)
      (if m.returnsVoid then (.ok .void, s)
        else (p.erasure marks).simplifyReturn s m.returns m.flags.isAsync) i := by
  have hreturns := denotes_returns he.labels hm
  rw [returned, Method.returnsVoid]
  simp only [eq_iff hreturns (denotes_void i), beq_iff_eq]
  split
  · exact gives_pure ⟨.ok (denotes_void i), hs⟩
  · exact gives_simplifyReturn he hs hreturns _

/-- **A draft over numbers means the draft.** -/
theorem gives_draft : (draft p label m marks).Gives drafted (p.draft m marks) i := by
  rw [draft, Planner.draft]
  refine Gives.bind he.grounded (gives_eraseParams he (denotes_new i) _)
    fun j erased hij herased => ?_
  have hej := he.mono hij
  refine Gives.bind hej.grounded (gives_simplifyEach hej herased.2 (denotes_paramTypes hej.labels hm))
    fun k params hjk hparams => ?_
  have hek := hej.mono hjk
  refine Gives.bind hek.grounded
    (gives_askEach (p.erasure marks).needs hek.grounded (denotes_paramTypes hek.labels hm))
    fun l needs hkl hneeds => ?_
  obtain rfl : needs = _ := hneeds
  have hel := hek.mono hkl
  refine Gives.bind hel.grounded (gives_returned hel hm (state.mono hparams.2 hkl))
    fun q returns hlq hreturns => gives_pure ?_
  have herased := Meaning.mono _ herased.1 ((hjk.trans hkl).trans hlq)
  have hparams := list_zip (Meaning.mono _ hparams.1 (hkl.trans hlq))
    (Meaning.list_same_self ((m.params.map (·.type)).map (p.erasure marks).needs))
  rw [List.map_map] at hparams ⊢
  exact ⟨rfl, rfl, list_zip (Meaning.list_same_self _) herased, hparams, hreturns.1, hreturns.2⟩

end Drafts

/-- **The reports on a draft over numbers are those on the draft.** -/
theorem gives_reports (hi : i.Grounded) {d : LateBridge.Draft} {d' : Draft}
    (hd : drafted.Holds i d d') : (reports p d').Gives .same (p.reports d) i := by
  obtain ⟨method, marks, erased', params', returns', s'⟩ := d'
  obtain ⟨rfl, rfl, herased, hparams, hreturns, -⟩ := hd
  refine Gives.bind hi (gives_eachRead hi herased fun hj h => gives_readSecond hj h)
    fun j erased hij herased => ?_
  refine Gives.bind hij.grounded (gives_eachRead hij.grounded (Meaning.mono _ hparams hij)
    fun hj h => gives_readFirst hj h) fun k params hjk hparams => ?_
  refine Gives.bind hjk.grounded (gives_readAnswer hjk.grounded
    (answer.mono hreturns (hij.trans hjk))) fun l returns _ hreturns => gives_pure ?_
  obtain rfl : erased = d.erased := herased
  obtain rfl : params = d.params := hparams
  obtain rfl : returns = d.returns := hreturns
  rfl

theorem gives_inferable (hl : Labels p.graph p.known label i) (hm : m ∈ p.graph.methods)
    (marks : Marks) : (inferable p label m marks).Gives .same (p.inferable m marks) i := by
  have hread := gives_eachRead hl.grounded (denotes_paramTypes hl hm) gives_read
  exact Gives.bind hl.grounded hread fun j types _ htypes =>
    gives_pure (congrArg (List.foldl (p.erasure marks).collect []) htypes)

/-! ## Wrappers -/

theorem some_eq_map_iff {t : Ty} {id : Nat} {o : Option Ty} (h : i.Denotes t id)
    (ho : ∀ u ∈ o, i.Denotes u (label u)) : some id = o.map label ↔ some t = o := by
  cases o with
  | none => simp
  | some u => simpa using eq_iff h (ho u rfl)

theorem gives_asyncShape (hl : Labels p.graph p.known label i) {t : Ty} {id : Nat}
    (h : i.Denotes t id) (isAsync : Bool) :
    (asyncShape p label id isAsync).Gives shape (p.asyncShape t isAsync) i := by
  have htask : ∀ u ∈ p.known.task?, i.Denotes u (label u) := fun u hu =>
    hl.standIns u (by simp [WellKnown.standIns, Option.mem_def.mp hu])
  have hvalueTask : ∀ u ∈ p.known.valueTask?, i.Denotes u (label u) := fun u hu =>
    hl.standIns u (by simp [WellKnown.standIns, Option.mem_def.mp hu])
  unfold asyncShape Planner.asyncShape
  simp only [eq_iff h (denotes_void i), some_eq_map_iff h htask, some_eq_map_iff h hvalueTask,
    WellKnown.isPlainAwaitable, Bool.or_eq_true, beq_iff_eq]
  split
  · exact gives_pure (.mk .none)
  split
  · exact gives_pure (.mk (.some h))
  split
  · exact gives_pure (.mk .none)
  refine Gives.shapeOf_bind hl.grounded h fun j shape hij hspells _ => ?_
  have hother : ShapeDenotes j ⟨false, some t⟩ ⟨false, some id⟩ := .mk (.some (h.mono hij))
  cases hspells with
  | named hargs =>
    cases hargs with
    | nil => exact gives_pure hother
    | cons hvalue hmore =>
      cases hmore with
      | nil =>
        dsimp only
        split
        · exact gives_pure (.mk (.some hvalue))
        · exact gives_pure hother
      | cons => exact gives_pure hother
  | array | var | pointer | fnptr | void | dynamic | error => exact gives_pure hother

/-- A stored parameter, whose type is numbered. -/
def slot (label : Ty → Nat) : Meaning Param Param where
  Holds i q q' := q' = q ∧ i.Denotes q.type (label q.type)
  mono h hij := ⟨h.1, h.2.mono hij⟩

theorem denotes_slots (hl : Labels p.graph p.known label i) (hm : m ∈ p.graph.methods) :
    (slot label).list.Holds i m.params m.params := by
  have htypes := List.forall₂_map_left_iff.mp
    (List.forall₂_map_right_iff.mp (denotes_paramTypes hl hm))
  exact List.forall₂_same.mpr fun q hq => ⟨rfl, List.forall₂_same.mp htypes q hq⟩

theorem denotes_freshParam {q q' : Param} {a : Erasure.Answer} {a' : Answer} (needs : Bool)
    (hq : (slot label).Holds i q q') (ha : answer.Holds i a a') :
    param.Holds i (Planner.freshParam q a needs) (freshParam label q' a' needs) := by
  obtain ⟨rfl, hq⟩ := hq
  exact .mk (denotes_typeOf ha) hq

/-- The same bounds are usable. -/
theorem denotes_usableBounds (hl : Labels p.graph p.known label i) {as : List Erasure.Answer}
    {as' : List Answer} (h : answer.list.Holds i as as') :
    Meaning.type.list.Holds i (as.filterMap fun
      | .ok t => if t != p.known.object && t != p.known.valueType then some t else none
      | .error _ => none) (as'.filterMap (usableBound? p label)) := by
  have hobject := hl.standIns p.known.object (by simp [WellKnown.standIns])
  have hvalueType := hl.standIns p.known.valueType (by simp [WellKnown.standIns])
  refine List.rel_filterMap (fun a a' ha => ?_) h
  cases ha with
  | error => exact .none
  | @ok t id h =>
    rw [usableBound?]
    simp only [eq_iff h hobject, eq_iff h hvalueType]
    by_cases hroot : t = p.known.object ∨ t = p.known.valueType
    · rw [if_pos hroot, if_neg (by simpa [Classical.or_iff_not_imp_left] using hroot)]
      exact .none
    · rw [if_neg hroot, if_pos (by simpa [not_or] using hroot)]
      exact .some h

section Fresh

variable {d : LateBridge.Draft} {d' : Draft}

theorem gives_freshClause (he : Prepared (p.erasure marks) label i) {s : Erasure.State} {s' : State}
    (hs : state.Holds i s s') (v : TypeVar) :
    (freshClause p label marks s' v).Gives (clause.pair state) (p.freshClause marks s v) i := by
  refine Gives.bind he.grounded (gives_simplifyEach he hs (he.constraintTypes v))
    fun j answers hij hanswers => gives_pure ?_
  exact ⟨.mk (denotes_usableBounds (he.mono hij).labels hanswers.1), hanswers.2⟩

theorem gives_freshClauses (he : Prepared (p.erasure marks) label i) {s : Erasure.State}
    {s' : State} (hs : state.Holds i s s') (vs : List TypeVar) :
    (eachWith (freshClause p label marks) s' vs).Gives (clause.list.pair state)
      (threaded (p.freshClause marks) s vs) i :=
  gives_eachWithOf he.grounded vs hs fun _ _ _ hij hxy v _ => gives_freshClause (he.mono hij) hxy v

/-- **A wrapper over numbers means the wrapper.** -/
theorem gives_freshWrapper (he : Prepared (p.erasure d.marks) label i)
    (hm : d.method ∈ p.graph.methods) (hd : drafted.Holds i d d') :
    (freshWrapper p label d').Gives wrapper (p.freshWrapper d) i := by
  obtain ⟨method, marks, erased', params', returns', s'⟩ := d'
  obtain ⟨rfl, rfl, -, hparams, hreturns, hs⟩ := hd
  refine Gives.bind he.grounded (gives_freshClauses he hs _)
    fun j constraints hij hconstraints => gives_pure ?_
  have hslots := list_zip (denotes_slots (he.mono hij).labels hm) (Meaning.mono _ hparams hij)
  refine .mk (denotes_typeOf (answer.mono hreturns hij)) hconstraints.1
    (List.rel_map (fun x x' hx => ?_) hslots)
  obtain ⟨hq, ha, hneeds⟩ := hx
  rw [show x'.2.2 = x.2.2 from hneeds]
  exact denotes_freshParam x.2.2 hq ha

end Fresh

/-- A definition is a method of the graph. -/
theorem mem_methods_of_definitions {definition : Method}
    (h : definition ∈ p.definitions m marks) : definition ∈ p.graph.methods := by
  obtain ⟨⟨d, hd, hmem⟩, -⟩ := Planner.mem_definitions h
  exact List.mem_flatMap.mpr ⟨d, Graph.mem_decls_of_find? hd, hmem⟩

section Plans

variable {d : LateBridge.Draft} {d' : Draft} (hl : Labels p.graph p.known label i)
  (hm : d.method ∈ p.graph.methods) (hd : drafted.Holds i d d')

include hl hm hd

theorem denotes_definedWrapper {definition : Method} (hdefinition : definition ∈ p.graph.methods) :
    wrapper.Holds i (Planner.definedWrapper d definition) (definedWrapper label d' definition) := by
  obtain ⟨method, marks, erased', params', returns', s'⟩ := d'
  obtain ⟨rfl, -, -, hparams, -, -⟩ := hd
  have hslots := list_zip (denotes_slots hl hdefinition) (list_zip (denotes_slots hl hm) hparams)
  refine .mk (denotes_returns hl hdefinition) ?_ (List.rel_map (fun x x' hx => ?_) hslots)
  · refine List.forall₂_map_left_iff.mpr (List.forall₂_map_right_iff.mpr ?_)
    exact List.forall₂_same.mpr fun q hq => .mk (denotes_bounds hl hdefinition hq)
  · obtain ⟨⟨hq, hq'⟩, ⟨ht, ht'⟩, -, hneeds⟩ := hx
    rw [hq, ht, show x'.2.2.2 = x.2.2.2 from hneeds]
    exact .mk hq' ht'

/-- The plan with a wrapper. -/
theorem gives_planWith {w : LateBridge.Wrapper} {w' : Wrapper} (hw : wrapper.Holds i w w')
    (isAsync : Bool) (definition? : Option MethodId) :
    (planWith p label d' w' isAsync definition?).Gives plan
      { p.planOf d with
        wrapper := w, shape := p.asyncShape w.returns isAsync, definition? } i := by
  obtain ⟨method, marks, erased', params', returns', s'⟩ := d'
  obtain ⟨rfl, rfl, herased, -, -, -⟩ := hd
  have hreturns : i.Denotes w.returns w'.returns := by
    obtain ⟨hreturns, -, -⟩ := hw
    exact hreturns
  refine Gives.bind hl.grounded (gives_asyncShape hl hreturns isAsync)
    fun j s hij hshape => ?_
  refine Gives.bind hij.grounded (gives_inferable (hl.mono hij) hm d.marks)
    fun k inferable hjk hinferable => gives_pure ?_
  obtain rfl : inferable = p.inferable d.method d.marks := hinferable
  refine .mk (List.rel_filterMap (fun x x' hx => ?_) (Meaning.mono _ herased (hij.trans hjk)))
    (wrapper.mono hw (hij.trans hjk)) (shape.mono hshape hjk)
  obtain ⟨v, a⟩ := x
  obtain ⟨v', a'⟩ := x'
  obtain ⟨rfl, ha⟩ := hx
  cases ha with
  | ok h => exact .some ⟨rfl, h⟩
  | error => exact .none

/-- **A plan over numbers means the plan.** -/
theorem gives_planOf (he : Prepared (p.erasure d.marks) label i) :
    (planOf p label d').Gives plan (p.planOf d) i := by
  have hfresh (hplan : p.planOf d = { p.planOf d with
      wrapper := p.freshWrapper d, definition? := none
      shape := p.asyncShape (p.freshWrapper d).returns d.method.flags.isAsync }) :
      (do let w ← freshWrapper p label d'
          planWith p label d' w d.method.flags.isAsync none).Gives plan (p.planOf d) i := by
    refine Gives.bind hl.grounded (gives_freshWrapper he hm hd) fun j w hij hw => ?_
    rw [hplan]
    exact gives_planWith (hl.mono hij) hm (drafted.mono hd hij) hw _ _
  rw [planOf]
  simp only [show d'.method = d.method from hd.method, show d'.marks = d.marks from hd.marks]
  rcases hdefinitions : p.definitions d.method d.marks with _ | ⟨definition, _ | ⟨other, rest⟩⟩
  · exact hfresh (by simp only [Planner.planOf, hdefinitions])
  · have hplan : p.planOf d = { p.planOf d with
        wrapper := Planner.definedWrapper d definition, definition? := some definition.id
        shape := p.asyncShape (Planner.definedWrapper d definition).returns
          (d.method.flags.isAsync || definition.flags.isAsync) } := by
      simp only [Planner.planOf, hdefinitions]
    have hdefinition : definition ∈ p.graph.methods :=
      mem_methods_of_definitions (hdefinitions ▸ List.mem_singleton_self definition)
    rw [hplan]
    exact gives_planWith hl hm hd (denotes_definedWrapper hl hm hd hdefinition) _ _
  · exact hfresh (by simp only [Planner.planOf, hdefinitions])

end Plans

/-! ## Groups -/

theorem denotes_append {o o₂ : LateBridge.Outcome} {o' o₂' : Outcome} (h : outcome.Holds i o o')
    (h₂ : outcome.Holds i o₂ o₂') : outcome.Holds i (o.append o₂) (o'.append o₂') :=
  ⟨List.rel_append h.plans h₂.plans, congrArg₂ (· ++ ·) h.reports h₂.reports⟩

section Groups

variable (hl : Labels p.graph p.known label i)

include hl

/-- **Planning a method over numbers plans it.** -/
theorem gives_planMethod (hm : m ∈ p.graph.methods) :
    (planMethod p label m).Gives outcome (p.planMethod m) i := by
  have hdeclared := gives_declared hl.grounded m.declaring
  rw [planMethod]
  rcases hread : p.names.read m with d | _ | marks
  · have hplanned : p.planMethod m = ⟨[], [d]⟩ := by simp only [Planner.planMethod, hread]
    rw [hplanned]
    exact Gives.bind hl.grounded hdeclared fun _ _ _ _ => gives_pure ⟨.nil, rfl⟩
  · have hplanned : p.planMethod m = ⟨[], []⟩ := by simp only [Planner.planMethod, hread]
    rw [hplanned]
    exact gives_pure ⟨.nil, rfl⟩
  · have hplanned : p.planMethod m =
        ⟨if hasErrors (p.reports (p.draft m marks)) then [] else [p.planOf (p.draft m marks)],
          p.reports (p.draft m marks)⟩ := by
      simp only [Planner.planMethod, hread]
    have he := prepared_erasure hl hm hread
    have hdraft := gives_draft he hm
    have hmethod : (p.draft m marks).method ∈ p.graph.methods := hm
    have hmarks : Prepared (p.erasure (p.draft m marks).marks) label i := he
    rw [hplanned]
    generalize p.draft m marks = drawn at hdraft hmethod hmarks ⊢
    refine Gives.bind hl.grounded hdeclared fun j _ hij _ => ?_
    refine Gives.bind hij.grounded (hdraft.extend hij) fun k d hjk hd => ?_
    refine Gives.bind hjk.grounded (gives_reports hjk.grounded hd) fun l reports hkl hreports => ?_
    obtain rfl : reports = p.reports drawn := hreports
    cases hasErrors (p.reports drawn) with
    | true => exact gives_pure ⟨.nil, rfl⟩
    | false =>
      have hmarks := ((hmarks.mono hij).mono hjk).mono hkl
      exact Gives.bind hmarks.grounded
        (gives_planOf hmarks.labels hmethod (drafted.mono hd hkl) hmarks)
        fun q plan _ hplan => gives_pure ⟨.cons hplan .nil, rfl⟩

theorem gives_closedReport (d : TypeDecl) :
    (closedReport d).Gives .same (Planner.closedReport d) i := by
  refine Gives.bind hl.grounded (gives_declared hl.grounded d.name) fun j id hij hid => ?_
  refine Gives.bind hij.grounded (gives_ask Ty.display hij.grounded hid)
    fun k shown _ hshown => gives_pure ?_
  obtain rfl : shown = d.name.declared.display := hshown
  rfl

theorem gives_closedReports (ds : List TypeDecl) :
    (each closedReport ds).Gives .same (ds.map Planner.closedReport) i :=
  (gives_eachOf hl.grounded ds fun _ hij d _ => gives_closedReport (hl.mono hij) d).imp
    fun _ _ h => Meaning.list_same h

/-- **Planning methods over numbers plans them.** -/
theorem gives_planFrom {ms : List Method} (hms : ∀ m ∈ ms, m ∈ p.graph.methods)
    (told : List DeclName) : (planFrom p label told ms).Gives outcome (p.planFrom told ms) i := by
  induction ms generalizing i told with
  | nil => exact gives_pure ⟨.nil, rfl⟩
  | cons m ms ih =>
    obtain ⟨hm, hms⟩ := List.forall_mem_cons.mp hms
    rw [planFrom, Planner.planFrom]
    cases p.closedTypes m with
    | nil =>
      refine Gives.bind hl.grounded (gives_planMethod hl hm) fun j first hij hfirst => ?_
      refine Gives.bind hij.grounded (ih (hl.mono hij) hms told) fun k rest hjk hrest => gives_pure ?_
      exact denotes_append (outcome.mono hfirst hjk) hrest
    | cons d closed =>
      refine Gives.bind hl.grounded (gives_closedReports hl _) fun j reports hij hreports => ?_
      refine Gives.bind hij.grounded (ih (hl.mono hij) hms _) fun k rest _ hrest => gives_pure ?_
      exact denotes_append ⟨.nil, hreports⟩ hrest

end Groups

end Planner

/-- **A group over numbers means the group**, whatever else is numbered. -/
theorem gives_runGroup {g : Graph} {known : WellKnown} {label : Ty → Nat} {i : Numbers}
    (hl : Labels g known label i) (options : GeneratorOptions) (space : Option String)
    {ms : List Method} (hms : ∀ m ∈ ms, m ∈ g.methods) :
    (runGroup g known options label space ms).Gives group
      (LateBridge.runGroup g known options space ms) i := by
  have hplan := gives_planFrom (p := ⟨g, known, options.names⟩) hl hms []
  rw [runGroup, LateBridge.runGroup, Planner.planGroup]
  refine Gives.bind hl.grounded hplan fun j o hij ho => ?_
  generalize Planner.planFrom ⟨g, known, options.names⟩ [] ms = o' at ho
  obtain ⟨hplans, hreports⟩ := ho
  have hempty : o.plans.isEmpty = o'.plans.isEmpty := by
    rw [Bool.eq_iff_iff, List.isEmpty_iff_length_eq_zero, List.isEmpty_iff_length_eq_zero,
      List.Forall₂.length_eq hplans]
  simp only [hreports, hempty]
  split
  · exact gives_pure ⟨rfl, hplans, rfl, rfl⟩
  · refine Gives.bind hij.grounded (gives_eachRead hij.grounded hplans fun hj h => gives_readPlan hj h)
      fun k plans hjk hread => gives_pure ?_
    obtain rfl : plans = o'.plans := hread
    exact ⟨rfl, Meaning.mono _ hplans hjk, rfl, rfl⟩

end Numbered

end LateBridge
