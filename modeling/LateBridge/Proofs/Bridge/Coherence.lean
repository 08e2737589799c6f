import LateBridge.Proofs.Bridge.Signatures
import LateBridge.Proofs.Dispatch.Inference
import LateBridge.Proofs.Document.Determined

/-!
# Proofs/Bridge/Coherence — the parts of a plan fit together

    marks ──erase each──▸ erasures        ┐
    parameter types ──erase, look for marks──▸ wrapper    ├ one erasure state, no error reported
    return type ──erase──▸ wrapper        ┘

The parts of a plan are computed one by one, and every check reports on its own part.  A plan is
made only without errors, and then the parts agree (`plan_coherent`): one erasure for each marked
parameter, one wrapper parameter for each parameter, and late-bound exactly those whose types
mention a marked one.  A parameter declared as a marked type parameter has that parameter's erasure
because an answer once given is given again (`Erasure.Answered`).
-/

namespace LateBridge

namespace MarkerNames

variable (names : MarkerNames)

/-- Whether a type parameter carries the marker. -/
def marks (p : TypeParam) : Bool := (names.paramMarker? p).isSome

/-- **The marked type parameters of a method**, in declaration order. -/
def markedVars (m : Method) : List TypeVar := (m.typeParams.filter names.marks).map (·.var)

/-- The other ones. -/
def unmarkedVars (m : Method) : List TypeVar := (m.typeParams.filter (!names.marks ·)).map (·.var)

end MarkerNames

/-! ## What a plan should be -/

/-- **A coherent plan.**  The last three parts are about a wrapper of its own; one that implements a
definition has the definition's types. -/
structure BridgePlan.Coherent (names : MarkerNames) (plan : BridgePlan) : Prop where
  /-- The marked parameters have erasures, in order. -/
  erasures : plan.erasures.map (·.1) = names.markedVars plan.method
  /-- The other ones stay, in order. -/
  retained : plan.retained = names.unmarkedVars plan.method
  determined : ∀ x ∈ plan.erasures, x.2 ≠ .error
  inferable : ∀ v, v ∈ plan.inferable ↔ v ∈ names.markedVars plan.method
  target : plan.target ≠ plan.wrapper.name
  /-- There is one parameter for each of the method's, and it knows the type of that one. -/
  params : plan.wrapper.params.map (·.target) = plan.method.params.map (·.type)
  dynamic : ∀ q ∈ plan.wrapper.params,
    q.isDynamic = true ↔ ∃ v ∈ q.target.vars, v ∈ names.markedVars plan.method
  someDynamic : ∃ q ∈ plan.wrapper.params, q.isDynamic = true
  unchanged : plan.definition? = none →
    ∀ q ∈ plan.wrapper.params, q.isDynamic = false → q.type = q.target
  erasedParam : plan.definition? = none → ∀ q ∈ plan.wrapper.params,
    ∀ v ∈ names.markedVars plan.method, q.target = .var v → plan.erasures.lookup v = some q.type
  erasedReturn : plan.definition? = none → ∀ v ∈ names.markedVars plan.method,
    plan.method.returns = .var v → plan.erasures.lookup v = some plan.wrapper.returns

/-! ## Marks -/

namespace MarkerNames

variable {names : MarkerNames} {m : Method} {ps : List TypeParam}
  {marked : List (TypeVar × Option Ty)}

theorem map_fst_of_readParams (h : names.readParams m ps = .ok marked) :
    marked.map (·.1) = (ps.filter names.marks).map (·.var) := by
  induction ps generalizing marked with
  | nil =>
    cases h
    rfl
  | cons p ps ih =>
    rw [readParams] at h
    split at h
    · rename_i hmarker
      rw [List.filter_cons_of_neg (by simp [marks, hmarker])]
      exact ih h
    rename_i hmarker
    split at h
    · cases h
    split at h
    · rename_i hrest
      cases h
      rw [List.filter_cons_of_pos (by simp [marks, hmarker]), List.map_cons, List.map_cons, ih hrest]
    · cases h

/-- A given type is never the undetermined one. -/
theorem ne_error_of_readParams (h : names.readParams m ps = .ok marked) {v : TypeVar} {t : Ty}
    (ht : (v, some t) ∈ marked) : t ≠ .error := by
  induction ps generalizing marked with
  | nil =>
    cases h
    cases ht
  | cons p ps ih =>
    rw [readParams] at h
    split at h
    · exact ih h ht
    split at h
    · cases h
    rename_i given hgiven
    split at h
    · rename_i hrest
      cases h
      obtain hhead | htail := List.mem_cons.mp ht
      · cases hhead
        rintro rfl
        unfold givenType? at hgiven
        split at hgiven <;> simp_all
      · exact ih hrest htail
    · cases h

end MarkerNames

theorem Marks.isMarked_iff {marks : Marks} {v : TypeVar} :
    marks.isMarked v = true ↔ v ∈ marks.marked.map (·.1) := by
  simp [isMarked]

/-! ## Answers that are given again -/

namespace Erasure

variable {e : Erasure} {s s' : State} {v : TypeVar} {a b : Answer}

/-- **An answer for a parameter that is settled**: it is given or remembered. -/
def Answered (e : Erasure) (s : State) (v : TypeVar) (a : Answer) : Prop :=
  (∃ t, e.given? v = some t ∧ a = .ok t) ∨ (e.given? v = none ∧ s.erased.lookup v = some a)

theorem Answered.mono (h : e.Answered s v a) (hs : s.Keeps s') : e.Answered s' v a :=
  h.imp_right fun ⟨hgiven, hlookup⟩ => ⟨hgiven, hs.erased v a hlookup⟩

/-- With nothing under way an answer is settled once it is given. -/
theorem Runs.answered (h : e.Runs s [.param v] [a] s') (hs : s.visiting = []) :
    e.Answered s' v a := by
  cases h with
  | given hgiven hrest =>
    cases hrest
    exact .inl ⟨_, hgiven, rfl⟩
  | remembered hgiven hlookup hrest =>
    cases hrest
    exact .inr ⟨hgiven, hlookup⟩
  | underWay _ _ hvisiting _ => simp [hs] at hvisiting
  | computed hgiven _ _ _ hrest =>
    cases hrest
    exact .inr ⟨hgiven, State.lookup_pop_self _ _ _⟩

/-- **A settled answer is given again.** -/
theorem Answered.unique (h : e.Answered s v a) (hrun : e.Runs s [.param v] [b] s') : b = a := by
  obtain ⟨t, hgiven, rfl⟩ | ⟨hgiven, hlookup⟩ := h
  · cases hrun <;> simp_all
  · cases hrun <;> simp_all

/-- Parameters erased one after the other are settled at the end. -/
theorem answered_threaded (vs : List TypeVar) (hs : s.visiting = []) :
    List.Forall₂ (e.Answered (threaded e.eraseParam s vs).2) vs (threaded e.eraseParam s vs).1 ∧
      s.Keeps (threaded e.eraseParam s vs).2 := by
  induction vs generalizing s with
  | nil => exact ⟨.nil, Runs.nil.keeps (e := e)⟩
  | cons v vs ih =>
    have hrun := runs_eraseParam (e := e) s v
    have hkeeps := hrun.keeps
    obtain ⟨hall, hkeeps'⟩ := ih (hkeeps.visiting.trans hs)
    exact ⟨.cons ((hrun.answered hs).mono hkeeps') hall,
      ⟨hkeeps'.visiting.trans hkeeps.visiting, fun w b hw => hkeeps'.erased w b (hkeeps.erased w b hw),
        fun w hw => by simp [hs] at hw⟩⟩

/-- **The parameters erased so far are settled**, and nothing is under way. -/
structure State.Settles (e : Erasure) (s : State) (erased : List (TypeVar × Answer)) : Prop where
  idle : s.visiting = []
  answered : ∀ x ∈ erased, e.Answered s x.1 x.2

theorem State.Settles.keeps {erased : List (TypeVar × Answer)} (h : s.Settles e erased)
    (hs : s.Keeps s') : s'.Settles e erased :=
  ⟨hs.visiting.trans h.idle, fun x hx => (h.answered x hx).mono hs⟩

/-- A settled parameter is erased to what was settled. -/
theorem State.Settles.simplify_var {erased : List (TypeVar × Answer)} (h : s.Settles e erased)
    (hv : e.isMarked v = true) (ha : (v, a) ∈ erased) : (e.simplify s (.var v)).1 = a := by
  have hrun := runs_simplify (e := e) s (.var v)
  rw [taskOf, if_pos hv] at hrun
  exact (h.answered _ ha).unique hrun

theorem State.Settles.simplify {erased : List (TypeVar × Answer)} (h : s.Settles e erased)
    (t : Ty) : (e.simplify s t).2.Settles e erased :=
  h.keeps (runs_simplify (e := e) s t).keeps

theorem State.Settles.simplifyReturn {erased : List (TypeVar × Answer)} (h : s.Settles e erased)
    (t : Ty) (isAsync : Bool) : (e.simplifyReturn s t isAsync).2.Settles e erased := by
  rw [Erasure.simplifyReturn]
  split
  · split
    · exact h
    · exact h.simplify t
  · exact h.simplify t

/-- **Types are erased one after the other** where the marked parameters are settled, and leave them
settled. -/
theorem State.Settles.threaded_simplify {erased : List (TypeVar × Answer)} (h : s.Settles e erased)
    (ts : List Ty) : List.Forall₂ (fun t a => ∃ s : State, s.Settles e erased ∧
      a = (e.simplify s t).1) ts (threaded e.simplify s ts).1 ∧
      (threaded e.simplify s ts).2.Settles e erased :=
  threaded_forall₂ ts (I := (·.Settles e erased))
    (R := fun t a => ∃ s : State, s.Settles e erased ∧ a = (e.simplify s t).1)
    (fun t _ _ hs => ⟨⟨_, hs, rfl⟩, hs.simplify t⟩) h

/-! ## Types within the depth limit -/

theorem needsAtList_eq_true {depth : Nat} {ts : List Ty} (h : e.needsAtList depth ts = true) :
    ∃ t ∈ ts, e.needsAt depth t = true := by
  by_contra hnone
  push Not at hnone
  induction ts with
  | nil => cases h
  | cons t ts ih =>
    obtain ⟨ht, hts⟩ := List.forall_mem_cons.mp hnone
    obtain h | h := Bool.or_eq_true_iff.mp h
    · exact ht h
    · exact ih h hts

theorem tooDeepAtList_eq_false {depth : Nat} {ts : List Ty} (h : tooDeepAtList depth ts = false) :
    ∀ t ∈ ts, tooDeepAt depth t = false := by
  induction ts with
  | nil => exact List.forall_mem_nil _
  | cons t ts ih =>
    obtain ⟨ht, hts⟩ := Bool.or_eq_false_iff.mp h
    exact List.forall_mem_cons.mpr ⟨ht, ih hts⟩

/-- **A type within the limit that has to be erased mentions a marked parameter.** -/
theorem exists_isMarked_of_needsAt {depth : Nat} {t : Ty} (h : e.needsAt depth t = true)
    (hdeep : tooDeepAt depth t = false) : ∃ v ∈ t.vars, e.isMarked v = true := by
  induction t using Ty.induct generalizing depth with
  | named n args ih =>
    obtain ⟨hdepth, hargs⟩ := Bool.or_eq_false_iff.mp hdeep
    rw [needsAt, hdepth, Bool.false_or] at h
    obtain ⟨a, ha, hneeds⟩ := needsAtList_eq_true h
    obtain ⟨v, hv, hmarked⟩ := ih a ha hneeds (tooDeepAtList_eq_false hargs a ha)
    exact ⟨v, Ty.mem_vars_named.mpr ⟨a, ha, hv⟩, hmarked⟩
  | array element rank ih =>
    obtain ⟨hdepth, helement⟩ := Bool.or_eq_false_iff.mp hdeep
    rw [needsAt, hdepth, Bool.false_or] at h
    obtain ⟨v, hv, hmarked⟩ := ih h helement
    exact ⟨v, Ty.mem_vars_array.mpr hv, hmarked⟩
  | var w =>
    have hdepth : decide (depth > maxNesting) = false := hdeep
    rw [needsAt, hdepth, Bool.false_or] at h
    exact ⟨w, Ty.mem_vars_var.mpr rfl, h⟩
  | pointer target ih =>
    obtain ⟨hdepth, htarget⟩ := Bool.or_eq_false_iff.mp hdeep
    rw [needsAt, hdepth, Bool.false_or] at h
    obtain ⟨v, hv, hmarked⟩ := ih h htarget
    exact ⟨v, Ty.mem_vars_pointer.mpr hv, hmarked⟩
  | fnptr params ret ihp ihr =>
    obtain ⟨hdeep, hret⟩ := Bool.or_eq_false_iff.mp hdeep
    obtain ⟨hdepth, hparams⟩ := Bool.or_eq_false_iff.mp hdeep
    rw [needsAt, hdepth, Bool.false_or] at h
    obtain h | h := Bool.or_eq_true_iff.mp h
    · obtain ⟨q, hq, hneeds⟩ := needsAtList_eq_true h
      obtain ⟨v, hv, hmarked⟩ := ihp q hq hneeds (tooDeepAtList_eq_false hparams q hq)
      exact ⟨v, Ty.mem_vars_fnptr.mpr (.inl ⟨q, hq, hv⟩), hmarked⟩
    · obtain ⟨v, hv, hmarked⟩ := ihr h hret
      exact ⟨v, Ty.mem_vars_fnptr.mpr (.inr hv), hmarked⟩
  | void | dynamic | error => exact absurd (h.symm.trans hdeep) (by decide)

/-- A type that has to be erased and can be is within the limit. -/
theorem tooDeep_of_simplify {t u : Ty} (h : (e.simplify s t).1 = .ok u) (hneeds : e.needs t = true) :
    tooDeep t = false := by
  by_contra hdeep
  have hdeep : tooDeep t = true := Bool.not_eq_false _ ▸ hdeep
  simp [simplify, simplifyBy, hneeds, hdeep] at h

/-- **A type that can be erased has to be exactly if it mentions a marked parameter.** -/
theorem needs_iff_of_simplify {t u : Ty} (h : (e.simplify s t).1 = .ok u) :
    e.needs t = true ↔ ∃ v ∈ t.vars, e.isMarked v = true := by
  constructor
  · exact fun hneeds => exists_isMarked_of_needsAt hneeds (tooDeep_of_simplify h hneeds)
  · rintro ⟨v, hv, hmarked⟩
    by_contra hneeds
    exact absurd (hmarked.symm.trans (isMarked_of_needsAt (Bool.not_eq_true _ ▸ hneeds) hv))
      (by decide)

/-- The marked parameters collected from several types. -/
theorem mem_collect {found : List TypeVar} {t : Ty} :
    v ∈ e.collect found t ↔ v ∈ found ∨ v ∈ t.vars ∧ e.isMarked v = true := by
  have hfold : ∀ (vs found : List TypeVar), v ∈ vs.foldl addNew found ↔ v ∈ found ∨ v ∈ vs := by
    intro vs
    induction vs with
    | nil => simp
    | cons w vs ih =>
      intro found
      rw [List.foldl_cons, ih, mem_addNew, List.mem_cons, or_assoc]
  rw [collect, hfold, List.mem_filter]

theorem mem_foldl_collect {found : List TypeVar} {ts : List Ty} :
    v ∈ ts.foldl e.collect found ↔ v ∈ found ∨ ∃ t ∈ ts, v ∈ t.vars ∧ e.isMarked v = true := by
  induction ts generalizing found with
  | nil => simp
  | cons t ts ih => rw [List.foldl_cons, ih, mem_collect, List.exists_mem_cons_iff, or_assoc]

end Erasure

namespace Planner

variable {p : Planner} {m : Method} {marks : Marks}

/-! ## Drafts -/

/-- A draft starts with the marked parameters. -/
theorem erased_settles (m : Method) (marks : Marks) :
    (threaded (p.erasure marks).eraseParam {} (marks.marked.map (·.1))).2.Settles
      (p.erasure marks) (p.draft m marks).erased := by
  obtain ⟨hall, hkeeps⟩ := Erasure.answered_threaded (e := p.erasure marks) (s := {})
    (marks.marked.map (·.1)) rfl
  exact ⟨hkeeps.visiting, fun x hx => (List.forall₂_iff_zip.mp hall).2 hx⟩

/-- **The parts of a draft share one state**: each parameter type is erased where the marked
parameters are settled, and so is the return type. -/
theorem draft_settles (m : Method) (marks : Marks) :
    List.Forall₂ (fun (q : Param) x =>
        (∃ s : Erasure.State, s.Settles (p.erasure marks) (p.draft m marks).erased ∧
          x.1 = ((p.erasure marks).simplify s q.type).1) ∧ x.2 = (p.erasure marks).needs q.type)
      m.params (p.draft m marks).params ∧
    (m.returnsVoid = false →
      ∃ s : Erasure.State, s.Settles (p.erasure marks) (p.draft m marks).erased ∧
        (p.draft m marks).returns =
          ((p.erasure marks).simplifyReturn s m.returns m.flags.isAsync).1) := by
  obtain ⟨hparams, hsettles⟩ := (erased_settles m marks).threaded_simplify (m.params.map (·.type))
  refine ⟨forall₂_zip_map hparams, fun hvoid => ⟨_, hsettles, ?_⟩⟩
  simp only [draft, hvoid, Bool.false_eq_true, if_false]

/-- **A draft ends where the marked parameters are settled.** -/
theorem state_settles (m : Method) (marks : Marks) :
    (p.draft m marks).state.Settles (p.erasure marks) (p.draft m marks).erased := by
  obtain ⟨-, hsettles⟩ := (erased_settles m marks).threaded_simplify (m.params.map (·.type))
  show (ite _ _ _ : Erasure.Answer × Erasure.State).2.Settles _ _
  split
  · exact hsettles
  · exact hsettles.simplifyReturn _ _

theorem map_fst_erased (m : Method) (marks : Marks) :
    (p.draft m marks).erased.map (·.1) = marks.marked.map (·.1) := by
  refine List.map_fst_zip ?_
  have hall := (Erasure.answered_threaded (e := p.erasure marks) (s := {})
    (marks.marked.map (·.1)) rfl).1
  exact Nat.le_of_eq hall.length_eq

/-- A marked parameter is inferable if it is in the type of a parameter. -/
theorem mem_inferable {v : TypeVar} :
    v ∈ p.inferable m marks ↔ marks.isMarked v = true ∧ ∃ q ∈ m.params, v ∈ q.type.vars := by
  rw [inferable, Erasure.mem_foldl_collect]
  constructor
  · rintro (hnil | ⟨t, ht, hv, hmarked⟩)
    · cases hnil
    obtain ⟨q, hq, rfl⟩ := List.mem_map.mp ht
    exact ⟨hmarked, q, hq, hv⟩
  · rintro ⟨hmarked, q, hq, hv⟩
    exact .inr ⟨q.type, List.mem_map_of_mem hq, hv, hmarked⟩

/-! ## What is not reported -/

section Reports

variable {d : Draft} (h : hasErrors (p.reports d) = false)

include h

/-- The marked parameters of a draft without errors are inferable. -/
theorem inferable_of_hasErrors {v : TypeVar} (hv : d.marks.isMarked v = true) :
    v ∈ p.inferable d.method d.marks := by
  by_contra hmissing
  have hmem : v ∈ (d.marks.marked.map (·.1)).filter
      (!(p.inferable d.method d.marks).contains ·) :=
    List.mem_filter.mpr ⟨Marks.isMarked_iff.mp hv, by simpa using hmissing⟩
  obtain ⟨r, hr, herror⟩ : ∃ r ∈ p.inferenceReports d.method d.marks, r.isError = true := by
    unfold inferenceReports
    dsimp only
    split
    · rename_i hnil
      exact absurd (hnil ▸ hmem) List.not_mem_nil
    · exact ⟨_, List.mem_singleton_self _, rfl⟩
  refine absurd (hasErrors_eq_false.mp h r ?_) (ne_of_eq_of_ne herror (by decide))
  simp only [reports, List.mem_eraseDups, List.mem_append]
  exact .inr hr

/-- The target of a draft without errors has a name of its own. -/
theorem target_ne_of_hasErrors : targetName d.method.name ≠ d.marks.wrapperName d.method := by
  intro hname
  obtain ⟨r, hr, herror⟩ : ∃ r ∈ p.targetReports d.method d.marks, r.isError = true := by
    unfold targetReports
    dsimp only
    rw [← hname, beq_self_eq_true, Bool.true_or, if_pos rfl]
    exact ⟨_, List.mem_singleton_self _, rfl⟩
  refine absurd (hasErrors_eq_false.mp h r ?_) (ne_of_eq_of_ne herror (by decide))
  simp only [reports, List.mem_eraseDups, List.mem_append]
  exact .inl (.inl (.inr hr))

end Reports

/-! ## Plans of drafts -/

section Plans

variable {d : Draft}

theorem mem_erasures {v : TypeVar} {t : Ty} :
    (v, t) ∈ (p.planOf d).erasures ↔ (v, .ok t) ∈ d.erased := by
  simp only [planOf, List.mem_filterMap]
  constructor
  · rintro ⟨⟨w, _ | u⟩, hx, h⟩ <;> cases h
    exact hx
  · exact fun h => ⟨_, h, rfl⟩

/-- If all answers are types, every marked parameter has an erasure. -/
theorem map_fst_erasures (h : ∀ x ∈ d.erased, ∃ t, x.2 = .ok t) :
    (p.planOf d).erasures.map (·.1) = d.erased.map (·.1) := by
  have herasures : (p.planOf d).erasures = d.erased.map fun x => (x.1, typeOf x.2) := by
    simp only [planOf]
    rw [← List.filterMap_eq_map]
    refine List.filterMap_congr fun x hx => ?_
    obtain ⟨t, ht⟩ := h x hx
    obtain ⟨v, a⟩ := x
    obtain rfl : a = .ok t := ht
    rfl
  rw [herasures, List.map_map]
  rfl

theorem planOf_name : (p.planOf d).wrapper.name = d.marks.wrapperName d.method := by
  obtain hfresh | ⟨definition, hdefinition, hdefined⟩ := planOf_wrapper_cases (p := p) d
  · rw [hfresh, freshWrapper]
  · rw [hdefined, definedWrapper]
    exact (mem_definitions hdefinition).2.2.1

/-- **What a wrapper knows of the method's parameters** does not depend on whose types it has. -/
theorem planOf_params : (p.planOf d).wrapper.params.map (fun q => (q.target, q.isDynamic)) =
    (d.method.params.zip d.params).map fun x => (x.1.type, x.2.2) := by
  obtain hfresh | ⟨definition, hdefinition, hdefined⟩ := planOf_wrapper_cases (p := p) d
  · rw [hfresh, freshWrapper, List.map_map]
    rfl
  · have hlength : (d.method.params.zip d.params).length ≤ definition.params.length := by
      rw [(mem_definitions hdefinition).2.2.2, List.length_zip]
      exact Nat.min_le_left _ _
    rw [hdefined, definedWrapper, List.map_map]
    calc (definition.params.zip (d.method.params.zip d.params)).map _
        = ((definition.params.zip (d.method.params.zip d.params)).map Prod.snd).map
            fun x => (x.1.type, x.2.2) := by
          rw [List.map_map]
          rfl
      _ = _ := by rw [List.map_snd_zip hlength]

end Plans

/-- The parameters that stay are those without the marker. -/
theorem retained_eq {names : MarkerNames} (hvars : m.vars.Nodup)
    (h : names.read m = .ok (some marks)) : retained m marks = names.unmarkedVars m := by
  have hmarked := MarkerNames.map_fst_of_readParams (MarkerNames.readParams_of_read h).1
  rw [retained, MarkerNames.unmarkedVars, Method.vars, List.filter_map]
  refine congrArg _ (List.filter_congr fun q hq => ?_)
  have hiff : marks.isMarked q.var = true ↔ names.marks q = true := by
    rw [Marks.isMarked_iff, hmarked, List.mem_map]
    constructor
    · rintro ⟨q', hq', hvar⟩
      obtain ⟨hmem, hmark⟩ := List.mem_filter.mp hq'
      exact List.inj_on_of_nodup_map hvars hmem hq hvar ▸ hmark
    · exact fun hmark => ⟨q, List.mem_filter.mpr ⟨hq, hmark⟩, rfl⟩
  exact congrArg (!·) (Bool.eq_iff_iff.mpr hiff)

/-- The erasures of a draft inherit what the marks guarantee. -/
theorem holds_of_mem_erased {P Q : Ty → Prop} (he : (p.erasure marks).Inherited P Q) :
    ∀ x ∈ (p.draft m marks).erased, Erasure.Answer.Holds Q x.2 := by
  obtain ⟨hall, -⟩ := threaded_forall₂ (f := (p.erasure marks).eraseParam)
    (marks.marked.map (·.1)) (I := (·.Holds Q)) (R := fun _ a => Erasure.Answer.Holds Q a)
    (fun v hv s hs => he.eraseParam hs (Marks.isMarked_iff.mpr hv)) Erasure.State.holds_new
  exact fun x hx => (List.forall₂_iff_zip.mp hall).2 hx

/-! ## Plans of marked methods -/

/-- A wrapper parameter belongs to one of the method. -/
theorem exists_param {d : Draft} {q : WrapperParam} (hq : q ∈ (p.planOf d).wrapper.params) :
    ∃ x ∈ d.method.params.zip d.params, x.1.type = q.target ∧ x.2.2 = q.isDynamic := by
  have hmem := List.mem_map_of_mem (f := fun q : WrapperParam => (q.target, q.isDynamic)) hq
  rw [planOf_params] at hmem
  obtain ⟨x, hx, heq⟩ := List.mem_map.mp hmem
  obtain ⟨htarget, hdynamic⟩ := Prod.mk.inj heq
  exact ⟨x, hx, htarget, hdynamic⟩

/-- In a wrapper of its own it has the erased type. -/
theorem exists_freshParam {d : Draft} (hnone : (p.planOf d).definition? = none) {q : WrapperParam}
    (hq : q ∈ (p.planOf d).wrapper.params) :
    ∃ x ∈ d.method.params.zip d.params, freshParam x.1 x.2.1 x.2.2 = q := by
  rw [planOf_wrapper hnone] at hq
  exact List.mem_map.mp hq

/-- A draft has an answer for each parameter of the method. -/
theorem map_fst_params (m : Method) (marks : Marks) :
    (m.params.zip (p.draft m marks).params).map Prod.fst = m.params :=
  List.map_fst_zip (Nat.le_of_eq (draft_settles m marks).1.length_eq)

/-- There is one wrapper parameter for each of the method's, with its type as the target. -/
theorem map_target (m : Method) (marks : Marks) :
    (p.planOf (p.draft m marks)).wrapper.params.map (·.target) = m.params.map (·.type) := by
  have hparams := congrArg (List.map Prod.fst) (planOf_params (p := p) (d := p.draft m marks))
  simp only [List.map_map] at hparams
  refine hparams.trans ?_
  calc (m.params.zip (p.draft m marks).params).map _
      = ((m.params.zip (p.draft m marks).params).map Prod.fst).map (·.type) := by
        rw [List.map_map]
        rfl
    _ = m.params.map (·.type) := by rw [map_fst_params]

/-- In a wrapper of its own a parameter that is not late-bound keeps its type. -/
theorem type_eq_target (hnone : (p.planOf (p.draft m marks)).definition? = none) {q : WrapperParam}
    (hq : q ∈ (p.planOf (p.draft m marks)).wrapper.params) (hstatic : q.isDynamic = false) :
    q.type = q.target := by
  obtain ⟨x, hx, rfl⟩ := exists_freshParam hnone hq
  obtain ⟨⟨s, -, hanswer⟩, hneeds⟩ := (List.forall₂_iff_zip.mp (draft_settles m marks).1).2 hx
  have hstatic : x.2.2 = false := hstatic
  show typeOf x.2.1 = x.1.type
  rw [hanswer, Erasure.simplify_of_needs (hneeds ▸ hstatic), typeOf]

section Marked

variable (hread : p.names.read m = .ok (some marks))

include hread

theorem map_fst_marked : marks.marked.map (·.1) = p.names.markedVars m :=
  MarkerNames.map_fst_of_readParams (MarkerNames.readParams_of_read hread).1

theorem mem_markedVars {v : TypeVar} : v ∈ p.names.markedVars m ↔ marks.isMarked v = true := by
  rw [Marks.isMarked_iff, map_fst_marked hread]

variable (herrors : hasErrors (p.reports (p.draft m marks)) = false)

include herrors

/-- **Every marked parameter has an erasure**, in order. -/
theorem keys_erasures :
    (p.planOf (p.draft m marks)).erasures.map (·.1) = p.names.markedVars m :=
  calc (p.planOf (p.draft m marks)).erasures.map (·.1)
      = (p.draft m marks).erased.map (·.1) := map_fst_erasures (answers_of_hasErrors herrors).1
    _ = marks.marked.map (·.1) := map_fst_erased m marks
    _ = p.names.markedVars m := map_fst_marked hread

theorem mem_inferable_iff {v : TypeVar} :
    v ∈ p.inferable m marks ↔ v ∈ p.names.markedVars m := by
  rw [mem_markedVars hread]
  exact ⟨fun hv => (mem_inferable.mp hv).1, inferable_of_hasErrors herrors⟩

/-- A parameter has to be erased exactly if its type mentions a marked type parameter. -/
theorem needs_iff {x : Param × Erasure.Answer × Bool}
    (hx : x ∈ m.params.zip (p.draft m marks).params) :
    x.2.2 = true ↔ ∃ v ∈ x.1.type.vars, v ∈ p.names.markedVars m := by
  obtain ⟨⟨s, -, hanswer⟩, hneeds⟩ := (List.forall₂_iff_zip.mp (draft_settles m marks).1).2 hx
  obtain ⟨t, ht⟩ := (answers_of_hasErrors herrors).2.1 x hx
  rw [hneeds, Erasure.needs_iff_of_simplify (hanswer.symm.trans ht)]
  simp only [mem_markedVars hread]
  rfl

/-- **Late-bound are the parameters whose types mention a marked one.** -/
theorem isDynamic_iff {q : WrapperParam}
    (hq : q ∈ (p.planOf (p.draft m marks)).wrapper.params) :
    q.isDynamic = true ↔ ∃ v ∈ q.target.vars, v ∈ p.names.markedVars m := by
  obtain ⟨x, hx, htarget, hdynamic⟩ := exists_param hq
  rw [← htarget, ← hdynamic]
  exact needs_iff hread herrors hx

/-- One of the parameters is late-bound. -/
theorem exists_isDynamic :
    ∃ q ∈ (p.planOf (p.draft m marks)).wrapper.params, q.isDynamic = true := by
  obtain ⟨y, hy⟩ := List.exists_mem_of_ne_nil _ (MarkerNames.readParams_of_read hread).2
  have hv : y.1 ∈ p.names.markedVars m := map_fst_marked hread ▸ List.mem_map_of_mem hy
  obtain ⟨-, q, hq, hvq⟩ := mem_inferable.mp ((mem_inferable_iff hread herrors).mpr hv)
  have htype : q.type ∈ (p.planOf (p.draft m marks)).wrapper.params.map (·.target) :=
    map_target m marks ▸ List.mem_map_of_mem hq
  obtain ⟨w, hw, htarget⟩ := List.mem_map.mp htype
  exact ⟨w, hw, (isDynamic_iff hread herrors hw).mpr ⟨y.1, htarget ▸ hvq, hv⟩⟩

/-- **A marked parameter is erased to its erasure** wherever the marked ones are settled. -/
theorem lookup_erasures (hvars : m.vars.Nodup) {v : TypeVar} (hv : v ∈ p.names.markedVars m)
    {s : Erasure.State} (hs : s.Settles (p.erasure marks) (p.draft m marks).erased) {t : Ty}
    (ht : ((p.erasure marks).simplify s (.var v)).1 = .ok t) :
    (p.planOf (p.draft m marks)).erasures.lookup v = some t := by
  have hkeys := keys_erasures hread herrors
  obtain ⟨⟨w, u⟩, hx, rfl⟩ := List.mem_map.mp (hkeys ▸ hv)
  have hu := hs.simplify_var ((mem_markedVars hread).mp hv) (mem_erasures.mp hx)
  obtain rfl : u = t := Except.ok.inj (hu.symm.trans ht)
  refine Graph.lookup_of_mem ?_ hx
  rw [hkeys]
  exact hvars.sublist (List.filter_sublist.map _)

/-- A parameter declared as a marked type parameter gets that one's erasure. -/
theorem erasedParam (hvars : m.vars.Nodup) {v : TypeVar} (hv : v ∈ p.names.markedVars m)
    {x : Param × Erasure.Answer × Bool} (hx : x ∈ m.params.zip (p.draft m marks).params)
    (htype : x.1.type = .var v) :
    (p.planOf (p.draft m marks)).erasures.lookup v = some (typeOf x.2.1) := by
  obtain ⟨⟨s, hs, hanswer⟩, -⟩ := (List.forall₂_iff_zip.mp (draft_settles m marks).1).2 hx
  obtain ⟨t, ht⟩ : ∃ t, x.2.1 = .ok t := (answers_of_hasErrors herrors).2.1 x hx
  rw [ht, typeOf]
  exact lookup_erasures hread herrors hvars hv hs (by rw [← htype, ← hanswer, ht])

/-- A return type that is a marked type parameter gets that one's erasure. -/
theorem erasedReturn (hvars : m.vars.Nodup) {v : TypeVar} (hv : v ∈ p.names.markedVars m)
    (htype : m.returns = .var v) : (p.planOf (p.draft m marks)).erasures.lookup v =
      some (typeOf (p.draft m marks).returns) := by
  have hvoid : m.returnsVoid = false := by
    rw [Method.returnsVoid, htype]
    rfl
  obtain ⟨s, hs, hanswer⟩ := (draft_settles m marks).2 hvoid
  obtain ⟨-, -, t, ht⟩ := answers_of_hasErrors herrors
  have hplain : (p.erasure marks).simplifyReturn s (.var v) m.flags.isAsync =
      (p.erasure marks).simplify s (.var v) := by
    rw [Erasure.simplifyReturn, show (p.erasure marks).plainTask? (.var v) = none from rfl, ite_self]
  rw [ht, typeOf]
  exact lookup_erasures hread herrors hvars hv hs (by rw [← hplain, ← htype, ← hanswer, ht])

/-- **The plan of a draft without errors is coherent.** -/
theorem planOf_coherent (hvars : m.vars.Nodup)
    (he : (p.erasure marks).Inherited Ty.Determined (· ≠ .error)) :
    (p.planOf (p.draft m marks)).Coherent p.names where
  erasures := keys_erasures hread herrors
  retained := retained_eq hvars hread
  determined x hx := holds_of_mem_erased he _ (mem_erasures.mp hx) _ rfl
  inferable v := mem_inferable_iff hread herrors
  target := by
    rw [planOf_name]
    exact target_ne_of_hasErrors herrors
  params := map_target m marks
  dynamic q hq := isDynamic_iff hread herrors hq
  someDynamic := exists_isDynamic hread herrors
  unchanged hnone q hq hstatic := type_eq_target hnone hq hstatic
  erasedParam hnone q hq v hv htype := by
    obtain ⟨x, hx, rfl⟩ := exists_freshParam hnone hq
    exact erasedParam hread herrors hvars hv hx htype
  erasedReturn hnone v hv htype := by
    rw [planOf_wrapper hnone]
    exact erasedReturn hread herrors hvars hv htype

end Marked

end Planner

/-! ## Loaded graphs -/

/-- **What the marks of a loaded method guarantee**: erasing determined types gives no undetermined
one. -/
theorem inherited_determined {docs : List GraphDocument} {g : Graph} {known : WellKnown}
    {names : MarkerNames} {m : Method} {marks : Marks} (h : load docs = .ok g)
    (hknown : WellKnown.resolve g = .ok known) (hm : m ∈ g.methods)
    (hread : names.read m = .ok (some marks)) :
    (Planner.erasure ⟨g, known, names⟩ marks).Inherited Ty.Determined (· ≠ .error) where
  base ht hu := (determinedHeads_of_load h).base? ht hu
  interface ht hu := (determinedHeads_of_load h).interface ht hu
  usable ht _ := ht.ne_error
  standIn t ht := by
    obtain ⟨n, rfl⟩ := WellKnown.exists_plain_of_resolve hknown t ht
    exact (Ty.determined_plain n).ne_error
  given hgiven := MarkerNames.ne_error_of_readParams (MarkerNames.readParams_of_read hread).1
    (mem_of_lookup (Option.join_eq_some_iff.mp hgiven))
  constraint hv := determined_of_mem_constraintTypes h hm
    (MarkerNames.mem_vars_of_isMarked hread hv)

/-- **Every plan is coherent.** -/
theorem plan_coherent {docs : List GraphDocument} {g : Graph} {known : WellKnown}
    {names : MarkerNames} {ms : List Method} {plan : BridgePlan} (h : load docs = .ok g)
    (hknown : WellKnown.resolve g = .ok known) (hms : ∀ m ∈ ms, m ∈ g.methods)
    (hplan : plan ∈ (Planner.planGroup ⟨g, known, names⟩ ms).plans) : plan.Coherent names := by
  obtain ⟨m, hm, -, hmem⟩ := Planner.mem_planGroup.mp hplan
  obtain ⟨marks, hread, herrors, rfl⟩ := Planner.mem_planMethod.mp hmem
  exact Planner.planOf_coherent hread herrors (vars_of_load h (hms m hm)).1
    (inherited_determined h hknown (hms m hm) hread)

/-- The plan of a method with one marked parameter and another one that stays. -/
theorem plan_coherent_box : ∃ (g : Graph) (known : WellKnown) (plan : BridgePlan),
    load (Given.docs "IBox<S[]>") = .ok g ∧ WellKnown.resolve g = .ok known ∧
      plan ∈ (Planner.planGroup ⟨g, known, {}⟩ g.methods).plans ∧
      plan.wrapper.params.map (·.isDynamic) = [true, false] ∧ plan.Coherent {} := by
  have hcheck : Given.check (Given.docs "IBox<S[]>") (fun _ plan =>
      plan.wrapper.params.map (·.isDynamic) == [true, false]) = true := by decide +kernel
  obtain ⟨g, known, plan, -, hload, hknown, hplan, -, hasked⟩ := Given.exists_plan_of_check hcheck
  exact ⟨g, known, plan, hload, hknown, hplan, eq_of_beq hasked,
    plan_coherent hload hknown (fun m hm => hm) hplan⟩

end LateBridge
