import LateBridge.Bridge.Planning
import LateBridge.Proofs.Bridge.ErasureBound

/-!
# Proofs/Bridge/Plans — where plans come from

A plan of a group is the plan of a draft of one of its methods, and that draft has no error
(`mem_planGroup`).  All erasures of such a draft are types, in step with the parameters they belong
to, and each is above the type it was made of (`draft_bounds`).
-/

namespace LateBridge

/-! ## Errors among reports -/

theorem hasErrors_eq_false {ds : List Diagnostic} :
    hasErrors ds = false ↔ ∀ d ∈ ds, d.isError = false := by
  simp [hasErrors]

theorem hasErrors_append (ds es : List Diagnostic) :
    hasErrors (ds ++ es) = (hasErrors ds || hasErrors es) := by
  simp [hasErrors]

/-! ## Along a list -/

/-- **What every step keeps holds at the end, and what it makes holds everywhere.** -/
theorem threaded_forall₂ {σ α β : Type} {f : σ → α → β × σ} {I : σ → Prop} {R : α → β → Prop}
    (as : List α) (step : ∀ a ∈ as, ∀ s, I s → R a (f s a).1 ∧ I (f s a).2) {s : σ} (hs : I s) :
    List.Forall₂ R as (threaded f s as).1 ∧ I (threaded f s as).2 := by
  induction as generalizing s with
  | nil => exact ⟨.nil, hs⟩
  | cons a as ih =>
    obtain ⟨ha, hs₁⟩ := step a List.mem_cons_self s hs
    obtain ⟨has, hs₂⟩ := ih (fun a ha => step a (List.mem_cons_of_mem _ ha)) hs₁
    exact ⟨.cons ha has, hs₂⟩

/-- What holds between the images of a list and another list holds beside further images, and these
stay in step. -/
theorem forall₂_zip_map {α β γ δ : Type} {R : β → γ → Prop} {f : α → β} {h : α → δ} {as : List α}
    {cs : List γ} (hcs : List.Forall₂ R (as.map f) cs) :
    List.Forall₂ (fun a c => R (f a) c.1 ∧ c.2 = h a) as (cs.zip (as.map h)) := by
  induction as generalizing cs with
  | nil =>
    cases hcs
    exact .nil
  | cons a as ih =>
    cases hcs with
    | cons ha has => exact .cons ⟨ha, rfl⟩ (ih has)

theorem forall₂_zip_self {α β : Type} {R : α → β → Prop} {as : List α} {bs : List β}
    (h : List.Forall₂ R as bs) :
    List.Forall₂ (fun a x => x.1 = a ∧ R x.1 x.2) as (as.zip bs) := by
  induction h with
  | nil => exact .nil
  | cons hab _ ih => exact .cons ⟨rfl, hab⟩ ih

/-- What is picked along a list and named by where it comes from has some of the names, in order. -/
theorem sublist_map_filterMap {α β γ : Type} {f : α → Option β} {name : β → γ} (source : α → γ)
    {as : List α} (h : ∀ a ∈ as, ∀ b, f a = some b → name b = source a) :
    ((as.filterMap f).map name).Sublist (as.map source) := by
  induction as with
  | nil => exact .slnil
  | cons a as ih =>
    obtain ⟨ha, has⟩ := List.forall_mem_cons.mp h
    cases hb : f a with
    | none =>
      rw [List.filterMap_cons_none hb]
      exact (ih has).cons _
    | some b =>
      rw [List.filterMap_cons_some hb, List.map_cons, List.map_cons, ha b hb]
      exact (ih has).cons_cons _

/-! ## Marks -/

namespace MarkerNames

variable {names : MarkerNames}

/-- The marked parameters are some of the method's own, in their order. -/
theorem sublist_of_readParams {m : Method} {ps : List TypeParam}
    {marked : List (TypeVar × Option Ty)} (h : names.readParams m ps = .ok marked) :
    (marked.map (·.1)).Sublist (ps.map (·.var)) := by
  induction ps generalizing marked with
  | nil =>
    cases h
    exact .slnil
  | cons p ps ih =>
    rw [readParams] at h
    split at h
    · exact (ih h).cons _
    · split at h
      · cases h
      · split at h
        · rename_i hrest
          cases h
          exact (ih hrest).cons_cons _
        · cases h

/-- The marks of a method are those of its type parameters, and there is one at least. -/
theorem readParams_of_read {m : Method} {marks : Marks} (h : names.read m = .ok (some marks)) :
    names.readParams m m.typeParams = .ok marks.marked ∧ marks.marked ≠ [] := by
  unfold read at h
  split at h
  · cases h
  · cases h
  · cases h
  · rename_i hne hparams _
    cases h
    exact ⟨hparams, hne⟩
  · rename_i hne hparams _
    split at h
    · cases h
      exact ⟨hparams, hne⟩
    · cases h

/-- Where no parameter is marked, none has a marker. -/
theorem readParams_eq_nil {m : Method} {ps : List TypeParam}
    (h : names.readParams m ps = .ok []) : ∀ p ∈ ps, names.paramMarker? p = none := by
  induction ps with
  | nil => exact fun p hp => absurd hp List.not_mem_nil
  | cons p ps ih =>
    rw [readParams] at h
    split at h
    · rename_i hp
      exact List.forall_mem_cons.mpr ⟨hp, ih h⟩
    · split at h
      · cases h
      · split at h <;> cases h

/-- The rules about markers. -/
def markerRules : List Rule :=
  [.malformedMarker, .malformedMethodMarker, .malformedMethodMarkerOption, .methodMarkerAlone]

/-- A report on a marker. -/
def OnMarker (d : Diagnostic) : Prop :=
  ∃ rule ∈ markerRules, ∃ args location, d = .ofRule rule args location

theorem onMarker_of_readParams {m : Method} {ps : List TypeParam} {d : Diagnostic}
    (h : names.readParams m ps = .error d) : OnMarker d := by
  induction ps with
  | nil => cases h
  | cons p ps ih =>
    rw [readParams] at h
    split at h
    · exact ih h
    · split at h
      · cases h
        exact ⟨_, by decide, _, _, rfl⟩
      · split at h
        · cases h
        · rename_i hrest
          cases h
          exact ih hrest

theorem onMarker_of_readOptions {m : Method} {mark : MethodMark}
    {options : List (String × AttributeValue)} {d : Diagnostic}
    (h : names.readOptions m mark options = .error d) : OnMarker d := by
  induction options generalizing mark with
  | nil => cases h
  | cons option options ih =>
    rw [readOptions] at h
    split at h
    · exact ih h
    · cases h
      exact ⟨_, by decide, _, _, rfl⟩

theorem onMarker_of_readMethodMark {m : Method} {marker : Attribute} {d : Diagnostic}
    (h : names.readMethodMark m marker = .error d) : OnMarker d := by
  rw [readMethodMark] at h
  split at h
  · exact onMarker_of_readOptions h
  · cases h
    exact ⟨_, by decide, _, _, rfl⟩

/-- **What keeps a method's markers from being read is reported by a rule about markers.** -/
theorem onMarker_of_read {m : Method} {d : Diagnostic} (h : names.read m = .error d) :
    OnMarker d := by
  unfold read at h
  split at h
  · rename_i hparams
    cases h
    exact onMarker_of_readParams hparams
  · cases h
  · cases h
    exact ⟨_, by decide, _, _, rfl⟩
  · cases h
  · split at h
    · cases h
    · rename_i hmark
      cases h
      exact onMarker_of_readMethodMark hmark

/-- It is an error. -/
theorem isError_of_read {m : Method} {d : Diagnostic} (h : names.read m = .error d) :
    d.isError = true := by
  obtain ⟨rule, hrule, args, location, rfl⟩ := onMarker_of_read h
  have hsevere : ∀ rule ∈ markerRules, (rule.severity == .error) = true := by decide
  exact hsevere rule hrule

/-- **A method that asks for a bridge is never passed over.** -/
theorem read_ne_none {m : Method} (h : names.asks m = true) : names.read m ≠ .ok none := by
  intro hread
  unfold read at hread
  split at hread
  · cases hread
  · rename_i hparams hmarker
    rw [asks, hmarker, Option.isSome_none, Bool.false_or, List.any_eq_true] at h
    obtain ⟨p, hp, hmarked⟩ := h
    exact absurd hmarked (by simp [readParams_eq_nil hparams p hp])
  · cases hread
  · cases hread
  · split at hread <;> cases hread

theorem mem_vars_of_isMarked {m : Method} {marks : Marks} (h : names.read m = .ok (some marks))
    {v : TypeVar} (hv : marks.isMarked v = true) : v ∈ m.vars := by
  rw [Marks.isMarked, List.any_eq_true] at hv
  obtain ⟨p, hp, hpv⟩ := hv
  obtain rfl := eq_of_beq hpv
  exact (sublist_of_readParams (readParams_of_read h).1).mem (List.mem_map_of_mem hp)

end MarkerNames

namespace Planner

variable {p : Planner}

/-! ## Planning one method and several -/

@[simp] theorem draft_method (m : Method) (marks : Marks) : (p.draft m marks).method = m := rfl

@[simp] theorem planOf_method (d : Draft) : (p.planOf d).method = d.method := rfl

/-- **A plan of a method** is the plan of its draft, which has no error. -/
theorem mem_planMethod {m : Method} {plan : BridgePlan} :
    plan ∈ (p.planMethod m).plans ↔ ∃ marks, p.names.read m = .ok (some marks) ∧
      hasErrors (p.reports (p.draft m marks)) = false ∧ plan = p.planOf (p.draft m marks) := by
  rw [planMethod]
  split
  · rename_i hread
    simp [hread]
  · rename_i hread
    simp [hread]
  · rename_i marks hread
    cases herrors : hasErrors (p.reports (p.draft m marks)) <;> simp [hread, herrors]

/-- The plans of a group are those of its methods whose types can be given members, in order. -/
theorem planFrom_plans (told : List DeclName) (ms : List Method) :
    (p.planFrom told ms).plans =
      ms.flatMap fun m => if p.closedTypes m = [] then (p.planMethod m).plans else [] := by
  induction ms generalizing told with
  | nil => rfl
  | cons m ms ih =>
    rw [planFrom, List.flatMap_cons]
    split
    · rename_i hclosed
      rw [if_pos hclosed, Outcome.append, ih]
    · rename_i hclosed
      rw [if_neg hclosed, Outcome.append, ih]

/-- **A plan of a group is a plan of one of its methods.** -/
theorem mem_planGroup {ms : List Method} {plan : BridgePlan} :
    plan ∈ (p.planGroup ms).plans ↔
      ∃ m ∈ ms, p.closedTypes m = [] ∧ plan ∈ (p.planMethod m).plans := by
  rw [planGroup, planFrom_plans, List.mem_flatMap]
  refine exists_congr fun m => and_congr_right fun _ => ?_
  by_cases hclosed : p.closedTypes m = [] <;> simp [hclosed]

/-! ## Errors of a group -/

/-- **Nothing stands in the way of a plan**: the types around the method can be given members, and
planning it reports no error. -/
def Plannable (p : Planner) (m : Method) : Prop :=
  p.closedTypes m = [] ∧ hasErrors (p.planMethod m).reports = false

/-- A method that asks for a bridge gets one exactly if planning it reports no error. -/
theorem plans_planMethod {m : Method} (h : p.names.asks m = true) :
    (hasErrors (p.planMethod m).reports = false ∧ (p.planMethod m).plans.map (·.method) = [m]) ∨
      (hasErrors (p.planMethod m).reports = true ∧ (p.planMethod m).plans = []) := by
  rw [planMethod]
  split
  · rename_i hread
    exact .inr ⟨by simp [hasErrors, MarkerNames.isError_of_read hread], rfl⟩
  · rename_i hread
    exact absurd hread (MarkerNames.read_ne_none h)
  · rename_i marks hread
    cases herrors : hasErrors (p.reports (p.draft m marks)) with
    | false => exact .inl (by simp [herrors])
    | true => exact .inr (by simp [herrors])

theorem hasErrors_closedReports (ds : List TypeDecl) :
    hasErrors (ds.map closedReport) = !ds.isEmpty := by
  cases ds <;> simp [hasErrors, closedReport, Diagnostic.isError, Diagnostic.ofRule, Rule.severity]

/-- Without an error every method can be planned, unless it was told before why not. -/
theorem of_hasErrors_planFrom {told : List DeclName} {ms : List Method}
    (h : hasErrors (p.planFrom told ms).reports = false) {m : Method} (hm : m ∈ ms) :
    (p.closedTypes m = [] → hasErrors (p.planMethod m).reports = false) ∧
      ∀ d ∈ p.closedTypes m, d.name ∈ told := by
  induction ms with
  | nil => exact absurd hm List.not_mem_nil
  | cons first ms ih =>
    rw [planFrom] at h
    split at h
    · rename_i hclosed
      rw [Outcome.append, hasErrors_append, Bool.or_eq_false_iff] at h
      obtain rfl | hm := List.mem_cons.mp hm
      · exact ⟨fun _ => h.1, by simp [hclosed]⟩
      · exact ih h.2 hm
    · rename_i hclosed
      rw [Outcome.append, hasErrors_append, hasErrors_closedReports, Bool.or_eq_false_iff,
        Bool.not_eq_false', List.isEmpty_iff] at h
      obtain ⟨hfresh, h⟩ := h
      rw [hfresh, List.map_nil, List.append_nil] at h
      obtain rfl | hm := List.mem_cons.mp hm
      · refine ⟨fun hnil => absurd hnil hclosed, fun d hd => ?_⟩
        simpa using List.filter_eq_nil_iff.mp hfresh d hd
      · exact ih h hm

theorem hasErrors_planFrom {told : List DeclName} {ms : List Method}
    (h : ∀ m ∈ ms, p.Plannable m) : hasErrors (p.planFrom told ms).reports = false := by
  induction ms with
  | nil => rfl
  | cons m ms ih =>
    obtain ⟨⟨hclosed, hm⟩, hms⟩ := List.forall_mem_cons.mp h
    rw [planFrom, hclosed]
    exact (hasErrors_append _ _).trans (by rw [hm, ih hms, Bool.or_false])

/-- **A group reports no error exactly if all its methods can be planned.** -/
theorem hasErrors_planGroup {ms : List Method} :
    hasErrors (p.planGroup ms).reports = false ↔ ∀ m ∈ ms, p.Plannable m := by
  refine ⟨fun h m hm => ?_, hasErrors_planFrom⟩
  obtain ⟨hplan, htold⟩ := of_hasErrors_planFrom h hm
  have hclosed : p.closedTypes m = [] :=
    List.eq_nil_iff_forall_not_mem.mpr fun d hd => absurd (htold d hd) List.not_mem_nil
  exact ⟨hclosed, hplan hclosed⟩

theorem method_of_mem_planMethod {m : Method} {plan : BridgePlan}
    (h : plan ∈ (p.planMethod m).plans) : plan.method = m := by
  obtain ⟨marks, -, -, rfl⟩ := mem_planMethod.mp h
  rfl

/-- The method of a plan is one of the group. -/
theorem method_mem_of_mem_planGroup {ms : List Method} {plan : BridgePlan}
    (h : plan ∈ (p.planGroup ms).plans) : plan.method ∈ ms := by
  obtain ⟨m, hm, -, hplan⟩ := mem_planGroup.mp h
  exact method_of_mem_planMethod hplan ▸ hm

/-- **A method of the group that asks for a bridge has a plan exactly if it can be planned.** -/
theorem exists_plan_iff {ms : List Method} {m : Method} (hm : m ∈ ms)
    (hasks : p.names.asks m = true) :
    (∃ plan ∈ (p.planGroup ms).plans, plan.method = m) ↔ p.Plannable m := by
  constructor
  · rintro ⟨plan, hplan, rfl⟩
    obtain ⟨m', -, hclosed, hmem⟩ := mem_planGroup.mp hplan
    obtain rfl := method_of_mem_planMethod hmem
    obtain ⟨hnone, -⟩ | ⟨-, hnil⟩ := plans_planMethod hasks
    · exact ⟨hclosed, hnone⟩
    · exact absurd (hnil ▸ hmem) List.not_mem_nil
  · rintro ⟨hclosed, herrors⟩
    obtain ⟨-, hplans⟩ | ⟨h, -⟩ := plans_planMethod hasks
    · obtain ⟨plan, hplan, hmethod⟩ := List.mem_map.mp (hplans ▸ List.mem_singleton_self m)
      exact ⟨plan, mem_planGroup.mpr ⟨m, hm, hclosed, hplan⟩, hmethod⟩
    · exact absurd (herrors.symm.trans h) Bool.false_ne_true

/-- **The plans of a group without errors are for its methods, in order.** -/
theorem map_method_planGroup {ms : List Method} (hasks : ∀ m ∈ ms, p.names.asks m = true)
    (h : ∀ m ∈ ms, p.Plannable m) : (p.planGroup ms).plans.map (·.method) = ms := by
  rw [planGroup, planFrom_plans]
  induction ms with
  | nil => rfl
  | cons m ms ih =>
    obtain ⟨⟨hclosed, herrors⟩, hms⟩ := List.forall_mem_cons.mp h
    obtain ⟨hm, hasks⟩ := List.forall_mem_cons.mp hasks
    obtain ⟨-, hplans⟩ | ⟨herrors', -⟩ := plans_planMethod hm
    · rw [List.flatMap_cons, if_pos hclosed, List.map_append, hplans, ih hasks hms]
      rfl
    · exact absurd (herrors.symm.trans herrors') Bool.false_ne_true

/-- A plan that implements no definition has a wrapper of its own. -/
theorem planOf_wrapper {d : Draft} (h : (p.planOf d).definition? = none) :
    (p.planOf d).wrapper = p.freshWrapper d := by
  rcases hdefinitions : p.definitions d.method d.marks with _ | ⟨definition, _ | ⟨other, rest⟩⟩
  · simp only [planOf, hdefinitions]
  · simp [planOf, hdefinitions] at h
  · simp only [planOf, hdefinitions]

/-! ## Drafts -/

/-- An answer that is not reported is a type. -/
theorem exists_of_answerReports (m : Method) (shown : String) (location : Option Location)
    {a : Erasure.Answer} (h : ∀ d ∈ answerReports m shown location a, d.isError = false) :
    ∃ t, a = .ok t := by
  cases a with
  | ok t => exact ⟨t, rfl⟩
  | error x =>
    have hreport := h _ (List.mem_singleton_self _)
    cases x <;> simp [erasureReport, Diagnostic.isError, Diagnostic.ofRule, Rule.severity] at hreport

/-- **The answers of a draft without errors are types.** -/
theorem answers_of_hasErrors {d : Draft} (h : hasErrors (p.reports d) = false) :
    (∀ x ∈ d.erased, ∃ t, x.2 = .ok t) ∧
      (∀ x ∈ d.method.params.zip d.params, ∃ t, x.2.1 = .ok t) ∧ ∃ t, d.returns = .ok t := by
  have hdraft : ∀ r ∈ draftReports d, r.isError = false := by
    intro r hr
    refine hasErrors_eq_false.mp h r ?_
    simp only [reports, List.mem_eraseDups, List.mem_append]
    exact .inl (.inl (.inl (.inr hr)))
  refine ⟨fun x hx => ?_, fun x hx => ?_, ?_⟩
  · refine exists_of_answerReports d.method x.1.name (paramLocation d.method x.1)
      fun r hr => hdraft r ?_
    exact List.mem_append_left _ (List.mem_append_left _ (List.mem_flatMap.mpr ⟨x, hx, hr⟩))
  · refine exists_of_answerReports d.method x.1.type.display (x.1.location.or d.method.location)
      fun r hr => hdraft r ?_
    refine List.mem_append_left _ (List.mem_append_right _ (List.mem_flatMap.mpr ⟨x, hx, ?_⟩))
    exact List.mem_append_right _ hr
  · exact exists_of_answerReports _ _ _ fun r hr => hdraft r (List.mem_append_right _ hr)

/-! ## What a draft erases to -/

section Bounds

variable {m : Method} {marks : Marks} {r : Ty.Subst} (he : (p.erasure marks).Standard)
  (hr : (p.erasure marks).Accepts r)

include he hr

theorem bounds_simplify {s : Erasure.State} (hs : s.Bounded (p.erasure marks) r) (t : Ty) :
    (p.erasure marks).Bounds r t ((p.erasure marks).simplify s t).1 ∧
      ((p.erasure marks).simplify s t).2.Bounded (p.erasure marks) r := by
  rw [Erasure.simplify]
  cases h : (p.erasure marks).simplifyBy ((p.erasure marks).eraseVarWithin
      (p.erasure marks).fuel) s t with
  | none => exact ⟨Erasure.bounds_error t _, hs⟩
  | some answer => exact he.bounds_simplifyBy hr (he.stepBounds hr _) hs h

theorem bounds_eraseParam {s : Erasure.State} (hs : s.Bounded (p.erasure marks) r) {v : TypeVar}
    (hv : (r.lookup v).isSome) :
    (p.erasure marks).Bounds r (.var v) ((p.erasure marks).eraseParam s v).1 ∧
      ((p.erasure marks).eraseParam s v).2.Bounded (p.erasure marks) r := by
  rw [Erasure.eraseParam]
  cases h : (p.erasure marks).eraseVarWithin (p.erasure marks).fuel s v with
  | none => exact ⟨Erasure.bounds_error _ _, hs⟩
  | some answer => exact he.stepBounds hr _ s v _ _ hs hv h

/-- **The erasures of a draft are above what they are made of**: those of its parameter types, and
that of its return type unless it is awaited. -/
theorem draft_bounds :
    List.Forall₂ (fun (q : Param) a => (p.erasure marks).Bounds r q.type a.1) m.params
        (p.draft m marks).params ∧
      (m.returnsVoid = false → m.flags.isAsync = false →
        (p.erasure marks).Bounds r m.returns (p.draft m marks).returns) := by
  have hnew : ({} : Erasure.State).Bounded (p.erasure marks) r := fun v a h => by cases h
  obtain ⟨-, hs₁⟩ := threaded_forall₂ (f := (p.erasure marks).eraseParam)
    (marks.marked.map (·.1)) (I := (·.Bounded (p.erasure marks) r))
    (R := fun v a => (p.erasure marks).Bounds r (.var v) a)
    (fun v hv s hs => bounds_eraseParam he hr hs (hr.known v (by
      obtain ⟨q, hq, rfl⟩ := List.mem_map.mp hv
      rw [Erasure.isMarked, List.any_eq_true]
      exact ⟨q, hq, beq_self_eq_true _⟩))) hnew
  obtain ⟨hparams, hs₂⟩ := threaded_forall₂ (f := (p.erasure marks).simplify)
    (m.params.map (·.type)) (I := (·.Bounded (p.erasure marks) r))
    (R := fun t a => (p.erasure marks).Bounds r t a)
    (fun t _ s hs => bounds_simplify he hr hs t) hs₁
  refine ⟨?_, fun hvoid hasync => ?_⟩
  · exact (forall₂_zip_map hparams).imp fun _ _ h => h.1
  · simp only [draft, hvoid, hasync, Erasure.simplifyReturn, Bool.false_and, Bool.false_eq_true,
      if_false]
    exact (bounds_simplify he hr hs₂ m.returns).1

/-- **A wrapper of its own accepts every instantiation**: each instantiated parameter type converts
to the wrapper's, and so does the return type, unless there is none or it is awaited. -/
theorem freshWrapper_bounds (herrors : hasErrors (p.reports (p.draft m marks)) = false) :
    List.Forall₂ (fun q w => p.graph.isAssignable (q.type.subst r) (w.type.subst r) = true)
        m.params (p.freshWrapper (p.draft m marks)).params ∧
      (m.returnsVoid = false → m.flags.isAsync = false →
        p.graph.isAssignable (m.returns.subst r)
          ((p.freshWrapper (p.draft m marks)).returns.subst r) = true) := by
  obtain ⟨hparams, hreturns⟩ := draft_bounds (m := m) he hr
  obtain ⟨-, hanswers, t, ht⟩ := answers_of_hasErrors herrors
  obtain ⟨hlength, hbounds⟩ := List.forall₂_iff_zip.mp hparams
  refine ⟨?_, fun hvoid hasync => ?_⟩
  · rw [freshWrapper, List.forall₂_map_right_iff]
    have hall : List.Forall₂ (fun (q : Param) (a : Erasure.Answer × Bool) =>
        p.graph.isAssignable (q.type.subst r) ((typeOf a.1).subst r) = true)
        m.params (p.draft m marks).params := by
      refine List.forall₂_iff_zip.mpr ⟨hlength, fun {q a} hqa => ?_⟩
      obtain ⟨u, hu⟩ := hanswers (q, a) hqa
      rw [show a.1 = .ok u from hu]
      exact hbounds hqa u hu
    refine (forall₂_zip_self hall).imp ?_
    rintro q ⟨q', a⟩ ⟨rfl, ha⟩
    exact ha
  · simp only [freshWrapper, ht]
    exact hreturns hvoid hasync t ht

end Bounds

end Planner

end LateBridge
