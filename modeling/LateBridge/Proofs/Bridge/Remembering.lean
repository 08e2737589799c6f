import LateBridge.Proofs.Bridge.ErasureRun
import LateBridge.Proofs.Document.Loading
import Mathlib.Data.Finset.Card
import Mathlib.Logic.Relation

/-!
# Proofs/Bridge/Remembering — when remembering erasures does not show

An answer may be remembered that was found while other parameters were under way, and a refusal of
one of them may be part of it.  Remembering never shows exactly if erasing one parameter on a new
state leaves only answers behind that a new state gives too (`transparent_iff_noLeak`); so it is
enough to look at two parameters at a time.  It is so where no constraint leads from a parameter
back to itself (`Acyclic.noLeak`).

What was asked before is a set of parameters closed under constraints.  A run from there and a run
from a new state go side by side, and where the first has an answer at hand, what the second does
to find it stays inside that set.
-/

namespace LateBridge.Erasure

/-- **What can be asked**: the erasure of a parameter, of a type, or of a return type. -/
inductive Query where
  | param (v : TypeVar)
  | type (t : Ty)
  | returnType (t : Ty) (isAsync : Bool)

variable (e : Erasure)

/-- The answer to a query, and the state after it. -/
def ask (s : State) : Query → Answer × State
  | .param v => e.eraseParam s v
  | .type t => e.simplify s t
  | .returnType t isAsync => e.simplifyReturn s t isAsync

/-- The state after several queries. -/
def afterAll (s : State) (qs : List Query) : State := qs.foldl (fun s q => (e.ask s q).2) s

/-- **Remembering does not show**: whatever was asked before, the answer is that of a new state. -/
def Transparent : Prop := ∀ qs q, (e.ask (e.afterAll {} qs) q).1 = (e.ask {} q).1

/-- The answer of a new state. -/
def freshAnswer (v : TypeVar) : Answer := (e.eraseParam {} v).1

/-- Only answers of a new state are remembered. -/
def Faithful (s : State) : Prop := ∀ w a, s.erased.lookup w = some a → a = e.freshAnswer w

/-- **No parameter leaves anything behind** that a new state would answer otherwise. -/
def NoLeak : Prop := ∀ v, e.Faithful (e.eraseParam {} v).2

/-- A parameter is asked for when another one is erased. -/
def DependsOn (v w : TypeVar) : Prop := .param w ∈ e.tasks v ∧ e.given? w = none

/-- **No constraint leads from a parameter back to itself.** -/
def Acyclic : Prop := ∀ v, ¬Relation.TransGen e.DependsOn v v

variable {e}

/-! ## Queries are runs -/

/-- The task of a query. -/
def taskOfQuery (e : Erasure) : Query → Task
  | .param v => .param v
  | .type t => e.taskOf t
  | .returnType t isAsync =>
    match (if isAsync && e.needs t then e.plainTask? t else none) with
    | some task => .plain (.ok task)
    | none => e.taskOf t

theorem runs_ask (s : State) (q : Query) :
    e.Runs s [e.taskOfQuery q] [(e.ask s q).1] (e.ask s q).2 := by
  cases q with
  | param v => exact runs_eraseParam s v
  | type t => exact runs_simplify s t
  | returnType t isAsync =>
    rw [ask, taskOfQuery, simplifyReturn]
    cases isAsync && e.needs t with
    | false => exact runs_simplify s t
    | true =>
      simp only [if_true]
      cases e.plainTask? t with
      | some task => exact .plain .nil
      | none => exact runs_simplify s t

/-! ## Closed sets of parameters -/

/-- A set of parameters that holds all that its members ask for. -/
def Closed (e : Erasure) (known : TypeVar → Prop) : Prop :=
  ∀ v, known v → ∀ w, e.DependsOn v w → known w

/-- What a state remembers depends on what it remembers or has under way. -/
def Covered (e : Erasure) (s : State) : Prop :=
  ∀ v, (s.erased.lookup v).isSome → ∀ w, e.DependsOn v w →
    w ∈ s.visiting ∨ (s.erased.lookup w).isSome

/-- The parameters among some tasks are remembered, or were under way at the start. -/
def Asked (e : Erasure) (s s' : State) (ts : List Task) : Prop :=
  ∀ w, .param w ∈ ts → e.given? w = none → w ∈ s.visiting ∨ (s'.erased.lookup w).isSome

theorem Asked.cons {s s' : State} {v : TypeVar} {ts : List Task} (h : e.Asked s s' ts)
    (hv : e.given? v = none → v ∈ s.visiting ∨ (s'.erased.lookup v).isSome) :
    e.Asked s s' (.param v :: ts) := by
  intro w hw hgiven
  obtain hw | hw := List.mem_cons.mp hw
  · obtain rfl : w = v := Task.param.inj hw
    exact hv hgiven
  · exact h w hw hgiven

theorem Asked.cons_plain {s s' : State} {a : Answer} {ts : List Task} (h : e.Asked s s' ts) :
    e.Asked s s' (.plain a :: ts) := fun w hw =>
  h w ((List.mem_cons.mp hw).resolve_left nofun)

theorem isSome_lookup_pop {s : State} {v w : TypeVar} {a : Answer} :
    ((s.pop v a).erased.lookup w).isSome ↔ w = v ∨ (s.erased.lookup w).isSome := by
  by_cases hwv : w = v
  · subst hwv
    simp [State.lookup_pop_self]
  · rw [State.lookup_pop_of_ne _ _ hwv]
    simp [hwv]

/-- A parameter that starts leaves no gap. -/
theorem Covered.push {s : State} (hs : e.Covered s) (v : TypeVar) : e.Covered (s.push v) :=
  fun u hu w hw => (hs u hu w hw).imp_left (List.mem_cons_of_mem v)

/-- A parameter that is done leaves no gap: it leaves the stack, but it is remembered. -/
theorem Covered.pop {s s₁ : State} {v : TypeVar} {bs : List Answer} (a : Answer)
    (hs₁ : e.Covered s₁) (hrun : e.Runs (s.push v) (e.tasks v) bs s₁)
    (hasked : e.Asked (s.push v) s₁ (e.tasks v)) : e.Covered (s₁.pop v a) := by
  have hdone : ∀ w, w ∈ (s.push v).visiting ∨ (s₁.erased.lookup w).isSome →
      w ∈ s.visiting ∨ ((s₁.pop v a).erased.lookup w).isSome := by
    rintro w (hw | hw)
    · obtain rfl | hw := List.mem_cons.mp hw
      · exact .inr (isSome_lookup_pop.mpr (.inl rfl))
      · exact .inl hw
    · exact .inr (isSome_lookup_pop.mpr (.inr hw))
  intro u hu w hw
  rw [hrun.visiting_pop]
  obtain rfl | hu := isSome_lookup_pop.mp hu
  · exact hdone w (hasked w hw.1 hw.2)
  · exact hdone w (hrun.keeps.visiting ▸ hs₁ u hu w hw)

/-- **A run covers its tasks.** -/
theorem Runs.covered {s s' : State} {ts : List Task} {as : List Answer} (h : e.Runs s ts as s')
    (hs : e.Covered s) : e.Covered s' ∧ e.Asked s s' ts := by
  induction h with
  | nil => exact ⟨hs, fun w hw => absurd hw List.not_mem_nil⟩
  | plain _ ih =>
    obtain ⟨hs', hasked⟩ := ih hs
    exact ⟨hs', hasked.cons_plain⟩
  | given hgiven _ ih =>
    obtain ⟨hs', hasked⟩ := ih hs
    exact ⟨hs', hasked.cons fun h => absurd (hgiven.symm.trans h) (Option.some_ne_none _)⟩
  | remembered _ hlookup hrest ih =>
    obtain ⟨hs', hasked⟩ := ih hs
    have hlookup' := hrest.keeps.erased _ _ hlookup
    exact ⟨hs', hasked.cons fun _ => .inr (Option.isSome_of_eq_some hlookup')⟩
  | underWay _ _ hvisiting _ ih =>
    obtain ⟨hs', hasked⟩ := ih hs
    exact ⟨hs', hasked.cons fun _ => .inl hvisiting⟩
  | @computed s s₁ s' v bs ts as _ _ _ hrun hrest ihrun ih =>
    obtain ⟨hs₁, hinner⟩ := ihrun (hs.push v)
    obtain ⟨hs', hasked⟩ := ih (hs₁.pop (e.verdict v bs) hrun hinner)
    have hlookup := hrest.keeps.erased v _ (State.lookup_pop_self _ _ _)
    have hasked' : e.Asked s s' ts := by
      intro w hw hgiven
      rw [← hrun.visiting_pop (e.verdict v bs)]
      exact hasked w hw hgiven
    exact ⟨hs', hasked'.cons fun _ => .inr (Option.isSome_of_eq_some hlookup)⟩

/-- **A run inside a closed set** remembers nothing new outside it. -/
theorem Runs.lookup_of_closed {known : TypeVar → Prop} (hknown : e.Closed known) {s s' : State}
    {ts : List Task} {as : List Answer} (h : e.Runs s ts as s')
    (hts : ∀ w, .param w ∈ ts → e.given? w = none → known w) {w : TypeVar} (hw : ¬known w) :
    s'.erased.lookup w = s.erased.lookup w := by
  induction h with
  | nil => rfl
  | plain _ ih | given _ _ ih | remembered _ _ _ ih | underWay _ _ _ _ ih =>
    exact ih fun w hw => hts w (List.mem_cons_of_mem _ hw)
  | @computed s s₁ s' v bs ts as hgiven _ _ _ _ ihrun ih =>
    have hv : known v := hts v List.mem_cons_self hgiven
    have hne : w ≠ v := by
      rintro rfl
      exact hw hv
    rw [ih fun w hw => hts w (List.mem_cons_of_mem _ hw), State.lookup_pop_of_ne _ _ hne,
      ihrun fun u hu hu' => hknown v hv u ⟨hu, hu'⟩, State.push]

/-! ## Runs side by side -/

/-- **Two states side by side**: over a set of parameters the second has the answers of a new state
at hand, and elsewhere it remembers what the first remembers. -/
structure Beside (e : Erasure) (known : TypeVar → Prop) (f s : State) : Prop where
  visiting : s.visiting = f.visiting
  atHand : ∀ w, known w → s.erased.lookup w = some (e.freshAnswer w)
  elsewhere : ∀ w, ¬known w → s.erased.lookup w = f.erased.lookup w
  notUnderWay : ∀ w ∈ f.visiting, ¬known w

theorem Beside.push {known : TypeVar → Prop} {f s : State} (h : e.Beside known f s) {v : TypeVar}
    (hv : ¬known v) : e.Beside known (f.push v) (s.push v) := by
  refine ⟨congrArg (v :: ·) h.visiting, h.atHand, h.elsewhere, fun w hw => ?_⟩
  obtain rfl | hw := List.mem_cons.mp hw
  · exact hv
  · exact h.notUnderWay w hw

theorem Beside.pop {known : TypeVar → Prop} {f s : State} (h : e.Beside known f s) {v : TypeVar}
    (hv : ¬known v) (a : Answer) : e.Beside known (f.pop v a) (s.pop v a) := by
  refine ⟨congrArg (List.erase · v) h.visiting, fun w hw => ?_, fun w hw => ?_, fun w hw => ?_⟩
  · have hne : w ≠ v := by
      rintro rfl
      exact hv hw
    rw [State.lookup_pop_of_ne _ _ hne, h.atHand w hw]
  · rw [State.pop, State.pop, List.lookup_cons, List.lookup_cons, h.elsewhere w hw]
  · exact h.notUnderWay w (List.mem_of_mem_erase hw)

/-- **What the first state computes of a parameter in the set** is at hand in the second. -/
theorem Beside.computed {known : TypeVar → Prop} (hknown : e.Closed known) {f f₁ s : State}
    {v : TypeVar} {bs : List Answer} (hs : e.Beside known f s) (hv : known v)
    (hrun : e.Runs (f.push v) (e.tasks v) bs f₁) (a : Answer) :
    e.Beside known (f₁.pop v a) s := by
  refine ⟨hs.visiting.trans (hrun.visiting_pop a).symm, hs.atHand, fun w hw => ?_, ?_⟩
  · have hne : w ≠ v := by
      rintro rfl
      exact hw hv
    have hinside := hrun.lookup_of_closed hknown (fun u hu hu' => hknown v hv u ⟨hu, hu'⟩) hw
    rw [hs.elsewhere w hw, State.lookup_pop_of_ne _ _ hne, hinside, State.push]
  · rw [hrun.visiting_pop]
    exact hs.notUnderWay

/-- What is remembered inside a run is still remembered at its end. -/
theorem Faithful.of_pop {s₁ s' : State} {v : TypeVar} {a : Answer} {ts : List Task}
    {as : List Answer} (hs' : e.Faithful s') (hlookup : s₁.erased.lookup v = none)
    (h : e.Runs (s₁.pop v a) ts as s') : e.Faithful s₁ := by
  intro w b hw
  have hne : w ≠ v := by
    rintro rfl
    exact Option.some_ne_none b (hw.symm.trans hlookup)
  refine hs' w b (h.keeps.erased w b ?_)
  rw [State.lookup_pop_of_ne _ _ hne, hw]

/-- **A run from the first state has one with the same answers from the second**, if it leaves only
answers of a new state behind. -/
theorem Runs.beside {known : TypeVar → Prop} (hknown : e.Closed known) {f f' s : State}
    {ts : List Task} {as : List Answer} (h : e.Runs f ts as f') (hf' : e.Faithful f')
    (hs : e.Beside known f s) : ∃ s', e.Runs s ts as s' ∧ e.Beside known f' s' := by
  induction h generalizing s with
  | nil => exact ⟨s, .nil, hs⟩
  | plain _ ih =>
    obtain ⟨s', hrun, hs'⟩ := ih hf' hs
    exact ⟨s', .plain hrun, hs'⟩
  | given hgiven _ ih =>
    obtain ⟨s', hrun, hs'⟩ := ih hf' hs
    exact ⟨s', .given hgiven hrun, hs'⟩
  | @remembered f f' v a ts as hgiven hlookup hrest ih =>
    obtain ⟨s', hrun, hs'⟩ := ih hf' hs
    refine ⟨s', .remembered hgiven ?_ hrun, hs'⟩
    by_cases hv : known v
    · rw [hs.atHand v hv, hf' v a (hrest.keeps.erased v a hlookup)]
    · rw [hs.elsewhere v hv, hlookup]
  | @underWay f f' v ts as hgiven hlookup hvisiting _ ih =>
    obtain ⟨s', hrun, hs'⟩ := ih hf' hs
    have hv : ¬known v := hs.notUnderWay v hvisiting
    exact ⟨s', .underWay hgiven ((hs.elsewhere v hv).trans hlookup) (hs.visiting ▸ hvisiting) hrun,
      hs'⟩
  | @computed f f₁ f' v bs ts as hgiven hlookup hvisiting hinner hrest ihinner ih =>
    by_cases hv : known v
    · -- The answer is at hand; what the first state remembers on the way is at hand too.
      have hdone := hrest.keeps.erased v _ (State.lookup_pop_self f₁ v (e.verdict v bs))
      have hanswer : e.verdict v bs = e.freshAnswer v := hf' v _ hdone
      obtain ⟨s', hrun, hs'⟩ := ih hf' (hs.computed hknown hv hinner _)
      exact ⟨s', .remembered hgiven (by rw [hs.atHand v hv, hanswer]) hrun, hs'⟩
    · have hinner' : e.Faithful f₁ := hf'.of_pop (hinner.lookup_push.trans hlookup) hrest
      obtain ⟨s₁, hrun₁, hs₁⟩ := ihinner hinner' (hs.push hv)
      obtain ⟨s', hrun, hs'⟩ := ih hf' (hs₁.pop hv (e.verdict v bs))
      exact ⟨s', .computed hgiven ((hs.elsewhere v hv).trans hlookup) (hs.visiting ▸ hvisiting)
        hrun₁ hrun, hs'⟩

/-! ## Rest -/

/-- **A state at rest**: nothing is under way, and what is remembered are answers of a new state and
depends only on what is remembered. -/
structure AtRest (e : Erasure) (s : State) : Prop where
  visiting : s.visiting = []
  faithful : e.Faithful s
  covered : e.Covered s

theorem atRest_new : e.AtRest {} := ⟨rfl, nofun, nofun⟩

theorem AtRest.closed {s : State} (hs : e.AtRest s) :
    e.Closed fun w => (s.erased.lookup w).isSome := by
  intro v hv w hw
  refine (hs.covered v hv w hw).resolve_left fun hmem => ?_
  rw [hs.visiting] at hmem
  exact List.not_mem_nil hmem

theorem AtRest.beside {s : State} (hs : e.AtRest s) :
    e.Beside (fun w => (s.erased.lookup w).isSome) {} s := by
  refine ⟨hs.visiting, fun w hw => ?_, fun w hw => ?_, nofun⟩
  · obtain ⟨a, ha⟩ := Option.isSome_iff_exists.mp hw
    rw [ha, hs.faithful w a ha]
  · rw [Option.not_isSome_iff_eq_none.mp hw]
    rfl

/-- **At rest every query gets the answer of a new state**, and the state stays at rest. -/
theorem NoLeak.ask_eq (he : e.NoLeak) {s : State} (hs : e.AtRest s) (q : Query) :
    (e.ask s q).1 = (e.ask {} q).1 ∧ e.AtRest (e.ask s q).2 := by
  have hrun := runs_ask (e := e) s q
  have hfresh := runs_ask (e := e) {} q
  have hfaithful : e.Faithful (e.ask {} q).2 := by
    cases htask : e.taskOfQuery q with
    | plain a =>
      rw [htask] at hfresh
      obtain ⟨-, heq⟩ := hfresh.unique (.plain .nil)
      rw [heq]
      exact atRest_new.faithful
    | param v =>
      rw [htask] at hfresh
      obtain ⟨-, heq⟩ := hfresh.unique (runs_eraseParam {} v)
      rw [heq]
      exact he v
  obtain ⟨s', hrun', hbeside⟩ := hfresh.beside hs.closed hfaithful hs.beside
  obtain ⟨hanswers, rfl⟩ := hrun.unique hrun'
  refine ⟨List.cons.inj hanswers |>.1, hrun.keeps.visiting.trans hs.visiting, fun w a hw => ?_,
    (hrun.covered hs.covered).1⟩
  by_cases hknown : (s.erased.lookup w).isSome
  · rw [hbeside.atHand w hknown] at hw
    exact (Option.some.inj hw).symm
  · rw [hbeside.elsewhere w hknown] at hw
    exact hfaithful w a hw

theorem NoLeak.atRest_afterAll (he : e.NoLeak) {s : State} (hs : e.AtRest s) (qs : List Query) :
    e.AtRest (e.afterAll s qs) := by
  induction qs generalizing s with
  | nil => exact hs
  | cons q qs ih => exact ih (he.ask_eq hs q).2

/-- Without leaks remembering does not show. -/
theorem NoLeak.transparent (he : e.NoLeak) : e.Transparent := fun qs q =>
  (he.ask_eq (he.atRest_afterAll atRest_new qs) q).1

/-- What is remembered is remembered of parameters for which nothing was given. -/
theorem Runs.given?_eq_none {s s' : State} {ts : List Task} {as : List Answer}
    (h : e.Runs s ts as s') (hs : ∀ w, (s.erased.lookup w).isSome → e.given? w = none) :
    ∀ w, (s'.erased.lookup w).isSome → e.given? w = none := by
  induction h with
  | nil => exact hs
  | plain _ ih | given _ _ ih | remembered _ _ _ ih | underWay _ _ _ _ ih => exact ih hs
  | computed hgiven _ _ _ _ ihrun ih =>
    refine ih fun w hw => ?_
    obtain rfl | hw := isSome_lookup_pop.mp hw
    · exact hgiven
    · exact ihrun hs w hw

/-- Where remembering does not show there are no leaks: two queries would show one. -/
theorem Transparent.noLeak (he : e.Transparent) : e.NoLeak := by
  intro v w a hw
  have hrun := runs_eraseParam (e := e) {} v
  have hgiven : e.given? w = none :=
    hrun.given?_eq_none nofun w (Option.isSome_of_eq_some hw)
  have hremembered : e.Runs (e.eraseParam {} v).2 [.param w] [a] (e.eraseParam {} v).2 :=
    .remembered hgiven hw .nil
  obtain ⟨hanswers, -⟩ := hremembered.unique (runs_eraseParam _ w)
  exact (List.cons.inj hanswers).1.trans (he [.param v] (.param w))

/-! ## Without cycles -/

/-- Only marked parameters are asked for. -/
theorem DependsOn.isMarked {v w : TypeVar} (h : e.DependsOn v w) : e.isMarked w = true := by
  obtain ⟨hw, -⟩ := h
  rw [tasks] at hw
  split at hw
  · exact absurd hw List.not_mem_nil
  · obtain ⟨t, -, ht⟩ := List.mem_map.mp hw
    exact (eq_var_of_taskOf ht).2

/-- Without cycles asking goes down: ever fewer marked parameters can be reached. -/
theorem Acyclic.wellFounded (he : e.Acyclic) : WellFounded fun w v => e.DependsOn v w := by
  classical
  let reached (v : TypeVar) : Finset TypeVar :=
    (e.marked.map (·.1)).toFinset.filter (Relation.TransGen e.DependsOn v)
  refine Subrelation.wf (r := fun w v => (reached w).card < (reached v).card) ?_
    (measure fun v => (reached v).card).wf
  intro w v hvw
  refine Finset.card_lt_card ?_
  rw [Finset.ssubset_iff_of_subset fun u hu => ?_]
  · refine ⟨w, ?_, fun hw => he w (Finset.mem_filter.mp hw).2⟩
    obtain ⟨p, hp, hpw⟩ := List.any_eq_true.mp hvw.isMarked
    obtain rfl := eq_of_beq hpw
    exact Finset.mem_filter.mpr
      ⟨List.mem_toFinset.mpr (List.mem_map_of_mem hp), .single hvw⟩
  · obtain ⟨hu, hwu⟩ := Finset.mem_filter.mp hu
    exact Finset.mem_filter.mpr ⟨hu, .head hvw hwu⟩

/-- The answer that a task should get. -/
def expected (e : Erasure) : Task → Answer
  | .plain a => a
  | .param v => ((e.given? v).map Except.ok).getD (e.freshAnswer v)

/-- A parameter is answered as expected from every state that has nothing under way which it can
lead to, and answers of a new state stay the only ones remembered. -/
def AsExpected (e : Erasure) (v : TypeVar) : Prop :=
  ∀ (s s' : State) (a : Answer), e.Runs s [.param v] [a] s' → e.Faithful s →
    (∀ w, Relation.ReflTransGen e.DependsOn v w → w ∉ s.visiting) →
    a = e.expected (.param v) ∧ e.Faithful s'

/-- Tasks are answered as expected if their parameters are. -/
theorem Runs.eq_map_expected {ts : List Task} {s s' : State} {as : List Answer}
    (h : e.Runs s ts as s')
    (step : ∀ w, .param w ∈ ts → e.given? w = none → e.AsExpected w) (hs : e.Faithful s)
    (hreach : ∀ w, .param w ∈ ts → e.given? w = none →
      ∀ u, Relation.ReflTransGen e.DependsOn w u → u ∉ s.visiting) :
    as = ts.map e.expected ∧ e.Faithful s' := by
  induction ts generalizing s as with
  | nil =>
    cases h
    exact ⟨rfl, hs⟩
  | cons t ts ih =>
    obtain ⟨a, as, s₁, rfl, hfirst, hrest⟩ := h.exists_of_cons
    have hhead : a = e.expected t ∧ e.Faithful s₁ := by
      cases t with
      | plain b =>
        obtain ⟨heq, rfl⟩ := hfirst.unique (.plain .nil)
        exact ⟨(List.cons.inj heq).1, hs⟩
      | param w =>
        cases hgiven : e.given? w with
        | some t =>
          obtain ⟨heq, rfl⟩ := hfirst.unique (.given hgiven .nil)
          exact ⟨(List.cons.inj heq).1.trans (by rw [expected, hgiven]; rfl), hs⟩
        | none =>
          exact step w List.mem_cons_self hgiven s s₁ a hfirst hs
            (hreach w List.mem_cons_self hgiven)
    obtain ⟨rfl, hs₁⟩ := hhead
    have hreach' : ∀ w, .param w ∈ ts → e.given? w = none →
        ∀ u, Relation.ReflTransGen e.DependsOn w u → u ∉ s₁.visiting := by
      intro w hw hgiven u hu
      rw [hfirst.keeps.visiting]
      exact hreach w (List.mem_cons_of_mem _ hw) hgiven u hu
    obtain ⟨rfl, hs'⟩ := ih hrest (fun w hw => step w (List.mem_cons_of_mem _ hw)) hs₁ hreach'
    exact ⟨rfl, hs'⟩

/-- The answer of a new state is the verdict on the answers to the tasks. -/
theorem exists_freshAnswer_eq {v : TypeVar} (hgiven : e.given? v = none) :
    ∃ bs s₁, e.Runs (State.push {} v) (e.tasks v) bs s₁ ∧ e.freshAnswer v = e.verdict v bs := by
  have hrun := runs_eraseParam (e := e) {} v
  rw [freshAnswer]
  generalize (e.eraseParam {} v).1 = a at hrun
  generalize (e.eraseParam {} v).2 = s at hrun
  cases hrun with
  | given hgiven' _ => exact absurd (hgiven'.symm.trans hgiven) (Option.some_ne_none _)
  | remembered _ hlookup _ => exact absurd hlookup nofun
  | underWay _ _ hvisiting _ => exact absurd hvisiting List.not_mem_nil
  | computed _ _ _ hinner _ => exact ⟨_, _, hinner, rfl⟩

theorem Faithful.pop {s : State} (hs : e.Faithful s) (v : TypeVar) :
    e.Faithful (s.pop v (e.freshAnswer v)) := by
  intro w a hw
  by_cases hne : w = v
  · subst hne
    rw [State.lookup_pop_self] at hw
    exact (Option.some.inj hw).symm
  · rw [State.lookup_pop_of_ne _ _ hne] at hw
    exact hs w a hw

theorem expected_of_given?_eq_none {v : TypeVar} (h : e.given? v = none) :
    e.expected (.param v) = e.freshAnswer v := by
  rw [expected, h]
  rfl

/-- **Without cycles every parameter is answered as expected.** -/
theorem Acyclic.asExpected (he : e.Acyclic) (v : TypeVar) : e.AsExpected v := by
  induction v using he.wellFounded.induction with
  | _ v ih =>
    have htasks : ∀ (s s₁ : State) (bs : List Answer), e.Runs (s.push v) (e.tasks v) bs s₁ →
        e.Faithful s → (∀ w, Relation.ReflTransGen e.DependsOn v w → w ∉ s.visiting) →
        bs = (e.tasks v).map e.expected ∧ e.Faithful s₁ := by
      intro s s₁ bs hrun hs hreach
      refine hrun.eq_map_expected (fun w hw hgiven => ih w ⟨hw, hgiven⟩) hs
        fun w hw hgiven u hu hmem => ?_
      obtain rfl | hmem := List.mem_cons.mp hmem
      · exact he u (.head' ⟨hw, hgiven⟩ hu)
      · exact hreach u (.head ⟨hw, hgiven⟩ hu) hmem
    intro s s' a h hs hreach
    cases h with
    | given hgiven hnil =>
      cases hnil
      exact ⟨by rw [expected, hgiven]; rfl, hs⟩
    | remembered hgiven hlookup hnil =>
      cases hnil
      exact ⟨(hs v a hlookup).trans (expected_of_given?_eq_none hgiven).symm, hs⟩
    | underWay _ _ hvisiting _ => exact absurd hvisiting (hreach v .refl)
    | computed hgiven _ _ hrun hnil =>
      cases hnil
      obtain ⟨rfl, hs₁⟩ := htasks s _ _ hrun hs hreach
      obtain ⟨bs, s₀, hnew, hfresh⟩ := exists_freshAnswer_eq hgiven
      obtain ⟨rfl, -⟩ := htasks {} s₀ bs hnew atRest_new.faithful nofun
      rw [expected_of_given?_eq_none hgiven, ← hfresh]
      exact ⟨rfl, hs₁.pop v⟩

/-- **Without cycles there are no leaks.** -/
theorem Acyclic.noLeak (he : e.Acyclic) : e.NoLeak := fun v =>
  (he.asExpected v {} _ _ (runs_eraseParam {} v) atRest_new.faithful nofun).2

/-! ## The condition -/

/-- **Remembering does not show exactly if no parameter leaves a wrong answer behind**, and this is
so where no constraint leads from a parameter back to itself. -/
theorem transparent_iff_noLeak (e : Erasure) :
    (e.Transparent ↔ e.NoLeak) ∧ (e.Acyclic → e.Transparent) :=
  ⟨⟨Transparent.noLeak, NoLeak.transparent⟩, fun h => h.noLeak.transparent⟩

/-! ## A leak

Two parameters are constrained by each other, the first one by an interface over itself as well.  On
a new state each erases to the base of that interface.  Erased after the first, the second is
refused: that was its answer while the first was under way. -/

namespace Cycle

/-- The constraints `A : B, IFoo<A>` and `B : A`. -/
def docs : List GraphDocument :=
  [{ coreLibrary := false, usings := []
     types := CoreLibrary.bareTypes ++ [
      CoreLibrary.interfaceType "Demo" "IBase",
      { CoreLibrary.interfaceType "Demo" "IFoo" with
        typeParams := [CoreLibrary.param "T"], interfaces := ["IBase"] },
      { CoreLibrary.classType "Demo" "Host" with methods := [
        { name := "M", accessibility := "public", flags := {}
          typeParams := [{ CoreLibrary.param "A" with constraints := ["B", "IFoo<A>"] },
            { CoreLibrary.param "B" with constraints := ["A"] }]
          params := [⟨"a", "A", .none, none, false, none⟩, ⟨"b", "B", .none, none, false, none⟩]
          returns := "void", attributes := [], location := none }] }] }]

/-- The base of the interface. -/
def base : Ty := .plain (.top (some "Demo") "IBase" [])

/-- Whether documents declare one method of two parameters, and the second has another answer after
the first than on a new state. -/
def check (docs : List GraphDocument) : Bool :=
  match load docs with
  | .error _ => false
  | .ok g =>
    match WellKnown.resolve g, g.methods with
    | .ok known, [m] =>
      match m.vars with
      | [a, b] =>
        let e : Erasure := ⟨g, known, [(a, none), (b, none)]⟩
        (e.ask {} (.param b)).1 == .ok base &&
          (e.ask (e.afterAll {} [.param a]) (.param b)).1 == .error .unresolvable
      | _ => false
    | _, _ => false

theorem check_docs : check docs = true := by decide +kernel

end Cycle

/-- Remembering shows: the two parameters of a method are constrained in a cycle. -/
theorem not_transparent_of_cycle : ∃ g known m a b, load Cycle.docs = .ok g ∧
    WellKnown.resolve g = .ok known ∧ g.methods = [m] ∧ m.vars = [a, b] ∧
    ¬Transparent ⟨g, known, [(a, none), (b, none)]⟩ := by
  have h := Cycle.check_docs
  rw [Cycle.check] at h
  split at h
  · cases h
  · rename_i g hload
    split at h
    · rename_i known m hknown hmethods
      split at h
      · rename_i a b hvars
        refine ⟨g, known, m, a, b, hload, hknown, hmethods, hvars, fun htransparent => ?_⟩
        obtain ⟨hfresh, hafter⟩ := Bool.and_eq_true_iff.mp h
        have heq := htransparent [.param a] (.param b)
        rw [eq_of_beq hfresh, eq_of_beq hafter] at heq
        cases heq
      · cases h
    · cases h

end LateBridge.Erasure
