import LateBridge.Bridge.Erasure
import LateBridge.Proofs.Results
import LateBridge.Proofs.Symbols.Substitution
import Mathlib.Data.List.Basic

/-!
# Proofs/Bridge/ErasureRun — erasing as a list of tasks

Erasing a parameter asks for the erasures of its constraint types one after the other, and only
those that are parameters themselves touch the state.  `Runs` is this recursion without fuel: from a
state, a list of tasks leads to a list of answers and another state.  The functions with fuel
compute it (`runs_eraseParam`, `runs_simplify`), it has one result (`Runs.unique`), and it leaves the
stack as it was and what is remembered in place (`Runs.keeps`).  What every way to answer a parameter
gives holds of all answers (`Runs.invariant`).
-/

namespace LateBridge.Erasure

variable {e : Erasure}

/-! ## Tasks -/

/-- **What erasing comes down to**: an answer that needs no state, or a marked parameter. -/
inductive Task where
  | plain (answer : Answer)
  | param (v : TypeVar)

/-- The answer for a type that is no marked parameter. -/
def settled (e : Erasure) (t : Ty) : Answer :=
  if !e.needs t then .ok t
  else if tooDeep t then .error .unresolvable
  else
    match t with
    | .array .. => .ok e.known.array
    | .pointer _ | .fnptr .. => .error (.pointer t)
    | .named .. => e.ofNamed t
    | .var _ | .void | .dynamic | .error => .ok t

/-- The task of a type. -/
def taskOf (e : Erasure) : Ty → Task
  | .var v => if e.isMarked v then .param v else .plain (.ok (.var v))
  | t => .plain (e.settled t)

/-- Only marked parameters are tasks. -/
theorem eq_var_of_taskOf {t : Ty} {v : TypeVar} (h : e.taskOf t = .param v) :
    t = .var v ∧ e.isMarked v = true := by
  cases t with
  | var w =>
    rw [taskOf] at h
    split at h
    · rename_i hmarked
      obtain rfl : w = v := Task.param.inj h
      exact ⟨rfl, hmarked⟩
    · exact absurd h nofun
  | _ => exact absurd h nofun

/-- The type given for a parameter. -/
def given? (e : Erasure) (v : TypeVar) : Option Ty := (e.marked.lookup v).join

/-- What the constraint types of a parameter decide that need no erasure. -/
def direct? (e : Erasure) (v : TypeVar) : Option Answer :=
  match (e.graph.constraintTypes v).filter (!e.needs ·) with
  | [] => none
  | [t] => some (.ok t)
  | several => some (.error (.ambiguous several))

/-- The tasks of a parameter: its constraint types, unless they decide already. -/
def tasks (e : Erasure) (v : TypeVar) : List Task :=
  match e.direct? v with
  | some _ => []
  | none => (e.graph.constraintTypes v).map e.taskOf

/-- The types among some answers, each once, after those already found. -/
def typesOf (found : List Ty) (answers : List Answer) : List Ty :=
  answers.foldl (fun found a => match a with
    | .ok t => addNew found t
    | .error _ => found) found

/-- **The answer for a parameter** from those for its tasks. -/
def verdict (e : Erasure) (v : TypeVar) (answers : List Answer) : Answer :=
  match e.direct? v with
  | some answer => answer
  | none =>
    match typesOf [] answers with
    | [t] => .ok t
    | [] => e.rootOf (e.graph.constraints v) (e.graph.constraintTypes v)
    | found => .error (.ambiguous found)

/-- A state with one more parameter under way. -/
def State.push (s : State) (v : TypeVar) : State := { s with visiting := v :: s.visiting }

/-- A state with a parameter done. -/
def State.pop (s : State) (v : TypeVar) (answer : Answer) : State :=
  { erased := (v, answer) :: s.erased, visiting := s.visiting.erase v }

/-! ## Runs -/

/-- **Erasing a list of tasks one after the other.**  A parameter is answered by the type given for
it, by what is remembered, by a refusal if it is under way, or by running its own tasks. -/
inductive Runs (e : Erasure) : State → List Task → List Answer → State → Prop where
  | nil {s} : Runs e s [] [] s
  | plain {s s' a ts as} : Runs e s ts as s' → Runs e s (.plain a :: ts) (a :: as) s'
  | given {s s' v t ts as} : e.given? v = some t → Runs e s ts as s' →
      Runs e s (.param v :: ts) (.ok t :: as) s'
  | remembered {s s' v a ts as} : e.given? v = none → s.erased.lookup v = some a →
      Runs e s ts as s' → Runs e s (.param v :: ts) (a :: as) s'
  | underWay {s s' v ts as} : e.given? v = none → s.erased.lookup v = none → v ∈ s.visiting →
      Runs e s ts as s' → Runs e s (.param v :: ts) (.error .unresolvable :: as) s'
  | computed {s s₁ s' v bs ts as} : e.given? v = none → s.erased.lookup v = none →
      v ∉ s.visiting → Runs e (s.push v) (e.tasks v) bs s₁ →
      Runs e (s₁.pop v (e.verdict v bs)) ts as s' →
      Runs e s (.param v :: ts) (e.verdict v bs :: as) s'

/-- A run of one task and then of others. -/
theorem Runs.cons {s s₁ s' : State} {t : Task} {a : Answer} {ts : List Task} {as : List Answer}
    (h : e.Runs s [t] [a] s₁) (hrest : e.Runs s₁ ts as s') : e.Runs s (t :: ts) (a :: as) s' := by
  cases h with
  | plain h => cases h; exact .plain hrest
  | given hgiven h => cases h; exact .given hgiven hrest
  | remembered hgiven hlookup h => cases h; exact .remembered hgiven hlookup hrest
  | underWay hgiven hlookup hvisiting h => cases h; exact .underWay hgiven hlookup hvisiting hrest
  | computed hgiven hlookup hvisiting hrun h =>
    cases h
    exact .computed hgiven hlookup hvisiting hrun hrest

/-- A run of several tasks starts with a run of the first. -/
theorem Runs.exists_of_cons {s s' : State} {t : Task} {ts : List Task} {answers : List Answer}
    (h : e.Runs s (t :: ts) answers s') :
    ∃ a as s₁, answers = a :: as ∧ e.Runs s [t] [a] s₁ ∧ e.Runs s₁ ts as s' := by
  cases h with
  | plain h => exact ⟨_, _, _, rfl, .plain .nil, h⟩
  | given hgiven h => exact ⟨_, _, _, rfl, .given hgiven .nil, h⟩
  | remembered hgiven hlookup h => exact ⟨_, _, _, rfl, .remembered hgiven hlookup .nil, h⟩
  | underWay hgiven hlookup hvisiting h =>
    exact ⟨_, _, _, rfl, .underWay hgiven hlookup hvisiting .nil, h⟩
  | computed hgiven hlookup hvisiting hrun h =>
    exact ⟨_, _, _, rfl, .computed hgiven hlookup hvisiting hrun .nil, h⟩

/-- **A run has one result.** -/
theorem Runs.unique {s s' s'' : State} {ts : List Task} {as bs : List Answer}
    (h : e.Runs s ts as s') (h' : e.Runs s ts bs s'') : as = bs ∧ s' = s'' := by
  induction h generalizing bs s'' with
  | nil =>
    cases h'
    exact ⟨rfl, rfl⟩
  | plain _ ih =>
    cases h' with
    | plain h' =>
      obtain ⟨rfl, rfl⟩ := ih h'
      exact ⟨rfl, rfl⟩
  | given hgiven _ ih =>
    cases h' with
    | given hgiven' h' =>
      obtain ⟨rfl, rfl⟩ := ih h'
      cases hgiven.symm.trans hgiven'
      exact ⟨rfl, rfl⟩
    | _ => simp_all
  | remembered hgiven hlookup _ ih =>
    cases h' with
    | remembered _ hlookup' h' =>
      obtain ⟨rfl, rfl⟩ := ih h'
      cases hlookup.symm.trans hlookup'
      exact ⟨rfl, rfl⟩
    | _ => simp_all
  | underWay hgiven hlookup hvisiting _ ih =>
    cases h' with
    | underWay _ _ _ h' =>
      obtain ⟨rfl, rfl⟩ := ih h'
      exact ⟨rfl, rfl⟩
    | _ => simp_all
  | computed hgiven hlookup hvisiting _ _ ihrun ih =>
    cases h' with
    | computed _ _ _ hrun' h' =>
      obtain ⟨rfl, rfl⟩ := ihrun hrun'
      obtain ⟨rfl, rfl⟩ := ih h'
      exact ⟨rfl, rfl⟩
    | _ => simp_all

/-! ## What a run leaves in place -/

theorem State.lookup_pop_self (s : State) (v : TypeVar) (a : Answer) :
    (s.pop v a).erased.lookup v = some a :=
  List.lookup_cons_self

theorem State.lookup_pop_of_ne (s : State) {v w : TypeVar} (a : Answer) (h : w ≠ v) :
    (s.pop v a).erased.lookup w = s.erased.lookup w := by
  rw [pop, List.lookup_cons, beq_eq_false_iff_ne.mpr h]

/-- What a run keeps: the stack, what is remembered, and that nothing is remembered of the
parameters under way. -/
structure State.Keeps (s s' : State) : Prop where
  visiting : s'.visiting = s.visiting
  erased : ∀ w a, s.erased.lookup w = some a → s'.erased.lookup w = some a
  underWay : ∀ w ∈ s.visiting, s'.erased.lookup w = s.erased.lookup w

/-- **A run leaves the stack as it was, and what is remembered in place.** -/
theorem Runs.keeps {s s' : State} {ts : List Task} {as : List Answer} (h : e.Runs s ts as s') :
    s.Keeps s' := by
  induction h with
  | nil => exact ⟨rfl, fun _ _ h => h, fun _ _ => rfl⟩
  | plain _ ih | given _ _ ih | remembered _ _ _ ih | underWay _ _ _ _ ih => exact ih
  | @computed s s₁ s' v bs ts as _ hlookup hvisiting _ _ ihrun ih =>
    have hvisiting₁ : (s₁.pop v (e.verdict v bs)).visiting = s.visiting := by
      rw [State.pop, ihrun.visiting, State.push, List.erase_cons_head]
    refine ⟨ih.visiting.trans hvisiting₁, fun w a hw => ?_, fun w hw => ?_⟩
    · have hne : w ≠ v := by
        rintro rfl
        exact Option.some_ne_none a (hw.symm.trans hlookup)
      refine ih.erased w a ?_
      rw [State.lookup_pop_of_ne _ _ hne]
      exact ihrun.erased w a hw
    · have hne : w ≠ v := by
        rintro rfl
        exact hvisiting hw
      rw [ih.underWay w (hvisiting₁ ▸ hw), State.lookup_pop_of_ne _ _ hne]
      exact ihrun.underWay w (List.mem_cons_of_mem _ hw)

/-- While a parameter is under way nothing is remembered of it. -/
theorem Runs.lookup_push {s s₁ : State} {v : TypeVar} {ts : List Task} {as : List Answer}
    (h : e.Runs (s.push v) ts as s₁) : s₁.erased.lookup v = s.erased.lookup v :=
  h.keeps.underWay v List.mem_cons_self

/-- A parameter that is done leaves the stack. -/
theorem Runs.visiting_pop {s s₁ : State} {v : TypeVar} {ts : List Task} {as : List Answer}
    (h : e.Runs (s.push v) ts as s₁) (a : Answer) : (s₁.pop v a).visiting = s.visiting := by
  rw [State.pop, h.keeps.visiting, State.push, List.erase_cons_head]

/-! ## What the answers of a run have in common -/

/-- A task and its answer: a plain task has its own, and what a parameter is answered by has a
property. -/
def Task.AnsweredBy (I : TypeVar → Answer → Prop) : Task → Answer → Prop
  | .plain a, b => b = a
  | .param v, b => I v b

/-- All that is remembered of parameters has a property. -/
def State.Remembers (I : TypeVar → Answer → Prop) (s : State) : Prop :=
  ∀ v a, s.erased.lookup v = some a → I v a

/-- **An invariant of answers**: every way to answer a parameter gives it, for tasks of some kind. -/
structure Invariant (e : Erasure) (T : Task → Prop) (I : TypeVar → Answer → Prop) : Prop where
  tasks : ∀ {v}, T (.param v) → ∀ t ∈ e.tasks v, T t
  given : ∀ {v t}, e.given? v = some t → I v (.ok t)
  underWay : ∀ v, I v (.error .unresolvable)
  verdict : ∀ {v answers}, T (.param v) →
    List.Forall₂ (Task.AnsweredBy I) (e.tasks v) answers → I v (e.verdict v answers)

section Invariant

variable {T : Task → Prop} {I : TypeVar → Answer → Prop}

theorem State.remembers_new : State.Remembers I {} := fun _ _ h => nomatch h

theorem State.Remembers.pop {s : State} (hs : s.Remembers I) {v : TypeVar} {a : Answer}
    (ha : I v a) : (s.pop v a).Remembers I := by
  intro w b hw
  by_cases hwv : w = v
  · subst hwv
    rw [State.lookup_pop_self] at hw
    exact Option.some.inj hw ▸ ha
  · rw [State.lookup_pop_of_ne s a hwv] at hw
    exact hs w b hw

/-- **An invariant holds of all answers of a run and of all that it remembers.** -/
theorem Runs.invariant (hI : e.Invariant T I) {s s' : State} {ts : List Task} {as : List Answer}
    (h : e.Runs s ts as s') (hts : ∀ t ∈ ts, T t) (hs : s.Remembers I) :
    List.Forall₂ (Task.AnsweredBy I) ts as ∧ s'.Remembers I := by
  induction h with
  | nil => exact ⟨.nil, hs⟩
  | plain _ ih => exact (ih (List.forall_mem_cons.mp hts).2 hs).imp_left (.cons rfl)
  | given hgiven _ ih =>
    exact (ih (List.forall_mem_cons.mp hts).2 hs).imp_left (.cons (hI.given hgiven))
  | remembered _ hlookup _ ih =>
    exact (ih (List.forall_mem_cons.mp hts).2 hs).imp_left (.cons (hs _ _ hlookup))
  | underWay _ _ _ _ ih =>
    exact (ih (List.forall_mem_cons.mp hts).2 hs).imp_left (.cons (hI.underWay _))
  | computed _ _ _ _ _ ihrun ih =>
    obtain ⟨ht, hts⟩ := List.forall_mem_cons.mp hts
    obtain ⟨hanswers, hs₁⟩ := ihrun (hI.tasks ht) hs
    have ha := hI.verdict ht hanswers
    exact (ih hts (hs₁.pop ha)).imp_left (.cons ha)

/-- A property that does not depend on the parameter, of all answers. -/
theorem forall_mem_of_answeredBy {P : Answer → Prop} {ts : List Task} {as : List Answer}
    (h : List.Forall₂ (Task.AnsweredBy fun _ => P) ts as) (hplain : ∀ a, .plain a ∈ ts → P a) :
    ∀ a ∈ as, P a := by
  intro a ha
  obtain ⟨t, ht, hanswered⟩ := exists_of_mem_forall₂ h ha
  cases t with
  | plain b =>
    obtain rfl : a = b := hanswered
    exact hplain a ht
  | param v => exact hanswered

end Invariant

/-! ## The functions compute runs -/

theorem needs_var (e : Erasure) (v : TypeVar) : e.needs (.var v) = e.isMarked v := by
  simp [needs, needsAt, maxNesting]

section Marks

variable {e' : Erasure} (h : e'.marked = e.marked)

include h

omit h in
theorem needsAtList_congr {depth : Nat} {ts : List Ty}
    (hts : ∀ t ∈ ts, e'.needsAt depth t = e.needsAt depth t) :
    e'.needsAtList depth ts = e.needsAtList depth ts := by
  induction ts with
  | nil => rfl
  | cons t ts ih =>
    obtain ⟨ht, hts⟩ := List.forall_mem_cons.mp hts
    rw [needsAtList, needsAtList, ht, ih hts]

theorem needsAt_congr (depth : Nat) (t : Ty) : e'.needsAt depth t = e.needsAt depth t := by
  induction t using Ty.induct generalizing depth with
  | named n args ih => rw [needsAt, needsAt, needsAtList_congr fun t ht => ih t ht _]
  | array element rank ih => rw [needsAt, needsAt, ih]
  | var v => rw [needsAt, needsAt, isMarked, isMarked, h]
  | pointer target ih => rw [needsAt, needsAt, ih]
  | fnptr params ret ihp ihr =>
    rw [needsAt, needsAt, needsAtList_congr fun t ht => ihp t ht _, ihr]
  | void | dynamic | error => rw [needsAt, needsAt]

/-- **What has to be erased depends on the marks only**, not on the graph. -/
theorem needs_congr : e'.needs = e.needs := funext (needsAt_congr h 0)

theorem pick_congr : e'.pick = e.pick := by
  funext lists
  induction lists with
  | nil => rfl
  | cons candidates rest ih => simp only [pick, needs_congr h, ih]

end Marks

/-- A type is erased as its task says. -/
theorem simplifyBy_eq (step : VarStep) (s : State) (t : Ty) :
    e.simplifyBy step s t = match e.taskOf t with
      | .plain a => some (a, s)
      | .param v => step s v := by
  cases t with
  | var v =>
    have hshallow : tooDeep (.var v) = false := by simp [tooDeep, tooDeepAt, maxNesting]
    cases hv : e.isMarked v <;> simp [simplifyBy, needs_var, taskOf, hv, hshallow]
  | _ =>
    simp only [simplifyBy, taskOf, settled]
    split
    · rfl
    · split <;> rfl

/-- A step that computes runs. -/
def ComputesRuns (e : Erasure) (step : VarStep) : Prop :=
  ∀ s v a s', step s v = some (a, s') → e.Runs s [.param v] [a] s'

theorem ComputesRuns.runs_simplifyBy {step : VarStep} (hstep : e.ComputesRuns step) {s s' : State}
    {t : Ty} {a : Answer} (h : e.simplifyBy step s t = some (a, s')) :
    e.Runs s [e.taskOf t] [a] s' := by
  rw [simplifyBy_eq] at h
  split at h
  · rename_i htask
    cases h
    exact htask ▸ .plain .nil
  · rename_i v htask
    exact htask ▸ hstep s v a s' h

theorem ComputesRuns.runs_eraseEach {step : VarStep} (hstep : e.ComputesRuns step) {types : List Ty}
    {s s' : State} {found found' : List Ty}
    (h : e.eraseEach step s found types = some (found', s')) :
    ∃ answers, e.Runs s (types.map e.taskOf) answers s' ∧ found' = typesOf found answers := by
  induction types generalizing s found with
  | nil =>
    cases h
    exact ⟨[], .nil, rfl⟩
  | cons t types ih =>
    rw [eraseEach] at h
    split at h
    · cases h
    · rename_i r s₁ ht
      obtain ⟨answers, hrun, hfound⟩ := ih h
      exact ⟨.ok r :: answers, (hstep.runs_simplifyBy ht).cons hrun, hfound⟩
    · rename_i x s₁ ht
      obtain ⟨answers, hrun, hfound⟩ := ih h
      exact ⟨.error x :: answers, (hstep.runs_simplifyBy ht).cons hrun, hfound⟩

theorem ComputesRuns.runs_ofConstraints {step : VarStep} (hstep : e.ComputesRuns step)
    {s s' : State} {v : TypeVar} {a : Answer} (h : e.ofConstraints step s v = some (a, s')) :
    ∃ answers, e.Runs s (e.tasks v) answers s' ∧ a = e.verdict v answers := by
  rw [ofConstraints] at h
  split at h
  · rename_i t hfilter
    cases h
    exact ⟨[], by simp only [tasks, direct?, hfilter]; exact .nil,
      by simp only [verdict, direct?, hfilter]⟩
  · rename_i t u rest hfilter
    cases h
    exact ⟨[], by simp only [tasks, direct?, hfilter]; exact .nil,
      by simp only [verdict, direct?, hfilter]⟩
  · rename_i hfilter
    have hdirect : e.direct? v = none := by simp only [direct?, hfilter]
    have htasks : e.tasks v = (e.graph.constraintTypes v).map e.taskOf := by
      simp only [tasks, hdirect]
    split at h
    · cases h
    all_goals
      rename_i heach
      obtain ⟨answers, hrun, hfound⟩ := hstep.runs_eraseEach heach
      cases h
      refine ⟨answers, htasks ▸ hrun, ?_⟩
      simp only [verdict, hdirect, ← hfound]

theorem given?_eq_none {v : TypeVar} (h : ∀ t, e.marked.lookup v ≠ some (some t)) :
    e.given? v = none := by
  rw [given?, Option.join_eq_none_iff]
  rcases hlookup : e.marked.lookup v with _ | _ | t
  · exact .inl rfl
  · exact .inr rfl
  · exact absurd hlookup (h t)

/-- **Erasing a parameter within some fuel computes a run.** -/
theorem computesRuns (fuel : Nat) : e.ComputesRuns (e.eraseVarWithin fuel) := by
  induction fuel with
  | zero => exact fun s v a s' h => nomatch h
  | succ fuel ih =>
    intro s v a s' h
    rw [eraseVarWithin] at h
    split at h
    · rename_i given hgiven
      cases h
      exact .given (by rw [given?, hgiven, Option.join_some]) .nil
    rename_i hmarked
    have hgiven : e.given? v = none := given?_eq_none hmarked
    split at h
    · rename_i hlookup
      cases h
      exact .remembered hgiven hlookup .nil
    rename_i hlookup
    split at h
    · rename_i hvisiting
      cases h
      exact .underWay hgiven hlookup hvisiting .nil
    rename_i hvisiting
    split at h
    · cases h
    · rename_i hof
      cases h
      obtain ⟨answers, hrun, rfl⟩ := ih.runs_ofConstraints hof
      exact .computed hgiven hlookup hvisiting hrun .nil

/-! ## Fuel -/

/-- How many marked parameters are not under way. -/
def waiting (e : Erasure) (s : State) : Nat :=
  ((e.marked.map (·.1)).filter fun v => decide (v ∉ s.visiting)).length

theorem waiting_le (e : Erasure) (s : State) : e.waiting s ≤ e.marked.length :=
  Nat.le_trans (List.length_filter_le _ _) (Nat.le_of_eq (List.length_map _))

theorem waiting_congr {s s' : State} (h : s'.visiting = s.visiting) :
    e.waiting s' = e.waiting s := by
  rw [waiting, waiting, h]

/-- A marked parameter that starts is waiting no more. -/
theorem waiting_push_lt {s : State} {v : TypeVar} (hmarked : e.isMarked v = true)
    (hvisiting : v ∉ s.visiting) : e.waiting (s.push v) < e.waiting s := by
  have hfilter : (e.marked.map (·.1)).filter (fun w => decide (w ∉ (s.push v).visiting)) =
      ((e.marked.map (·.1)).filter fun w => decide (w ∉ s.visiting)).filter (· ≠ v) := by
    rw [List.filter_filter]
    exact List.filter_congr fun w _ => by simp [State.push]
  rw [waiting, waiting, hfilter, List.length_filter_lt_length_iff_exists]
  obtain ⟨p, hp, hpv⟩ := List.any_eq_true.mp hmarked
  obtain rfl := eq_of_beq hpv
  exact ⟨p.1, List.mem_filter.mpr ⟨List.mem_map_of_mem hp, by simpa using hvisiting⟩, by simp⟩

/-- The fuel is enough for a parameter whenever fewer marked ones wait. -/
def Enough (e : Erasure) (fuel : Nat) : Prop :=
  ∀ s v, e.isMarked v = true → e.waiting s < fuel → (e.eraseVarWithin fuel s v).isSome

theorem Enough.simplifyBy_isSome {fuel : Nat} (h : e.Enough fuel) {s : State}
    (hs : e.waiting s < fuel) (t : Ty) : (e.simplifyBy (e.eraseVarWithin fuel) s t).isSome := by
  rw [simplifyBy_eq]
  split
  · rfl
  · rename_i v htask
    exact h s v (eq_var_of_taskOf htask).2 hs

theorem Enough.eraseEach_isSome {fuel : Nat} (h : e.Enough fuel) {s : State}
    (hs : e.waiting s < fuel) (found types : List Ty) :
    (e.eraseEach (e.eraseVarWithin fuel) s found types).isSome := by
  induction types generalizing s found with
  | nil => rfl
  | cons t types ih =>
    obtain ⟨⟨a, s₁⟩, ht⟩ := Option.isSome_iff_exists.mp (h.simplifyBy_isSome hs t)
    have hs₁ : e.waiting s₁ < fuel := by
      rwa [waiting_congr ((computesRuns fuel).runs_simplifyBy ht).keeps.visiting]
    rw [eraseEach, ht]
    cases a with
    | ok r => exact ih hs₁ _
    | error x => exact ih hs₁ _

/-- With fuel for all marked parameters that wait, the constraints of a parameter can be erased. -/
theorem Enough.ofConstraints_isSome {fuel : Nat} (h : e.Enough fuel) {s : State}
    (hs : e.waiting s < fuel) (v : TypeVar) :
    (e.ofConstraints (e.eraseVarWithin fuel) s v).isSome := by
  rw [ofConstraints]
  split
  · rfl
  · rfl
  · obtain ⟨⟨found, s₁⟩, hfound⟩ :=
      Option.isSome_iff_exists.mp (h.eraseEach_isSome hs [] (e.graph.constraintTypes v))
    rw [hfound]
    rcases found with _ | ⟨t, _ | ⟨u, rest⟩⟩ <;> rfl

/-- What is left to show of a parameter once its constraints can be erased. -/
theorem eraseVarWithin_succ_isSome {fuel : Nat} {s : State} {v : TypeVar}
    (h : v ∉ s.visiting → (e.ofConstraints (e.eraseVarWithin fuel) (s.push v) v).isSome) :
    (e.eraseVarWithin (fuel + 1) s v).isSome := by
  rw [eraseVarWithin]
  split
  · rfl
  split
  · rfl
  split
  · rfl
  · rename_i hvisiting
    obtain ⟨_, hof⟩ := Option.isSome_iff_exists.mp (h hvisiting)
    rw [State.push] at hof
    rw [hof]
    rfl

/-- **Every marked parameter under way takes one unit of fuel.** -/
theorem enough (fuel : Nat) : e.Enough fuel := by
  induction fuel with
  | zero => exact fun s v _ hs => absurd hs (Nat.not_lt_zero _)
  | succ fuel ih =>
    intro s v hmarked hs
    refine eraseVarWithin_succ_isSome fun hvisiting => ih.ofConstraints_isSome ?_ v
    have hless := waiting_push_lt hmarked hvisiting
    omega

/-- **The fuel is enough from every state**, and so is any more. -/
theorem eraseVarWithin_isSome {fuel : Nat} (h : e.fuel ≤ fuel) (s : State) (v : TypeVar) :
    (e.eraseVarWithin fuel s v).isSome := by
  rw [Erasure.fuel] at h
  obtain ⟨room, rfl⟩ : ∃ room, fuel = room + 1 := ⟨fuel - 1, by omega⟩
  refine eraseVarWithin_succ_isSome fun _ => (enough _).ofConstraints_isSome ?_ v
  have hle := waiting_le e (s.push v)
  omega

/-- **Erasing a parameter is a run.** -/
theorem runs_eraseParam (s : State) (v : TypeVar) :
    e.Runs s [.param v] [(e.eraseParam s v).1] (e.eraseParam s v).2 := by
  obtain ⟨⟨a, s'⟩, h⟩ := Option.isSome_iff_exists.mp (eraseVarWithin_isSome (Nat.le_refl e.fuel) s v)
  rw [eraseParam, h, Option.getD_some]
  exact computesRuns e.fuel s v a s' h

/-- **Erasing a type is a run.** -/
theorem runs_simplify (s : State) (t : Ty) :
    e.Runs s [e.taskOf t] [(e.simplify s t).1] (e.simplify s t).2 := by
  rw [simplify, simplifyBy_eq]
  cases e.taskOf t with
  | plain a => exact .plain .nil
  | param v => exact runs_eraseParam s v

/-- A type that needs no erasure is its own erasure, from every state. -/
theorem simplify_of_needs {t : Ty} (h : e.needs t = false) (s : State) :
    e.simplify s t = (.ok t, s) := by
  simp [simplify, simplifyBy, h]

end LateBridge.Erasure
