import LateBridge.Proofs.Bridge.Coherence

/-!
# Proofs/Bridge/Clauses — the constraints of the parameters that stay

    constraint types ──erase each──▸ types ──leave out the roots──▸ constraint types of a clause

A wrapper of its own has a clause for each type parameter that stays.  Where every marked parameter
is settled, a constraint type erases to the same type whatever was erased before it, so a clause is
made type by type (`Planner.constraints_eq`).  No clause names a root.  But erasing takes
different types to one, and nobody looks whether a clause has a type already: the types of a clause
differ exactly if no two constraint types meet, of which at least one mentions a marked parameter
(`Planner.types_nodup_iff`).
-/

namespace LateBridge

namespace Erasure

variable {e : Erasure} {s : State}

/-- **What a type erases to, given the erasures of the marked parameters.** -/
def erase? (e : Erasure) (erasures : List (TypeVar × Ty)) (t : Ty) : Option Ty :=
  match e.taskOf t with
  | .plain a => a.toOption
  | .param v => erasures.lookup v

/-- An answer for a type without marked parameters is the type itself. -/
theorem eq_of_settled {t u : Ty} (hunmarked : ∀ v ∈ t.vars, e.isMarked v = false)
    (h : (e.settled t).toOption = some u) : u = t := by
  unfold settled at h
  split at h
  · exact (Option.some.inj h).symm
  rename_i hneeds
  split at h
  · cases h
  rename_i hdeep
  have hneeds : e.needs t = true := by simpa using hneeds
  obtain ⟨v, hv, hmarked⟩ := exists_isMarked_of_needsAt hneeds (Bool.not_eq_true _ ▸ hdeep)
  exact absurd (hmarked.symm.trans (hunmarked v hv)) (by decide)

/-- **A type without marked parameters erases to itself**, if to anything. -/
theorem eq_of_erase? {erasures : List (TypeVar × Ty)} {t u : Ty}
    (hunmarked : ∀ v ∈ t.vars, e.isMarked v = false) (h : e.erase? erasures t = some u) :
    u = t := by
  rw [erase?] at h
  split at h
  · rename_i a htask
    cases t with
    | var v =>
      rw [taskOf, hunmarked v (Ty.mem_vars_var.mpr rfl)] at htask
      cases htask
      exact (Option.some.inj h).symm
    | _ =>
      cases htask
      exact eq_of_settled hunmarked h
  · rename_i v htask
    obtain ⟨rfl, hmarked⟩ := eq_var_of_taskOf htask
    exact absurd (hmarked.symm.trans (hunmarked v (Ty.mem_vars_var.mpr rfl))) (by decide)

end Erasure

/-- The erasure of a method, over the marks that it carries. -/
def Planner.erasureOf (p : Planner) (m : Method) : Erasure :=
  match p.names.read m with
  | .ok (some marks) => p.erasure marks
  | _ => ⟨p.graph, p.known, []⟩

/-- Whether a type may be a constraint type: the roots may not. -/
def Planner.mayConstrain (p : Planner) (t : Ty) : Bool :=
  t != p.known.object && t != p.known.valueType

/-- **What a plan makes of a constraint type**: its erasure, unless that is a root. -/
def Planner.kept? (p : Planner) (plan : BridgePlan) (t : Ty) : Option Ty :=
  ((p.erasureOf plan.method).erase? plan.erasures t).filter p.mayConstrain

/-- **The clause of a type parameter that stays**, made type by type. -/
def Planner.clauseOf (p : Planner) (plan : BridgePlan) (v : TypeVar) : ConstraintClause :=
  ⟨v, p.graph.constraints v, (p.graph.constraintTypes v).filterMap (p.kept? plan)⟩

/-- **Two constraint types meet**: one type is made of both. -/
def Planner.Meet (p : Planner) (plan : BridgePlan) (t u : Ty) : Prop :=
  (p.kept? plan t).isSome ∧ p.kept? plan t = p.kept? plan u

instance (p : Planner) (plan : BridgePlan) (t u : Ty) : Decidable (p.Meet plan t u) :=
  inferInstanceAs (Decidable (_ ∧ _))

namespace Planner

variable {p : Planner}

section Marked

variable {m : Method} {marks : Marks} (hread : p.names.read m = .ok (some marks))
  (herrors : hasErrors (p.reports (p.draft m marks)) = false)

include hread in
theorem erasureOf_eq : p.erasureOf m = p.erasure marks := by
  rw [erasureOf, hread]

include hread herrors

/-- **Where the marked parameters are settled, a type erases as the plan says.** -/
theorem toOption_simplify {s : Erasure.State}
    (hs : s.Settles (p.erasure marks) (p.draft m marks).erased) (t : Ty) :
    ((p.erasure marks).simplify s t).1.toOption =
      (p.erasure marks).erase? (p.planOf (p.draft m marks)).erasures t := by
  have hrun := Erasure.runs_simplify (e := p.erasure marks) s t
  rw [Erasure.erase?]
  cases htask : (p.erasure marks).taskOf t with
  | plain a =>
    rw [htask] at hrun
    cases hrun with
    | plain hrest => rfl
  | param v =>
    obtain ⟨rfl, hmarked⟩ := Erasure.eq_var_of_taskOf htask
    have hv : v ∈ p.names.markedVars m := (mem_markedVars hread).mpr hmarked
    rw [← keys_erasures hread herrors] at hv
    obtain ⟨x, hx, rfl⟩ := List.mem_map.mp hv
    obtain ⟨u, hu⟩ := exists_lookup_of_mem hx
    dsimp only
    rw [hu, hs.simplify_var hmarked (mem_erasures.mp (mem_of_lookup hu))]
    rfl

/-- Several types, one after the other, do as well. -/
theorem toOption_threaded {s : Erasure.State}
    (hs : s.Settles (p.erasure marks) (p.draft m marks).erased) (ts : List Ty) :
    (threaded (p.erasure marks).simplify s ts).1.map Except.toOption =
      ts.map ((p.erasure marks).erase? (p.planOf (p.draft m marks)).erasures) := by
  rw [← List.forall₂_eq_eq_eq, List.forall₂_map_left_iff, List.forall₂_map_right_iff]
  refine (hs.threaded_simplify ts).1.flip.imp fun a t hanswer => ?_
  obtain ⟨s', hs', ha⟩ := hanswer
  rw [ha, toOption_simplify hread herrors hs']

/-- What was erased before a clause does not show in it. -/
theorem freshClause_eq {s : Erasure.State}
    (hs : s.Settles (p.erasure marks) (p.draft m marks).erased) (v : TypeVar) :
    (p.freshClause marks s v).1 = p.clauseOf (p.planOf (p.draft m marks)) v ∧
      (p.freshClause marks s v).2.Settles (p.erasure marks) (p.draft m marks).erased := by
  refine ⟨congrArg (ConstraintClause.mk v (p.graph.constraints v)) ?_,
    (hs.threaded_simplify (p.graph.constraintTypes v)).2⟩
  have hkept : p.kept? (p.planOf (p.draft m marks)) = Option.filter p.mayConstrain ∘
      (p.erasure marks).erase? (p.planOf (p.draft m marks)).erasures := by
    funext t
    rw [kept?, planOf_method, draft_method, erasureOf_eq hread]
    rfl
  -- answers are first turned into types or nothing, and then the roots are left out
  calc _ = ((threaded (p.erasure marks).simplify s (p.graph.constraintTypes v)).1.map
        Except.toOption).filterMap (Option.filter p.mayConstrain) := by
        rw [List.filterMap_map]
        refine List.filterMap_congr fun a _ => ?_
        cases a <;> rfl
    _ = _ := by rw [toOption_threaded hread herrors hs, List.filterMap_map, hkept]

theorem freshWrapper_constraints : (p.freshWrapper (p.draft m marks)).constraints =
    (retained m marks).map (p.clauseOf (p.planOf (p.draft m marks))) := by
  obtain ⟨hall, -⟩ := threaded_forall₂ (f := p.freshClause marks) (retained m marks)
    (I := (·.Settles (p.erasure marks) (p.draft m marks).erased))
    (R := fun v c => c = p.clauseOf (p.planOf (p.draft m marks)) v)
    (fun v _ s hs => freshClause_eq hread herrors hs v) (state_settles m marks)
  rw [← List.forall₂_eq_eq_eq, List.forall₂_map_right_iff]
  exact hall.flip

end Marked

/-! ## Plans of a group -/

section Group

variable {ms : List Method} {plan : BridgePlan} (hplan : plan ∈ (p.planGroup ms).plans)

include hplan

/-- A constraint type without marked parameters stays as it is, or is left out. -/
theorem eq_of_kept? {t u : Ty} (hunmarked : ∀ v ∈ t.vars, v ∉ p.names.markedVars plan.method)
    (h : p.kept? plan t = some u) : u = t := by
  obtain ⟨m, -, -, hmem⟩ := mem_planGroup.mp hplan
  obtain ⟨marks, hread, -, rfl⟩ := mem_planMethod.mp hmem
  rw [kept?, planOf_method, draft_method, erasureOf_eq hread] at h
  refine Erasure.eq_of_erase? (fun v hv => ?_) (Option.filter_eq_some_iff.mp h).1
  exact Bool.not_eq_true _ ▸ fun hmarked => hunmarked v hv ((mem_markedVars hread).mpr hmarked)

variable (hnone : plan.definition? = none)

include hnone

/-- **The clauses of a wrapper of its own** are those of the parameters that stay. -/
theorem constraints_eq : plan.wrapper.constraints = plan.retained.map (p.clauseOf plan) := by
  obtain ⟨m, -, -, hmem⟩ := mem_planGroup.mp hplan
  obtain ⟨marks, hread, herrors, rfl⟩ := mem_planMethod.mp hmem
  rw [planOf_wrapper hnone]
  exact freshWrapper_constraints hread herrors

theorem types_eq {c : ConstraintClause} (hc : c ∈ plan.wrapper.constraints) :
    c.types = (p.graph.constraintTypes c.param).filterMap (p.kept? plan) := by
  rw [constraints_eq hplan hnone] at hc
  obtain ⟨v, -, rfl⟩ := List.mem_map.mp hc
  rfl

/-- No clause has a root. -/
theorem ne_root_of_mem_types {c : ConstraintClause} (hc : c ∈ plan.wrapper.constraints) {t : Ty}
    (ht : t ∈ c.types) : t ≠ p.known.object ∧ t ≠ p.known.valueType := by
  rw [types_eq hplan hnone hc] at ht
  obtain ⟨u, -, hkept⟩ := List.mem_filterMap.mp ht
  simpa [mayConstrain] using (Option.filter_eq_some_iff.mp hkept).2

/-- **The types of a clause differ** exactly if no two constraint types meet, of which at least one
mentions a marked parameter. -/
theorem types_nodup_iff {c : ConstraintClause} (hc : c ∈ plan.wrapper.constraints)
    (hdistinct : (p.graph.constraintTypes c.param).Nodup) :
    c.types.Nodup ↔ (p.graph.constraintTypes c.param).Pairwise fun t u =>
      (∃ v ∈ t.vars ++ u.vars, v ∈ p.names.markedVars plan.method) → ¬p.Meet plan t u := by
  rw [types_eq hplan hnone hc, List.Nodup, List.pairwise_filterMap]
  constructor
  · intro hdiffer
    refine hdiffer.imp fun hdiffer _ hmeet => ?_
    obtain ⟨hsome, hsame⟩ := hmeet
    obtain ⟨r, hr⟩ := Option.isSome_iff_exists.mp hsome
    exact hdiffer r hr r (hsame ▸ hr) rfl
  · intro hapart
    refine (hapart.and hdistinct).imp fun {t u} hboth r hr r' hr' heq => ?_
    obtain ⟨hapart, hne⟩ := hboth
    subst heq
    have hmeet : p.Meet plan t u := ⟨Option.isSome_of_eq_some hr, hr.trans hr'.symm⟩
    by_cases hmarked : ∃ v ∈ t.vars ++ u.vars, v ∈ p.names.markedVars plan.method
    · exact hapart hmarked hmeet
    · -- neither of them is changed
      push Not at hmarked
      have ht := eq_of_kept? hplan (fun v hv => hmarked v (List.mem_append_left _ hv)) hr
      have hu := eq_of_kept? hplan (fun v hv => hmarked v (List.mem_append_right _ hv)) hr'
      exact hne (ht.symm.trans hu)

/-- **Clauses that are derived again**: there is one for each type parameter that stays, it has no
root, and where the declared constraint types are distinct, so are its own exactly if no two of them
meet, of which at least one mentions a marked parameter. -/
theorem clauses_distinct_iff :
    plan.wrapper.constraints.map (·.param) = plan.retained ∧
    ∀ c ∈ plan.wrapper.constraints,
      (∀ t ∈ c.types, t ≠ p.known.object ∧ t ≠ p.known.valueType) ∧
      ((p.graph.constraintTypes c.param).Nodup →
        (c.types.Nodup ↔ (p.graph.constraintTypes c.param).Pairwise fun t u =>
          (∃ v ∈ t.vars ++ u.vars, v ∈ p.names.markedVars plan.method) → ¬p.Meet plan t u)) := by
  refine ⟨?_, fun c hc => ⟨fun t ht => ne_root_of_mem_types hplan hnone hc ht,
    types_nodup_iff hplan hnone hc⟩⟩
  rw [constraints_eq hplan hnone, List.map_map]
  exact List.map_id _

end Group

end Planner

/-! A method with a marked type parameter, and another one that has to be a shape and a box of the
marked one. -/

namespace Clauses

/-- The method. -/
def put : MethodDoc :=
  { name := "Put", accessibility := "public", flags := {}
    typeParams := [
      { CoreLibrary.param "T" with attributes := [⟨"Bridgegen.DynamicBridgeAttribute", [], []⟩] },
      { CoreLibrary.param "U" with constraints := ["IShape", "IBox<T>"] }]
    params := [⟨"item", "T", .none, none, false, none⟩, ⟨"rest", "U", .none, none, false, none⟩]
    returns := "void", attributes := [], location := none }

/-- A class with the method, where boxes are something. -/
def docs (ofBox : String) : List GraphDocument :=
  [{ coreLibrary := false, usings := []
     types := CoreLibrary.bareTypes ++ [
      CoreLibrary.interfaceType "Shop" "IShape", CoreLibrary.interfaceType "Shop" "ISized",
      { CoreLibrary.interfaceType "Shop" "IBox" with
        typeParams := [CoreLibrary.param "C"], interfaces := [ofBox] },
      { CoreLibrary.classType "Shop" "Store" with isPartial := true, methods := [put] }] }]

/-- An interface without type parameters. -/
def plain (name : String) : Ty := .plain (.top (some "Shop") name [])

/-- Whether documents give one plan, with a wrapper of its own that has one clause, of which
something holds. -/
def check (docs : List GraphDocument)
    (asked : Planner → BridgePlan → ConstraintClause → Bool) : Bool :=
  match load docs with
  | .error _ => false
  | .ok g =>
    match WellKnown.resolve g with
    | .error _ => false
    | .ok known =>
      match (Planner.planGroup ⟨g, known, {}⟩ g.methods).plans with
      | [plan] =>
        match plan.wrapper.constraints with
        | [c] => plan.definition? == none && asked ⟨g, known, {}⟩ plan c
        | _ => false
      | _ => false

theorem exists_clause_of_check {docs : List GraphDocument}
    {asked : Planner → BridgePlan → ConstraintClause → Bool} (h : check docs asked = true) :
    ∃ p : Planner, load docs = .ok p.graph ∧ WellKnown.resolve p.graph = .ok p.known ∧
      ∃ plan ∈ (p.planGroup p.graph.methods).plans, plan.definition? = none ∧
        ∃ c ∈ plan.wrapper.constraints, asked p plan c = true := by
  rw [check] at h
  split at h
  · cases h
  rename_i g hload
  split at h
  · cases h
  rename_i known hknown
  split at h
  · rename_i plan hplans
    split at h
    · rename_i c hclauses
      obtain ⟨hnone, hasked⟩ := Bool.and_eq_true_iff.mp h
      exact ⟨⟨g, known, {}⟩, hload, hknown, plan, by simp [hplans], eq_of_beq hnone, c,
        by simp [hclauses], hasked⟩
    · cases h
  · cases h

end Clauses

/-- Boxes that are sized: the other type parameter has to be a shape and sized. -/
theorem clauses_distinct_sized : ∃ p : Planner, load (Clauses.docs "ISized") = .ok p.graph ∧
    WellKnown.resolve p.graph = .ok p.known ∧
      ∃ plan ∈ (p.planGroup p.graph.methods).plans, plan.definition? = none ∧
        ∃ c ∈ plan.wrapper.constraints, (p.graph.constraintTypes c.param).Nodup ∧
          c.types = [Clauses.plain "IShape", Clauses.plain "ISized"] ∧ c.types.Nodup := by
  have hcheck : Clauses.check (Clauses.docs "ISized") (fun p plan c =>
      decide (p.graph.constraintTypes c.param).Nodup &&
        c.types == [Clauses.plain "IShape", Clauses.plain "ISized"] &&
        decide ((p.graph.constraintTypes c.param).Pairwise fun t u => ¬p.Meet plan t u)) =
          true := by
    decide +kernel
  obtain ⟨p, hload, hknown, plan, hplan, hnone, c, hc, hasked⟩ :=
    Clauses.exists_clause_of_check hcheck
  simp only [Bool.and_eq_true, beq_iff_eq, decide_eq_true_eq] at hasked
  obtain ⟨⟨hdistinct, htypes⟩, hapart⟩ := hasked
  refine ⟨p, hload, hknown, plan, hplan, hnone, c, hc, hdistinct, htypes, ?_⟩
  refine (((Planner.clauses_distinct_iff hplan hnone).2 c hc).2 hdistinct).mpr ?_
  refine hapart.imp ?_
  exact fun hmeet _ => hmeet

/-- **Boxes that are shapes**: the other type parameter has to be a shape, and a shape again. -/
theorem clause_repeats : ∃ p : Planner, load (Clauses.docs "IShape") = .ok p.graph ∧
    WellKnown.resolve p.graph = .ok p.known ∧
      ∃ plan ∈ (p.planGroup p.graph.methods).plans, plan.definition? = none ∧
        (∀ v ∈ plan.retained, (p.graph.constraintTypes v).Nodup) ∧
        ∃ c ∈ plan.wrapper.constraints,
          c.types = [Clauses.plain "IShape", Clauses.plain "IShape"] ∧ ¬c.types.Nodup := by
  have hcheck : Clauses.check (Clauses.docs "IShape") (fun p plan c =>
      decide (∀ v ∈ plan.retained, (p.graph.constraintTypes v).Nodup) &&
        c.types == [Clauses.plain "IShape", Clauses.plain "IShape"]) = true := by decide +kernel
  obtain ⟨p, hload, hknown, plan, hplan, hnone, c, hc, hasked⟩ :=
    Clauses.exists_clause_of_check hcheck
  simp only [Bool.and_eq_true, beq_iff_eq, decide_eq_true_eq] at hasked
  exact ⟨p, hload, hknown, plan, hplan, hnone, hasked.1, c, hc, hasked.2, by simp [hasked.2]⟩

end LateBridge
