import LateBridge.Proofs.Bridge.Coherence
import LateBridge.Proofs.Dispatch.Matching

/-!
# Proofs/Dispatch/Inferability — which calls can find their type arguments

    parameter types ──match with run-time types──▸ bindings ──one for each type parameter?──▸ call

A match binds what its pattern mentions and nothing else (`Graph.FilledHeads.isSome_lookup_of_fits`,
`Graph.Fits.without`).  So the parameter types alone decide whether a type parameter can be left over.
A plan is made only if they mention every marked one; nobody asks for the ones that stay, and a plan
with such a parameter in no parameter type can never be called (`planned_call_inferred`).
-/

namespace LateBridge

namespace Graph

variable {g : Graph} {generic : List TypeVar}

/-! ## What is left over -/

/-- An argument with a well-formed run-time type. -/
def Typed (g : Graph) (vars : List TypeVar) (arg : Value) : Prop :=
  ∃ t, arg.runtimeType? g = some t ∧ t.WellFormed g.names vars

theorem exists_of_instantiation {bound : Ty.Subst} {vs : List TypeVar} {f : BindFailure}
    (h : instantiation bound vs = .error f) :
    ∃ v ∈ vs, bound.lookup v = none ∧ f = .uninferred v.name := by
  induction vs with
  | nil => cases h
  | cons v vs ih =>
    rw [instantiation] at h
    split at h
    · rename_i hnone
      cases h
      exact ⟨v, List.mem_cons_self, hnone, rfl⟩
    · split at h
      · cases h
      · rename_i hrest
        cases h
        obtain ⟨w, hw, hnone, rfl⟩ := ih hrest
        exact ⟨w, List.mem_cons_of_mem _ hw, hnone, rfl⟩

theorem unifyArgs_ne_uninferred {pairs : List (Param × Value)} {bound : Ty.Subst} {x : String} :
    g.unifyArgs generic bound pairs ≠ .error (.uninferred x) := by
  induction pairs generalizing bound with
  | nil => rintro ⟨⟩
  | cons pair pairs ih =>
    obtain ⟨q, arg⟩ := pair
    rw [unifyArgs]
    split
    · exact ih
    split
    · exact ih
    · rename_i e _
      cases e <;> rintro ⟨⟩

theorem checkConstraints_ne_uninferred {s checked : Ty.Subst} {x : String} :
    g.checkConstraints s checked ≠ .error (.uninferred x) := by
  induction checked with
  | nil => rintro ⟨⟩
  | cons p checked ih =>
    rw [checkConstraints]
    split
    · exact ih
    · rintro ⟨⟩

theorem checkArgs_ne_uninferred {s : Ty.Subst} {pairs : List (Param × Value)} {x : String} :
    g.checkArgs s pairs ≠ .error (.uninferred x) := by
  induction pairs with
  | nil => rintro ⟨⟩
  | cons pair pairs ih =>
    obtain ⟨q, arg⟩ := pair
    rw [checkArgs]
    split
    · exact ih
    · rename_i e he
      rintro ⟨⟩
      unfold checkArg at he
      dsimp only at he
      split at he <;> split at he <;> cases he

/-- **A type parameter cannot be inferred** when all arguments match and none of them binds it. -/
theorem exists_of_uninferred {m : Method} {args : List Value} {x : String}
    (h : g.infer m args = .error (.uninferred x)) :
    args.length = m.params.length ∧ ∃ bound, g.unifyArgs m.vars [] (m.params.zip args) = .ok bound ∧
      ∃ v ∈ m.vars, bound.lookup v = none ∧ x = v.name := by
  rw [infer] at h
  split at h
  · cases h
  rename_i hlength
  refine ⟨by simpa using hlength, ?_⟩
  obtain h | ⟨bound, hbound, h⟩ := bind_eq_error_iff.mp h
  · exact absurd h unifyArgs_ne_uninferred
  refine ⟨bound, hbound, ?_⟩
  obtain h | ⟨s, -, h⟩ := bind_eq_error_iff.mp h
  · obtain ⟨v, hv, hnone, hname⟩ := exists_of_instantiation h
    exact ⟨v, hv, hnone, BindFailure.uninferred.inj hname⟩
  obtain h | ⟨-, -, h⟩ := bind_eq_error_iff.mp h
  · exact absurd h checkConstraints_ne_uninferred
  obtain h | ⟨-, -, h⟩ := bind_eq_error_iff.mp h
  · exact absurd h checkArgs_ne_uninferred
  · cases h

/-- What typed arguments leave over is mentioned by no parameter type. -/
theorem WellStored.unmentioned_of_uninferred (hg : g.WellStored) {m : Method} {args : List Value}
    {vs ws : List TypeVar} (hparams : ∀ q ∈ m.params, q.type.WellFormed g.names vs)
    (hargs : ∀ arg ∈ args, g.Typed ws arg) {x : String}
    (h : g.infer m args = .error (.uninferred x)) :
    ∃ v ∈ m.vars, v.name = x ∧ ∀ q ∈ m.params, v ∉ q.type.vars := by
  obtain ⟨hlength, bound, hbound, v, hv, hnone, rfl⟩ := exists_of_uninferred h
  refine ⟨v, hv, rfl, fun q hq hmentions => ?_⟩
  obtain ⟨arg, hx⟩ := exists_mem_zip hlength.symm hq
  obtain ⟨actual, hactual, hformed⟩ := hargs arg (List.of_mem_zip hx).2
  have hfits := solvedBy_unifyArgs_nil.mp ⟨bound, hbound, .refl bound⟩ _ hx actual hactual
  have hknown := hg.filledHeads.isSome_lookup_of_fits (hparams q hq).exact hformed.exact.filled hfits
    v hmentions hv
  rw [hnone] at hknown
  cases hknown

/-- **A type parameter that no parameter type mentions is never bound.** -/
theorem infer_ne_ok_of_unmentioned {m : Method} {v : TypeVar} (hv : v ∈ m.vars)
    (hunmentioned : ∀ q ∈ m.params, v ∉ q.type.vars) (args : List Value) (s : Ty.Subst) :
    g.infer m args ≠ .ok s := by
  intro h
  obtain ⟨-, hsolution, -⟩ := infer_eq_ok_iff_solution.mp h
  have hbelow : s.Below (s.without v) := by
    refine (hsolution.least _).mpr fun x hx actual hactual => ?_
    have hfits := (hsolution.least s).mp (.refl s) x hx actual hactual
    exact hfits.without (absurd · (hunmentioned x.1 (List.of_mem_zip hx).1))
  rw [← hsolution.vars] at hv
  obtain ⟨p, hp, rfl⟩ := List.mem_map.mp hv
  have hbound := hbelow _ _ (hsolution.lookup p hp)
  exact absurd ((s.lookup_without_self p.1).symm.trans hbound) nofun

end Graph

/-! ## Calls of planned methods -/

/-- **What calls of a planned method can infer.**  With arguments that have well-formed run-time
types, only a type parameter that stays and that no parameter type mentions can be left over; and if
there is one, no call binds. -/
theorem planned_call_inferred {docs : List GraphDocument} {g : Graph} {known : WellKnown}
    {names : MarkerNames} {ms : List Method} {plan : BridgePlan}
    (hnames : ∀ doc ∈ docs, ∀ e ∈ doc.entries, e.wellNamed = true) (h : load docs = .ok g)
    (hms : ∀ m ∈ ms, m ∈ g.methods)
    (hplan : plan ∈ (Planner.planGroup ⟨g, known, names⟩ ms).plans) :
    (∀ (vars : List TypeVar) (args : List Value) (x : String), (∀ arg ∈ args, g.Typed vars arg) →
      g.infer plan.method args = .error (.uninferred x) →
        ∃ v ∈ plan.retained, v.name = x ∧ ∀ q ∈ plan.method.params, v ∉ q.type.vars) ∧
      ∀ v ∈ plan.retained, (∀ q ∈ plan.method.params, v ∉ q.type.vars) →
        ∀ args s, g.infer plan.method args ≠ .ok s := by
  obtain ⟨m, hm, -, hmem⟩ := Planner.mem_planGroup.mp hplan
  obtain ⟨marks, hread, herrors, rfl⟩ := Planner.mem_planMethod.mp hmem
  have hmethod := hms m hm
  refine ⟨fun vars args x hargs hinfer => ?_, fun v hv hunmentioned =>
    Graph.infer_ne_ok_of_unmentioned (List.mem_of_mem_filter hv) hunmentioned⟩
  have hparams : ∀ q ∈ m.params, q.type.WellFormed g.names m.visible := fun q hq =>
    wellFormed_of_mem_methods h hnames hmethod
      (by simp only [Method.storedTypes, List.mem_append]
          exact .inl (.inl (.inr (List.mem_map_of_mem hq))))
  obtain ⟨v, hv, rfl, hunmentioned⟩ :=
    (wellStored_of_load h hnames).unmentioned_of_uninferred hparams hargs hinfer
  refine ⟨v, List.mem_filter.mpr ⟨hv, ?_⟩, rfl, hunmentioned⟩
  -- a marked parameter would be inferable, so that some parameter type mentions it
  by_contra hmarked
  have hinferable := Planner.inferable_of_hasErrors herrors (v := v) (by simpa using hmarked)
  obtain ⟨-, q, hq, hmentions⟩ := Planner.mem_inferable.mp hinferable
  exact hunmentioned q hq hmentions

/-- A method whose parameter types mention all of its type parameters: its calls find them. -/
theorem planned_call_inferred_box : ∃ (g : Graph) (known : WellKnown) (plan : BridgePlan),
    load (Given.docs "IBox<S[]>") = .ok g ∧
      plan ∈ (Planner.planGroup ⟨g, known, {}⟩ g.methods).plans ∧ plan.retained.length = 1 ∧
      ∀ (vars : List TypeVar) (args : List Value) (x : String), (∀ arg ∈ args, g.Typed vars arg) →
        g.infer plan.method args ≠ .error (.uninferred x) := by
  have hcheck : Given.check (Given.docs "IBox<S[]>") (fun _ plan =>
      plan.retained.length == 1 && plan.retained.all fun v =>
        plan.method.params.any fun q => q.type.vars.contains v) = true := by decide +kernel
  have hnames : ∀ doc ∈ Given.docs "IBox<S[]>", ∀ e ∈ doc.entries, e.wellNamed = true := by
    decide +kernel
  obtain ⟨g, known, plan, -, hload, -, hplan, -, hasked⟩ := Given.exists_plan_of_check hcheck
  obtain ⟨hlength, hmentioned⟩ := Bool.and_eq_true_iff.mp hasked
  refine ⟨g, known, plan, hload, hplan, eq_of_beq hlength, fun vars args x hargs hinfer => ?_⟩
  obtain ⟨v, hv, -, hunmentioned⟩ :=
    (planned_call_inferred hnames hload (fun m hm => hm) hplan).1 vars args x hargs hinfer
  obtain ⟨q, hq, hmentions⟩ := List.any_eq_true.mp (List.all_eq_true.mp hmentioned v hv)
  exact hunmentioned q hq (List.contains_iff_mem.mp hmentions)

/-! A method with a type parameter that its parameter types do not mention: it gets a plan. -/

namespace Leftovers

/-- A method with a marked type parameter and another one that only its caller could tell. -/
def keep : MethodDoc :=
  { name := "Keep", accessibility := "public", flags := {}
    typeParams := [
      { CoreLibrary.param "T" with attributes := [⟨"Bridgegen.DynamicBridgeAttribute", [], []⟩] },
      CoreLibrary.param "U"]
    params := [⟨"item", "T", .none, none, false, none⟩]
    returns := "void", attributes := [], location := none }

/-- A class with the method. -/
def docs : List GraphDocument :=
  [{ coreLibrary := false, usings := []
     types := CoreLibrary.bareTypes ++ [
      { CoreLibrary.classType "Shop" "Store" with isPartial := true, methods := [keep] }] }]

/-- An argument with a run-time type. -/
def item : Value := .object (.plain (.top (some "System") "String" [])) 0

end Leftovers

/-- **A planned method whose calls never bind**: its one argument has a run-time type, and its other
type parameter is left over. -/
theorem planned_call_not_inferred : ∃ (g : Graph) (known : WellKnown) (plan : BridgePlan),
    load Leftovers.docs = .ok g ∧ WellKnown.resolve g = .ok known ∧
      plan ∈ (Planner.planGroup ⟨g, known, {}⟩ g.methods).plans ∧
      plan.method.params.length = 1 ∧ (Leftovers.item.runtimeType? g).isSome ∧
      g.infer plan.method [Leftovers.item] = .error (.uninferred "U") := by
  have hcheck : Given.check Leftovers.docs (fun _ plan => plan.method.params.length == 1 &&
      (load Leftovers.docs).toOption.any fun g =>
        g.infer plan.method [Leftovers.item] == .error (.uninferred "U")) = true := by
    decide +kernel
  obtain ⟨g, known, plan, -, hload, hknown, hplan, -, hasked⟩ := Given.exists_plan_of_check hcheck
  obtain ⟨hlength, hinfer⟩ := Bool.and_eq_true_iff.mp hasked
  rw [hload] at hinfer
  exact ⟨g, known, plan, hload, hknown, hplan, eq_of_beq hlength, rfl, eq_of_beq hinfer⟩

end LateBridge
