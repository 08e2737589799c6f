import LateBridge.Proofs.Dispatch.Inferability
import LateBridge.Proofs.Dispatch.Reordering

/-!
# Proofs/Dispatch/Forgetting — a null takes information away, and adds none

    arguments ──match──▸ bindings ──▸ type arguments
        │ some of them become null       ║  the same
        ▾                                ║
    arguments ──match──▸ bindings ──▸ type arguments, or one of them is missing

An argument without a run-time type asks nothing of the type arguments, so what solved all
equations of a call solves those that are left, and their least solution is below it.  It is the
same one if it binds every type parameter, and then all checks come out as before, those of the new
nulls apart (`Graph.infer_forgetting`).
-/

namespace LateBridge

namespace Graph

variable {g : Graph} {s : Ty.Subst} {args args' : List Value}

/-! ## Forgotten arguments -/

/-- **Arguments of which some are forgotten**: an argument stays as it is, or one without a run-time
type takes its place. -/
def Forgets (g : Graph) (args args' : List Value) : Prop :=
  List.Forall₂ (fun arg arg' => arg' = arg ∨ arg'.runtimeType? g = none) args args'

/-- A parameter still has its argument, or one without a run-time type. -/
theorem Forgets.mem_zip_or (h : g.Forgets args args') {qs : List Param} {x : Param × Value}
    (hx : x ∈ qs.zip args') : x ∈ qs.zip args ∨ x.2.runtimeType? g = none := by
  induction h generalizing qs with
  | nil => simp at hx
  | @cons arg arg' args args' harg _ ih =>
    cases qs with
    | nil => simp at hx
    | cons q qs =>
      rw [List.zip_cons_cons, List.mem_cons] at hx
      obtain rfl | hx := hx
      · refine harg.imp_left fun heq => ?_
        rw [heq]
        exact List.mem_cons_self
      · exact (ih hx).imp_left (List.mem_cons_of_mem _)

/-! ## What is left of the bindings -/

/-- **What solves the equations of a call solves those that are left**, so the arguments match. -/
theorem Solution.exists_unifyArgs_of_forgets {generic : List TypeVar} {qs : List Param}
    (hs : g.Solution generic (qs.zip args) s) (h : g.Forgets args args') :
    ∃ bound, g.unifyArgs generic [] (qs.zip args') = .ok bound ∧ bound.Below s := by
  have hsolves := (hs.least s).mp (.refl s)
  refine solvedBy_unifyArgs_nil.mpr fun x hx actual hactual => ?_
  obtain hkept | hnone := h.mem_zip_or hx
  · exact hsolves x hkept actual hactual
  · exact absurd (hnone.symm.trans hactual) (Option.some_ne_none _).symm

/-- **Bindings below a solution give the same type arguments**, if they give any. -/
theorem Solution.eq_of_instantiation {generic : List TypeVar} {pairs : List (Param × Value)}
    {bound s' : Ty.Subst} (hs : g.Solution generic pairs s) (hbelow : bound.Below s)
    (hs' : instantiation bound generic = .ok s') : s' = s := by
  obtain ⟨hvars, hbound⟩ := instantiation_eq_ok_iff_forall_mem.mp hs'
  have hself : instantiation s generic = .ok s :=
    instantiation_eq_ok_iff_forall_mem.mpr ⟨hs.vars, hs.lookup⟩
  have habove : instantiation s generic = .ok s' :=
    instantiation_eq_ok_iff_forall_mem.mpr ⟨hvars, fun p hp => hbelow _ _ (hbound p hp)⟩
  exact Except.ok.inj (habove.symm.trans hself)

/-! ## What is left of the checks -/

/-- Once the arguments of a call match, its type arguments and the checks decide. -/
theorem infer_of_unifyArgs {m : Method} {bound : Ty.Subst} (hlength : args.length = m.params.length)
    (hbound : g.unifyArgs m.vars [] (m.params.zip args) = .ok bound) :
    g.infer m args = (do
      let s ← instantiation bound m.vars
      g.checkConstraints s s
      g.checkArgs s (m.params.zip args)
      return s) := by
  have hcount : (args.length != m.params.length) = false := by rw [hlength, bne_self_eq_false]
  simp only [infer, hcount, Bool.false_eq_true, if_false, hbound]
  rfl

theorem exists_of_checkArgs {pairs : List (Param × Value)} {f : BindFailure}
    (h : g.checkArgs s pairs = .error f) : ∃ x ∈ pairs, g.checkArg s x.1 x.2 = .error f := by
  induction pairs with
  | nil => cases h
  | cons x pairs ih =>
    rw [checkArgs] at h
    split at h
    · obtain ⟨y, hy, hf⟩ := ih h
      exact ⟨y, List.mem_cons_of_mem _ hy, hf⟩
    · rename_i f' hf'
      cases h
      exact ⟨x, List.mem_cons_self, hf'⟩

/-- A value without a run-time type fails to convert only to a type that has no null. -/
theorem checkArg_of_untyped {q : Param} {arg : Value} {f : BindFailure}
    (harg : arg.runtimeType? g = none) (h : g.checkArg s q arg = .error f) :
    g.isNonNullable (q.type.subst s) = true ∧
      f = .nullForValueType q.name (q.type.subst s).display := by
  simp only [checkArg, harg] at h
  split at h
  · rename_i hnullable
    cases h
    exact ⟨hnullable, rfl⟩
  · cases h

/-- **Null takes information away and adds none.**  Where arguments of a call that binds are
replaced by values without a run-time type, the call binds the same type arguments; or there is a
type argument that it cannot find any more; or one of the new values is a null for a value type.  It
binds no other type, and nothing else goes wrong. -/
theorem infer_forgetting {m : Method} (h : g.infer m args = .ok s) (hargs : g.Forgets args args') :
    g.infer m args' = .ok s ∨
      (∃ v ∈ m.vars, g.infer m args' = .error (.uninferred v.name)) ∨
      ∃ x ∈ m.params.zip args', x.2.runtimeType? g = none ∧
        g.isNonNullable (x.1.type.subst s) = true ∧
        g.infer m args' = .error (.nullForValueType x.1.name (x.1.type.subst s).display) := by
  obtain ⟨hlength, hsolution, hconstraints, hchecks⟩ := infer_eq_ok_iff_solution.mp h
  obtain ⟨bound, hbound, hbelow⟩ := hsolution.exists_unifyArgs_of_forgets hargs
  rw [infer_of_unifyArgs (hargs.length_eq.symm.trans hlength) hbound]
  cases hs' : instantiation bound m.vars with
  | error f =>
    obtain ⟨v, hv, -, rfl⟩ := exists_of_instantiation hs'
    exact .inr (.inl ⟨v, hv, rfl⟩)
  | ok s' =>
    obtain rfl := hsolution.eq_of_instantiation hbelow hs'
    have hsame : g.checkConstraints s' s' = .ok () := checkConstraints_eq_ok_iff.mpr hconstraints
    cases hnulls : g.checkArgs s' (m.params.zip args') with
    | ok =>
      refine .inl ?_
      simp [bind, Except.bind, hsame, hnulls, pure, Except.pure]
    | error f =>
      -- an argument that stayed converts as it did
      obtain ⟨x, hx, hf⟩ := exists_of_checkArgs hnulls
      obtain hkept | hnone := hargs.mem_zip_or hx
      · rw [hchecks x hkept] at hf
        cases hf
      · obtain ⟨hnullable, rfl⟩ := checkArg_of_untyped hnone hf
        refine .inr (.inr ⟨x, hx, hnone, hnullable, ?_⟩)
        simp [bind, Except.bind, hsame, hnulls]

end Graph

/-- A box says what its items are: if the call binds with a null for the item, it binds birds. -/
theorem infer_forgetting_mirror : ∃ (g : Graph) (m : Method), load Mirror.docs = .ok g ∧
    m ∈ g.methods ∧ g.infer m Mirror.args = .ok (m.vars.map (·, Mirror.bird)) ∧
    g.Forgets Mirror.args (Mirror.args.set 0 .null) ∧
    g.infer m (Mirror.args.set 0 .null) = .ok (m.vars.map (·, Mirror.bird)) := by
  have hcheck : loadsWith Mirror.docs (fun g _ => g.methods.any fun m =>
      g.infer m Mirror.args == .ok (m.vars.map (·, Mirror.bird)) &&
        (g.infer m (Mirror.args.set 0 .null)).isOk) = true := by decide +kernel
  obtain ⟨g, -, hload, -, h⟩ := exists_of_loadsWith hcheck
  obtain ⟨m, hm, h⟩ := List.any_eq_true.mp h
  obtain ⟨hinfer, hbinds⟩ := Bool.and_eq_true_iff.mp h
  have hinfer := eq_of_beq hinfer
  have hforgets : g.Forgets Mirror.args (Mirror.args.set 0 .null) :=
    .cons (.inr rfl) (.cons (.inl rfl) .nil)
  refine ⟨g, m, hload, hm, hinfer, hforgets, ?_⟩
  obtain hsame | ⟨v, -, hfails⟩ | ⟨x, -, -, -, hfails⟩ := Graph.infer_forgetting hinfer hforgets
  · exact hsame
  · rw [hfails] at hbinds
    cases hbinds
  · rw [hfails] at hbinds
    cases hbinds

end LateBridge
