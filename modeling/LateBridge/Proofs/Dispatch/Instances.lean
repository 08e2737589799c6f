import LateBridge.Proofs.Dispatch.Equations

/-!
# Proofs/Dispatch/Instances — late binding finds the types that were put in

    parameter types ──put types in──▸ argument types ──match──▸ the same types

Where no type has another instantiation of its declaration above it, a pattern and its own instance
ask that the type parameters are what was put in for them, and for nothing else
(`OneInstance.fits_subst_iff`).  So objects of the instantiated parameter types bind exactly what was
put in, if every type parameter occurs in a parameter type and none stands under a pointer
(`OneInstance.infer_eq`).
-/

namespace LateBridge

/-! ## Variables under pointers -/

namespace Ty

mutual

/-- The variables of a type that stand under a pointer or a function pointer. -/
def pointedVars : Ty → List TypeVar
  | .named _ args => pointedVarsList args
  | .array element _ => element.pointedVars
  | .pointer target => target.vars
  | .fnptr params ret => varsList params ++ ret.vars
  | .var _ | .void | .dynamic | .error => []

/-- Those of several types. -/
def pointedVarsList : List Ty → List TypeVar
  | [] => []
  | t :: ts => t.pointedVars ++ pointedVarsList ts

end

theorem pointedVarsList_eq_flatMap (ts : List Ty) :
    pointedVarsList ts = ts.flatMap pointedVars := by
  induction ts with
  | nil => rfl
  | cons t ts ih => rw [pointedVarsList, ih, List.flatMap_cons]

theorem mem_pointedVars_named {v : TypeVar} {n : DeclName} {args : List Ty} :
    v ∈ (named n args).pointedVars ↔ ∃ a ∈ args, v ∈ a.pointedVars := by
  rw [pointedVars, pointedVarsList_eq_flatMap, List.mem_flatMap]

/-- A substitution knows variables. -/
def Subst.Knows (s : Subst) (vs : List TypeVar) : Prop := ∀ v ∈ vs, (s.lookup v).isSome

end Ty

namespace Graph

variable {g : Graph} {generic : List TypeVar} {s r : Ty.Subst}

/-! ## Instantiations above a type -/

/-- **A type is the only instantiation of its declaration** among itself and what is above it. -/
def Single (g : Graph) (n : DeclName) (args : List Ty) : Prop :=
  ∀ args', .named n args' ∈ g.baseChain (.named n args) ++ g.allInterfaces (.named n args) →
    args' = args

theorem eraseDups_of_forall_eq {α : Type} [BEq α] [LawfulBEq α] {a : α} {as : List α}
    (h : ∀ b ∈ as, b = a) : (a :: as).eraseDups = [a] := by
  rw [List.eraseDups_cons, List.filter_eq_nil_iff.mpr]
  · rfl
  · intro b hb
    simp [h b hb]

theorem Single.instances_eq {n : DeclName} {args : List Ty} (h : g.Single n args) :
    g.instances n (.named n args) = [.named n args] := by
  rw [instances, List.filter_cons_of_pos (by simp [Ty.declName?])]
  refine eraseDups_of_forall_eq fun b hb => ?_
  obtain ⟨hmem, hname⟩ := List.mem_filter.mp hb
  cases b with
  | named m args' =>
    obtain rfl : m = n := by simpa [Ty.declName?] using hname
    rw [h args' hmem]
  | _ => simp [Ty.declName?] at hname

/-! ## Patterns and their instances -/

theorem forall_fits_zip_map {args : List Ty} {f : Ty → Ty} :
    (∀ x ∈ args.zip (args.map f), g.Fits generic r x.1 x.2) ↔
      ∀ a ∈ args, g.Fits generic r a (f a) := by
  rw [← List.map_prod_left_eq_zip, List.forall_mem_map]

/-- **A pattern and its own instance ask for what was put in**, if each named type in the instance is
the only instantiation of its declaration. -/
theorem fits_subst_iff {t : Ty}
    (hone : t.EachNamed fun n args => g.Single n (args.map (Ty.subst s)))
    (hpointed : ∀ v ∈ t.pointedVars, v ∉ generic) :
    g.Fits generic r t (t.subst s) ↔
      ∀ v ∈ t.vars, v ∈ generic → r.lookup v = some ((Ty.var v).subst s) := by
  have hskip {t actual : Ty} (h : ∀ v ∈ t.vars, v ∉ generic) : g.Fits generic r t actual ↔
      ∀ v ∈ t.vars, v ∈ generic → r.lookup v = some ((Ty.var v).subst s) :=
    iff_of_true (.skip (mentions_eq_false.mpr h)) fun v hv hgeneric => absurd hgeneric (h v hv)
  induction hone with
  | var v =>
    by_cases hv : v ∈ generic
    · have hmentions : mentions generic (.var v) = true := by simpa [mentions, Ty.vars] using hv
      rw [fits_var_iff hmentions]
      simp only [Ty.mem_vars_var, forall_eq, hv, forall_const]
    · exact hskip fun w hw => Ty.mem_vars_var.mp hw ▸ hv
  | @array element rank _ ih =>
    cases hmentions : mentions generic (.array element rank) with
    | false => exact hskip (mentions_eq_false.mp hmentions)
    | true =>
      rw [fits_array_iff hmentions, Ty.subst_array, Ty.vars]
      refine Iff.trans ?_ (ih hpointed)
      simp
  | @named n args hsingle _ ih =>
    cases hmentions : mentions generic (.named n args) with
    | false => exact hskip (mentions_eq_false.mp hmentions)
    | true =>
      rw [fits_named_iff hmentions, Ty.subst_named, hsingle.instances_eq]
      have hargs (a) (ha : a ∈ args) := ih a ha fun v hv =>
        hpointed v (Ty.mem_pointedVars_named.mpr ⟨a, ha, hv⟩)
      calc (∃ m args', [Ty.named n (args.map (Ty.subst s))] = [.named m args'] ∧
            ∀ x ∈ args.zip args', g.Fits generic r x.1 x.2)
        _ ↔ ∀ a ∈ args, g.Fits generic r a (a.subst s) := by
          rw [← forall_fits_zip_map]
          constructor
          · rintro ⟨m, args', ⟨⟩, h⟩
            exact h
          · exact fun h => ⟨n, _, rfl, h⟩
        _ ↔ ∀ a ∈ args, ∀ v ∈ a.vars, v ∈ generic → r.lookup v = some ((Ty.var v).subst s) :=
          forall₂_congr hargs
        _ ↔ ∀ v ∈ (Ty.named n args).vars, v ∈ generic →
            r.lookup v = some ((Ty.var v).subst s) := by
          simp only [Ty.mem_vars_named]
          constructor
          · rintro h v ⟨a, ha, hv⟩
            exact h a ha v hv
          · intro h a ha v hv
            exact h v ⟨a, ha, hv⟩
  | pointer => exact hskip fun v hv => hpointed v (Ty.mem_vars_pointer.mp hv)
  | fnptr => exact hskip hpointed
  | void | dynamic | error => exact hskip (List.forall_mem_nil _)

/-- A substitution that knows the type parameters says what was put in for them. -/
theorem OneInstance.fits_subst_iff (hg : g.OneInstance) (hs : s.Knows generic) (t : Ty)
    (hpointed : ∀ v ∈ t.pointedVars, v ∉ generic) :
    g.Fits generic r t (t.subst s) ↔
      ∀ v ∈ t.vars, v ∈ generic → r.lookup v = s.lookup v := by
  rw [Graph.fits_subst_iff (Ty.eachNamed_of_forall (fun n args => hg n _) t) hpointed]
  refine forall₃_congr fun v _ hv => ?_
  obtain ⟨u, hu⟩ := Option.isSome_iff_exists.mp (hs v hv)
  rw [Ty.subst_var, hu, Option.getD_some]

/-! ## Calls with instances -/

/-- An object of a run-time type. -/
def IsObject (t : Ty) (arg : Value) : Prop := ∃ id, arg = .object t id

/-- **What was put in is the least solution** of parameters and objects of their instances, if every
type parameter occurs in a parameter type and none stands under a pointer. -/
theorem OneInstance.solution_of_objects (hg : g.OneInstance) {qs : List Param} {args : List Value}
    (hs : s.map (·.1) = generic) (hgeneric : generic.Nodup)
    (hoccurs : ∀ v ∈ generic, ∃ q ∈ qs, v ∈ q.type.vars)
    (hpointed : ∀ q ∈ qs, ∀ v ∈ q.type.pointedVars, v ∉ generic)
    (hargs : List.Forall₂ (fun q arg => IsObject (q.type.subst s) arg) qs args) :
    g.Solution generic (qs.zip args) s := by
  have hlookup : ∀ p ∈ s, s.lookup p.1 = some p.2 := fun p => lookup_of_mem (hs ▸ hgeneric)
  have hknows : s.Knows generic := by
    intro v hv
    rw [← hs] at hv
    obtain ⟨p, hp, rfl⟩ := List.mem_map.mp hv
    exact Option.isSome_of_eq_some (hlookup p hp)
  refine ⟨hs, hlookup, fun r => ?_⟩
  have hfits : ∀ x ∈ qs.zip args, g.FitsArg generic r x ↔
      ∀ v ∈ x.1.type.vars, v ∈ generic → r.lookup v = s.lookup v := by
    rintro ⟨q, arg⟩ hx
    obtain ⟨id, rfl⟩ := (List.forall₂_iff_zip.mp hargs).2 hx
    simp only [FitsArg, Value.runtimeType?, Option.some.injEq, forall_eq']
    exact hg.fits_subst_iff hknows q.type (hpointed q (List.of_mem_zip hx).1)
  rw [forall₂_congr hfits]
  constructor
  · intro hbelow x _ v _ hv
    obtain ⟨u, hu⟩ := Option.isSome_iff_exists.mp (hknows v hv)
    rw [hu, hbelow v u hu]
  · intro h v u hu
    have hv : v ∈ generic := hs ▸ List.mem_map_of_mem (mem_of_lookup hu)
    obtain ⟨q, hq, hmentions⟩ := hoccurs v hv
    obtain ⟨arg, hx⟩ := exists_mem_zip hargs.length_eq hq
    rw [h (q, arg) hx v hmentions hv, hu]

/-- **Late binding recovers the type arguments** from objects of the instantiated parameter types,
if every type parameter occurs in one and none stands under a pointer. -/
theorem OneInstance.infer_eq (hg : g.OneInstance) {m : Method} {args : List Value}
    (hvars : m.vars.Nodup) (hoccurs : ∀ v ∈ m.vars, ∃ q ∈ m.params, v ∈ q.type.vars)
    (hpointed : ∀ q ∈ m.params, ∀ v ∈ q.type.pointedVars, v ∉ m.vars)
    (hs : s.map (·.1) = m.vars) (hconstraints : g.checkConstraints s s = .ok ())
    (hargs : List.Forall₂ (fun q arg => IsObject (q.type.subst s) arg) m.params args) :
    g.infer m args = .ok s := by
  have hsolution := hg.solution_of_objects hs hvars hoccurs hpointed hargs
  refine infer_eq_ok_iff_solution.mpr ⟨hargs.length_eq.symm, hsolution,
    checkConstraints_eq_ok_iff.mp hconstraints, fun ⟨q, arg⟩ hx => ?_⟩
  obtain ⟨id, rfl⟩ := (List.forall₂_iff_zip.mp hargs).2 hx
  simp only [checkArg, Value.runtimeType?, isAssignable_refl, if_true]

end Graph

end LateBridge
