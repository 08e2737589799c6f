import LateBridge.Proofs.Symbols.InterfaceClosure

/-!
# Proofs/Symbols/PartialSubstitution — what is above a type is above its instantiations

    type ──────base type, interface──────▸ type above
     │ variables replaced                      │ some variables replaced
     ▾                                         ▾
    instantiated type ──base type, interface──▸ type above

Instantiating a declaration with substituted arguments replaces what the arguments mention, but not
what the declaration mentions by itself.  So above a substituted type stands what is above the type,
substituted in some places only (`Ty.Partly`).  Partial substitution goes along with base types and
interfaces in any graph, and where nothing can be replaced it changes nothing: what is above a type
and free of the variables is above every instantiation (`ShortChains.mem_baseChain_subst_of_free`,
`FiniteClosures.mem_allInterfaces_subst_of_free`).
-/

namespace LateBridge

namespace Ty

/-- **A type with variables replaced in some places**: each place keeps its variable or gets what
the substitution puts in. -/
inductive Partly (s : Subst) : Ty → Ty → Prop where
  | keep (t : Ty) : Partly s t t
  | put (v : TypeVar) : Partly s (.var v) ((var v).subst s)
  | named (n : DeclName) {args args' : List Ty} (length : args.length = args'.length)
      (inside : ∀ a a', (a, a') ∈ args.zip args' → Partly s a a') :
      Partly s (.named n args) (.named n args')
  | array {element element' : Ty} (rank : Nat) (h : Partly s element element') :
      Partly s (.array element rank) (.array element' rank)
  | pointer {target target' : Ty} (h : Partly s target target') :
      Partly s (.pointer target) (.pointer target')
  | fnptr {params params' : List Ty} {ret ret' : Ty} (length : params.length = params'.length)
      (inside : ∀ p p', (p, p') ∈ params.zip params' → Partly s p p') (result : Partly s ret ret') :
      Partly s (.fnptr params ret) (.fnptr params' ret')

variable {s : Subst} {t t' : Ty}

theorem Partly.named_of_forall₂ (n : DeclName) {args args' : List Ty}
    (h : List.Forall₂ (Partly s) args args') :
    (Ty.named n args).Partly s (Ty.named n args') :=
  have ⟨length, inside⟩ := List.forall₂_iff_zip.mp h
  .named n length fun _ _ => inside

theorem Partly.fnptr_of_forall₂ {params params' : List Ty} {ret ret' : Ty}
    (h : List.Forall₂ (Partly s) params params') (result : ret.Partly s ret') :
    (Ty.fnptr params ret).Partly s (Ty.fnptr params' ret') :=
  have ⟨length, inside⟩ := List.forall₂_iff_zip.mp h
  .fnptr length (fun _ _ => inside) result

/-- Two instantiations of the same types, one by one. -/
theorem forall₂_map_map {f f' : Ty → Ty} {ts : List Ty} (h : ∀ t ∈ ts, (f t).Partly s (f' t)) :
    List.Forall₂ (Partly s) (ts.map f) (ts.map f') := by
  rw [List.forall₂_map_left_iff, List.forall₂_map_right_iff, List.forall₂_same]
  exact h

/-- Replacing all variables is replacing them in some places. -/
theorem partly_subst (s : Subst) (t : Ty) : t.Partly s (t.subst s) := by
  induction t using induct with
  | named n args ih =>
    rw [subst_named]
    have hargs := forall₂_map_map (f := id) ih
    rw [List.map_id] at hargs
    exact .named_of_forall₂ n hargs
  | array element rank ih =>
    rw [subst_array]
    exact .array rank ih
  | var v => exact .put v
  | pointer target ih =>
    rw [subst_pointer]
    exact .pointer ih
  | fnptr params ret ihp ihr =>
    rw [subst_fnptr]
    have hparams := forall₂_map_map (f := id) ihp
    rw [List.map_id] at hparams
    exact .fnptr_of_forall₂ hparams ihr
  | void | dynamic | error => exact .keep _

/-- Lists that are equal one by one are equal. -/
theorem eq_of_mem_zip {ts ts' : List Ty} (length : ts.length = ts'.length)
    (h : ∀ t t', (t, t') ∈ ts.zip ts' → t' = t) : ts' = ts := by
  have hall : List.Forall₂ (· = ·) ts ts' :=
    List.forall₂_iff_zip.mpr ⟨length, fun ht => (h _ _ ht).symm⟩
  rw [List.forall₂_eq_eq_eq] at hall
  exact hall.symm

/-- **Where no variable can be replaced, nothing is.** -/
theorem Partly.eq_of_free (h : t.Partly s t') (hfree : ∀ v ∈ t.vars, s.lookup v = none) :
    t' = t := by
  induction h with
  | keep t => rfl
  | put v => rw [subst_var, hfree v (mem_vars_var.mpr rfl), Option.getD_none]
  | named n length _ ih =>
    rw [eq_of_mem_zip length fun a a' h => ih a a' h fun v hv =>
      hfree v (mem_vars_named.mpr ⟨a, (List.of_mem_zip h).1, hv⟩)]
  | array rank _ ih => rw [ih fun v hv => hfree v (mem_vars_array.mpr hv)]
  | pointer _ ih => rw [ih fun v hv => hfree v (mem_vars_pointer.mpr hv)]
  | fnptr length _ _ ihp ihr =>
    rw [ihr fun v hv => hfree v (mem_vars_fnptr.mpr (.inr hv)),
      eq_of_mem_zip length fun p p' h => ihp p p' h fun v hv =>
        hfree v (mem_vars_fnptr.mpr (.inl ⟨p, (List.of_mem_zip h).1, hv⟩))]

/-- A variable stands for one of two lists of arguments in step, or for itself. -/
theorem partly_lookup {vs : List TypeVar} {args args' : List Ty}
    (h : List.Forall₂ (Partly s) args args') (v : TypeVar) :
    (((vs.zip args).lookup v).getD (.var v)).Partly s
      (((vs.zip args').lookup v).getD (.var v)) := by
  induction h generalizing vs with
  | nil =>
    rw [List.zip_nil_right]
    exact .keep _
  | cons ha _ ih =>
    cases vs with
    | nil => exact .keep _
    | cons w vs =>
      rw [List.zip_cons_cons, List.zip_cons_cons, List.lookup_cons, List.lookup_cons]
      split
      · exact ha
      · exact ih

/-- **Arguments with variables replaced in some places make such a type.** -/
theorem partly_bindArgs (t : Ty) {n : DeclName} {args args' : List Ty}
    (h : List.Forall₂ (Partly s) args args') :
    (t.subst (n.bindArgs args)).Partly s (t.subst (n.bindArgs args')) := by
  induction t using induct with
  | named m inner ih =>
    rw [subst_named, subst_named]
    exact .named_of_forall₂ m (forall₂_map_map ih)
  | array element rank ih =>
    rw [subst_array, subst_array]
    exact .array rank ih
  | var v =>
    rw [subst_var, subst_var]
    exact partly_lookup h v
  | pointer target ih =>
    rw [subst_pointer, subst_pointer]
    exact .pointer ih
  | fnptr params ret ihp ihr =>
    rw [subst_fnptr, subst_fnptr]
    exact .fnptr_of_forall₂ (forall₂_map_map ihp) ihr
  | void | dynamic | error => exact .keep _

end Ty

namespace Graph

variable {g : Graph} {s : Ty.Subst} {t t' u : Ty}

/-! ## Base types -/

/-- **Partial substitution goes along with base types.** -/
theorem exists_base?_of_partly (h : t.Partly s t') (hu : g.base? t = some u) :
    ∃ u', g.base? t' = some u' ∧ u.Partly s u' := by
  cases h with
  | keep t => exact ⟨u, hu, .keep u⟩
  | @named n args args' length inside =>
    have hargs : List.Forall₂ (Ty.Partly s) args args' :=
      List.forall₂_iff_zip.mpr ⟨length, inside _ _⟩
    obtain ⟨d, b, hd, hb, rfl⟩ := base?_named_eq_some hu
    exact ⟨b.subst (n.bindArgs args'), by rw [base?_named hd, hb, Option.map_some],
      Ty.partly_bindArgs b hargs⟩
  | array rank _ => exact ⟨u, hu, .keep u⟩
  | put v | pointer _ | fnptr _ _ _ => cases hu

theorem ShortChains.exists_baseChain_of_partly (hg : g.ShortChains) (h : t.Partly s t')
    (hu : u ∈ g.baseChain t) : ∃ u' ∈ g.baseChain t', u.Partly s u' := by
  induction t using hg.base_induction generalizing t' with
  | step t ih =>
    obtain ⟨b, hb, hu⟩ := hg.mem_baseChain.mp hu
    obtain ⟨b', hb', hpartly⟩ := exists_base?_of_partly h hb
    obtain rfl | hu := hu
    · exact ⟨b', hg.mem_baseChain.mpr ⟨b', hb', .inl rfl⟩, hpartly⟩
    · obtain ⟨u', hu', hpartly⟩ := ih b hb hpartly hu
      exact ⟨u', hg.mem_baseChain.mpr ⟨b', hb', .inr hu'⟩, hpartly⟩

/-- **A base type free of the variables is a base type of every instantiation.** -/
theorem ShortChains.mem_baseChain_subst_of_free (hg : g.ShortChains)
    (hfree : ∀ v ∈ u.vars, s.lookup v = none) (hu : u ∈ g.baseChain t) :
    u ∈ g.baseChain (t.subst s) := by
  obtain ⟨u', hu', hpartly⟩ := hg.exists_baseChain_of_partly (t.partly_subst s) hu
  exact hpartly.eq_of_free hfree ▸ hu'

/-! ## Interfaces -/

/-- **Partial substitution goes along with interfaces.** -/
theorem exists_extends_of_partly (h : t.Partly s t') (hu : g.Extends t u) :
    ∃ u', g.Extends t' u' ∧ u.Partly s u' := by
  obtain ⟨n, args, d, i, hi, rfl, hd, rfl⟩ := hu.exists_decl
  cases h with
  | keep t => exact ⟨_, hu, .keep _⟩
  | @named _ _ args' length inside =>
    have hargs : List.Forall₂ (Ty.Partly s) args args' :=
      List.forall₂_iff_zip.mpr ⟨length, inside _ _⟩
    refine ⟨i.subst (n.bindArgs args'), ?_, Ty.partly_bindArgs i hargs⟩
    rw [Extends, interfaces_named hd]
    exact List.mem_map_of_mem hi

theorem exists_transGen_of_partly (h : t.Partly s t') (hu : Relation.TransGen g.Extends t u) :
    ∃ u', Relation.TransGen g.Extends t' u' ∧ u.Partly s u' := by
  induction hu with
  | single hu =>
    obtain ⟨u', hu', hpartly⟩ := exists_extends_of_partly h hu
    exact ⟨u', .single hu', hpartly⟩
  | tail _ hu ih =>
    obtain ⟨i', hi', hpartly⟩ := ih
    obtain ⟨u', hu', hpartly⟩ := exists_extends_of_partly hpartly hu
    exact ⟨u', .tail hi' hu', hpartly⟩

/-- **An interface free of the variables is an interface of every instantiation.** -/
theorem FiniteClosures.mem_allInterfaces_subst_of_free (hg : g.FiniteClosures)
    (hshort : g.ShortChains) (hfree : ∀ v ∈ u.vars, s.lookup v = none)
    (hu : u ∈ g.allInterfaces t) : u ∈ g.allInterfaces (t.subst s) := by
  obtain ⟨o, ho, hreach⟩ := hg.mem_allInterfaces.mp hu
  obtain ⟨o', ho', hpartly⟩ : ∃ o' ∈ t.subst s :: g.baseChain (t.subst s), o.Partly s o' := by
    obtain rfl | ho := List.mem_cons.mp ho
    · exact ⟨_, List.mem_cons_self, o.partly_subst s⟩
    · obtain ⟨o', ho', hpartly⟩ := hshort.exists_baseChain_of_partly (t.partly_subst s) ho
      exact ⟨o', List.mem_cons_of_mem _ ho', hpartly⟩
  obtain ⟨u', hreach', hpartly⟩ := exists_transGen_of_partly hpartly hreach
  obtain rfl := hpartly.eq_of_free hfree
  exact hg.mem_allInterfaces.mpr ⟨o', ho', hreach'⟩

end Graph

end LateBridge
