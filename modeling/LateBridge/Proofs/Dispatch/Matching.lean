import LateBridge.Proofs.Dispatch.Instances
import LateBridge.Proofs.Document.Supplied

/-!
# Proofs/Dispatch/Matching — what a match binds

    bindings ──match a pattern with a type──▸ the same bindings
                                              + one for each type parameter the pattern mentions

What solves a pattern knows the type parameters that the pattern mentions and needs no others, if no
named type misses an argument (`Graph.FilledHeads.isSome_lookup_of_fits`, `Graph.Fits.without`).  So a
match binds what its pattern mentions and nothing else.  Matched with its own instance, a pattern
binds what was put in (`Graph.exists_unify_subst`).  For loaded graphs both come together in
`matching_conservative_complete`.
-/

namespace LateBridge

/-! ## Leaving out a variable -/

namespace Ty.Subst

/-- A substitution that leaves out a variable. -/
def without (s : Subst) (v : TypeVar) : Subst := s.filter (·.1 != v)

theorem lookup_without_self (s : Subst) (v : TypeVar) : (s.without v).lookup v = none := by
  rw [List.lookup_eq_none_iff]
  intro p hp
  obtain ⟨-, hne⟩ := List.mem_filter.mp hp
  exact bne_iff_ne.mpr fun heq => by simp [heq] at hne

theorem lookup_without {s : Subst} {v w : TypeVar} (h : w ≠ v) :
    (s.without v).lookup w = s.lookup w := by
  induction s with
  | nil => rfl
  | cons p s ih =>
    rw [without, List.filter_cons]
    split
    · rw [List.lookup_cons, List.lookup_cons, ← ih]
      rfl
    · rename_i hp
      have hpv : p.1 = v := by simpa using hp
      rw [List.lookup_cons, beq_eq_false_iff_ne.mpr (hpv ▸ h), ← ih]
      rfl

end Ty.Subst

namespace Graph

variable {g : Graph} {generic : List TypeVar} {bound bound' r s : Ty.Subst} {t actual : Ty}

/-! ## What a match binds -/

/-- The one instantiation that a match goes on with is the run-time type or above it. -/
theorem mem_of_instances {n m : DeclName} {args : List Ty}
    (h : g.instances n actual = [.named m args]) :
    m = n ∧ (Ty.named m args = actual ∨
      .named m args ∈ g.baseChain actual ++ g.allInterfaces actual) := by
  have hmem : Ty.named m args ∈ g.instances n actual := h ▸ List.mem_singleton_self _
  rw [instances, List.mem_eraseDups, List.mem_filter, List.mem_cons] at hmem
  obtain ⟨hmem, hname⟩ := hmem
  exact ⟨by simpa [Ty.declName?] using hname, hmem⟩

/-- **What solves a pattern knows all that it mentions**, if no named type misses an argument. -/
theorem FilledHeads.isSome_lookup_of_fits (hg : g.FilledHeads) (ht : t.Exact)
    (hactual : actual.Filled) (h : g.Fits generic r t actual) :
    ∀ v ∈ t.vars, v ∈ generic → (r.lookup v).isSome := by
  induction h with
  | skip hskip => exact fun v hv hgeneric => absurd hgeneric (mentions_eq_false.mp hskip v hv)
  | var hlookup =>
    intro v hv _
    obtain rfl := Ty.mem_vars_var.mp hv
    exact Option.isSome_of_eq_some hlookup
  | array _ ih =>
    cases ht with
    | array ht =>
      cases hactual with
      | array hactual => exact ih ht hactual
  | @named n m args args' actual hinstances _ ih =>
    obtain ⟨rfl, hmem⟩ := mem_of_instances hinstances
    have habove : (Ty.named m args').Filled := by
      obtain hself | hmem := hmem
      · exact hself ▸ hactual
      · exact hg.of_mem_above hactual hmem
    cases ht with
    | named arity inside =>
      cases habove with
      | named enough inside' =>
        -- every argument of the pattern has its partner
        intro v hv hgeneric
        obtain ⟨a, ha, hv⟩ := Ty.mem_vars_named.mp hv
        obtain ⟨a', hx⟩ := exists_mem_zip_of_le (arity.trans_le enough) ha
        exact ih (a, a') hx (inside a ha) (inside' a' (List.of_mem_zip hx).2) v hv hgeneric

/-- What a pattern does not mention is not needed to solve it. -/
theorem Fits.without {v : TypeVar} (h : g.Fits generic r t actual)
    (hv : v ∈ t.vars → v ∉ generic) : g.Fits generic (r.without v) t actual := by
  refine h.mono fun w hw hgeneric u hu => ?_
  have hne : w ≠ v := fun heq => hv (heq ▸ hw) (heq ▸ hgeneric)
  rw [Ty.Subst.lookup_without hne, hu]

/-- **A match binds only what the pattern mentions**, whatever it is matched with. -/
theorem mem_of_unify {w : TypeVar} (h : g.unify generic bound t actual = .ok bound')
    (hw : (bound'.lookup w).isSome) : (bound.lookup w).isSome ∨ w ∈ t.vars ∧ w ∈ generic := by
  obtain ⟨hkeeps, hfits⟩ := fits_of_unify h
  by_contra hnone
  obtain ⟨hbound, hmentions⟩ := not_or.mp hnone
  have hbelow : bound'.Below (bound'.without w) := by
    rw [← solvedBy_ok (ε := MatchError), ← h, solvedBy_unify]
    refine ⟨fun v u hv => ?_, hfits.without (not_and.mp hmentions)⟩
    have hne : v ≠ w := fun heq => hbound (heq ▸ Option.isSome_of_eq_some hv)
    rw [Ty.Subst.lookup_without hne, hkeeps v u hv]
  obtain ⟨u, hu⟩ := Option.isSome_iff_exists.mp hw
  exact absurd ((bound'.lookup_without_self w).symm.trans (hbelow w u hu)) nofun

/-- **A match binds what the pattern mentions**, and nothing else. -/
theorem FilledHeads.isSome_lookup_unify (hg : g.FilledHeads) (ht : t.Exact)
    (hactual : actual.Filled) (h : g.unify generic bound t actual = .ok bound') (v : TypeVar) :
    (bound'.lookup v).isSome ↔ (bound.lookup v).isSome ∨ v ∈ t.vars ∧ v ∈ generic := by
  obtain ⟨hkeeps, hfits⟩ := fits_of_unify h
  refine ⟨mem_of_unify h, ?_⟩
  rintro (hbound | ⟨hv, hgeneric⟩)
  · obtain ⟨u, hu⟩ := Option.isSome_iff_exists.mp hbound
    exact Option.isSome_of_eq_some (hkeeps v u hu)
  · exact hg.isSome_lookup_of_fits ht hactual hfits v hv hgeneric

theorem lookup_unify_of_not_mentioned {v : TypeVar}
    (h : g.unify generic bound t actual = .ok bound') (hv : ¬(v ∈ t.vars ∧ v ∈ generic)) :
    bound'.lookup v = bound.lookup v := by
  cases hbound : bound.lookup v with
  | some u => exact (fits_of_unify h).1 v u hbound
  | none =>
    by_contra hsome
    obtain hknown | hmentioned := mem_of_unify h (Option.isSome_iff_ne_none.mpr hsome)
    · simp [hbound] at hknown
    · exact hv hmentioned

/-! ## Patterns and their instances -/

/-- Bindings that agree with what was put in can be completed. -/
theorem exists_above_subst {vs : List TypeVar}
    (hagrees : ∀ v ∈ vs, ∀ u, bound.lookup v = some u → (Ty.var v).subst s = u) :
    ∃ r, bound.Below r ∧ ∀ v ∈ vs, r.lookup v = some ((Ty.var v).subst s) := by
  refine ⟨bound ++ vs.map fun v => (v, (Ty.var v).subst s), fun v u hv => ?_, fun v hv => ?_⟩
  · rw [List.lookup_append, hv, Option.some_or]
  · rw [List.lookup_append, List.lookup_graph _ hv]
    cases hbound : bound.lookup v with
    | none => rfl
    | some u => rw [Option.some_or, hagrees v hv u hbound]

/-- **A pattern matches its own instance and binds what was put in**, if the bindings agree with it,
each named type in the instance is the only instantiation of its declaration, and no type parameter
stands under a pointer. -/
theorem exists_unify_subst (hone : t.EachNamed fun n args => g.Single n (args.map (Ty.subst s)))
    (hpointed : ∀ v ∈ t.pointedVars, v ∉ generic)
    (hagrees : ∀ v ∈ t.vars, v ∈ generic → ∀ u, bound.lookup v = some u → (Ty.var v).subst s = u) :
    ∃ bound', g.unify generic bound t (t.subst s) = .ok bound' ∧
      (∀ v ∈ t.vars, v ∈ generic → bound'.lookup v = some ((Ty.var v).subst s)) ∧
      ∀ v, ¬(v ∈ t.vars ∧ v ∈ generic) → bound'.lookup v = bound.lookup v := by
  obtain ⟨r, hbelow, hr⟩ : ∃ r, bound.Below r ∧
      ∀ v ∈ t.vars.filter (· ∈ generic), r.lookup v = some ((Ty.var v).subst s) := by
    refine exists_above_subst fun v hv => ?_
    obtain ⟨hv, hgeneric⟩ := List.mem_filter.mp hv
    exact hagrees v hv (of_decide_eq_true hgeneric)
  have hfits : g.Fits generic r t (t.subst s) := (fits_subst_iff hone hpointed).mpr
    fun v hv hgeneric => hr v (List.mem_filter.mpr ⟨hv, decide_eq_true hgeneric⟩)
  obtain ⟨bound', hunify, -⟩ := solvedBy_unify.mpr ⟨hbelow, hfits⟩
  exact ⟨bound', hunify, (fits_subst_iff hone hpointed).mp (fits_of_unify hunify).2,
    fun v hv => lookup_unify_of_not_mentioned hunify hv⟩

/-- **An exact type is the only instantiation of its declaration** among itself and what is above
it. -/
def OneExactInstance (g : Graph) : Prop :=
  ∀ n args, (Ty.named n args).Exact → g.Single n args

theorem OneInstance.oneExactInstance (hg : g.OneInstance) : g.OneExactInstance :=
  fun n args _ => hg n args

/-- The named types in an exact instance are exact. -/
theorem OneExactInstance.single (hg : g.OneExactInstance) (h : (t.subst s).Exact) :
    t.EachNamed fun n args => g.Single n (args.map (Ty.subst s)) :=
  (Ty.EachNamed.within h).of_subst.imp fun n args => hg n (args.map (Ty.subst s))

end Graph

/-! ## Loaded graphs -/

/-- **Matching is conservative, and complete on its pattern.**  In a loaded graph, with a pattern and
a run-time type whose named types have one argument for each type parameter along their containing
chain: a match that succeeds keeps the bindings there are and binds the type parameters of the method
that the pattern mentions, and nothing else.  If no exact type has another instantiation of its
declaration above it, and no type parameter of the method stands under a pointer, an instance of the
pattern that agrees with the bindings is matched, and what was put in is bound. -/
theorem matching_conservative_complete {docs : List GraphDocument} {g : Graph}
    (h : load docs = .ok g) {pattern actual : Ty} (hpattern : pattern.Exact)
    (hactual : actual.Exact) (generic : List TypeVar) (bound : Ty.Subst) :
    (∀ bound', g.unify generic bound pattern actual = .ok bound' →
      (∀ v u, bound.lookup v = some u → bound'.lookup v = some u) ∧
      ∀ v, (bound'.lookup v).isSome ↔
        (bound.lookup v).isSome ∨ v ∈ pattern.vars ∧ v ∈ generic) ∧
    ∀ s : Ty.Subst, g.OneExactInstance → (∀ v ∈ pattern.pointedVars, v ∉ generic) →
      actual = pattern.subst s →
      (∀ v ∈ pattern.vars, v ∈ generic →
        ∀ u, bound.lookup v = some u → (Ty.var v).subst s = u) →
      ∃ bound', g.unify generic bound pattern actual = .ok bound' ∧
        (∀ v ∈ pattern.vars, v ∈ generic → bound'.lookup v = some ((Ty.var v).subst s)) ∧
        ∀ v, ¬(v ∈ pattern.vars ∧ v ∈ generic) → bound'.lookup v = bound.lookup v := by
  constructor
  · intro bound' hunify
    exact ⟨(Graph.fits_of_unify hunify).1,
      (filledHeads_of_load h).isSome_lookup_unify hpattern hactual.filled hunify⟩
  · rintro s hone hpointed rfl hagrees
    exact Graph.exists_unify_subst (hone.single hactual) hpointed hagrees

/-! A crate is a jar of arrays, and a pair has two contents: a jar is found above a crate, and a pair
finds both of its contents. -/

namespace Pantry

/-- Jars, crates that are jars, and pairs. -/
def docs : List GraphDocument :=
  [{ coreLibrary := false, usings := []
     types := CoreLibrary.bareTypes ++ [
      { CoreLibrary.interfaceType "Shop" "IJar" with typeParams := [CoreLibrary.param "T"] },
      { CoreLibrary.classType "Shop" "Crate" with
        typeParams := [CoreLibrary.param "T"], interfaces := ["IJar<T[]>"] },
      { CoreLibrary.classType "Shop" "Pair" with
        typeParams := [CoreLibrary.param "A", CoreLibrary.param "B"] }] }]

/-- The name of pairs. -/
def pair : DeclName := .top (some "Shop") "Pair" ["A", "B"]

/-- Two type parameters of a method. -/
def item : TypeVar := ⟨.method ⟨pair, 0⟩, 0, "T"⟩

@[inherit_doc item]
def other : TypeVar := ⟨.method ⟨pair, 0⟩, 1, "U"⟩

/-- Jars of a type. -/
def jarOf (t : Ty) : Ty := .named (.top (some "Shop") "IJar" ["T"]) [t]

/-- Crates of a type. -/
def crateOf (t : Ty) : Ty := .named (.top (some "Shop") "Crate" ["T"]) [t]

/-- Pairs of an item and a jar of the other. -/
def pattern : Ty := .named pair [.var item, jarOf (.var other)]

/-- What a jar finds above a crate. -/
def found : Ty.Subst := [(item, .array .dynamic 1)]

/-- What is put in. -/
def contents : Ty.Subst := [(item, .dynamic), (other, .array .dynamic 2)]

theorem exact_jarOf {t : Ty} (h : t.Exact) : (jarOf t).Exact :=
  .named rfl (List.forall_mem_singleton.mpr h)

theorem exact_crateOf {t : Ty} (h : t.Exact) : (crateOf t).Exact :=
  .named rfl (List.forall_mem_singleton.mpr h)

theorem exact_pair {t u : Ty} (ht : t.Exact) (hu : u.Exact) : (Ty.named pair [t, u]).Exact :=
  .named rfl (List.forall_mem_cons.mpr ⟨ht, List.forall_mem_singleton.mpr hu⟩)

end Pantry

/-- A jar matched with a crate binds its content, and a pair whose item is known binds the rest. -/
theorem matching_conservative_complete_pantry : ∃ g, load Pantry.docs = .ok g ∧
    g.OneExactInstance ∧
    g.unify [Pantry.item] [] (Pantry.jarOf (.var Pantry.item)) (Pantry.crateOf .dynamic) =
      .ok Pantry.found ∧
    (∀ v, (Pantry.found.lookup v).isSome ↔ v = Pantry.item) ∧
    ∃ bound, g.unify [Pantry.item, Pantry.other] [(Pantry.item, .dynamic)] Pantry.pattern
        (Pantry.pattern.subst Pantry.contents) = .ok bound ∧
      bound.lookup Pantry.item = some .dynamic ∧
      bound.lookup Pantry.other = some (.array .dynamic 2) := by
  have hcheck : loadsAs Pantry.docs (fun g => g.checkHierarchy 8 &&
      g.unify [Pantry.item] [] (Pantry.jarOf (.var Pantry.item)) (Pantry.crateOf .dynamic) ==
        .ok Pantry.found) = true := by
    decide +kernel
  obtain ⟨g, hload, hasked⟩ := exists_of_loadsAs hcheck
  obtain ⟨hhierarchy, hfound⟩ := Bool.and_eq_true_iff.mp hasked
  have hone := (Graph.oneInstance_of_checkHierarchy hhierarchy (by decide)).oneExactInstance
  refine ⟨g, hload, hone, eq_of_beq hfound, fun v => ?_, ?_⟩
  · obtain ⟨-, hbinds⟩ := (matching_conservative_complete hload (Pantry.exact_jarOf (.var _))
      (Pantry.exact_crateOf .dynamic) [Pantry.item] []).1 _ (eq_of_beq hfound)
    rw [hbinds v]
    simp [Pantry.jarOf]
  · have hpattern : Pantry.pattern.Exact := Pantry.exact_pair (.var _) (Pantry.exact_jarOf (.var _))
    have hactual : (Pantry.pattern.subst Pantry.contents).Exact :=
      Pantry.exact_pair .dynamic (Pantry.exact_jarOf (.array .dynamic))
    obtain ⟨bound, hbound, hlookup, -⟩ := (matching_conservative_complete hload hpattern hactual
      [Pantry.item, Pantry.other] [(Pantry.item, .dynamic)]).2 Pantry.contents hone
      (by decide) rfl (by decide)
    exact ⟨bound, hbound, hlookup _ (by decide) (by decide), hlookup _ (by decide) (by decide)⟩

end LateBridge
