import LateBridge.Proofs.Dispatch.Inference

/-!
# Proofs/Dispatch/Equations — matching solves equations

    bindings ──match a pattern with a type──▸ bindings or an error
       └─ above: any substitution ─┐
                                   ▾
      it is above the result  ⟺  it is above the bindings and solves the equations of the pattern

A pattern and a run-time type say what the type parameters of a method have to be (`Graph.Fits`).  The
bindings that come in are no part of that, so a match asks for the same wherever it stands among others
(`Graph.solvedBy_unify`), and a call binds the least substitution that solves all of its parameters
(`Graph.infer_eq_ok_iff_solution`).
-/

namespace LateBridge

namespace Graph

variable {g : Graph} {generic : List TypeVar} {r : Ty.Subst}

/-! ## Equations -/

/-- **A substitution solves a pattern**: where the pattern mentions type parameters of the method, the
type has its shape, and each of them stands for the part of the type in its place. -/
inductive Fits (g : Graph) (generic : List TypeVar) (r : Ty.Subst) : Ty → Ty → Prop
  | skip {t actual : Ty} (hskip : mentions generic t = false) : Fits g generic r t actual
  | var {v : TypeVar} {actual : Ty} (hv : r.lookup v = some actual) : Fits g generic r (.var v) actual
  | array {element element' : Ty} {rank : Nat} (helement : Fits g generic r element element') :
      Fits g generic r (.array element rank) (.array element' rank)
  | named {n m : DeclName} {args args' : List Ty} {actual : Ty}
      (hinstances : g.instances n actual = [.named m args'])
      (hargs : ∀ x ∈ args.zip args', Fits g generic r x.1 x.2) :
      Fits g generic r (.named n args) actual

theorem fits_var_iff {v : TypeVar} {actual : Ty} (hv : mentions generic (.var v) = true) :
    g.Fits generic r (.var v) actual ↔ r.lookup v = some actual := by
  refine ⟨fun h => ?_, .var⟩
  cases h with
  | skip hskip => exact absurd (hskip.symm.trans hv) Bool.false_ne_true
  | var hlookup => exact hlookup

theorem fits_array_iff {element actual : Ty} {rank : Nat}
    (hmentions : mentions generic (.array element rank) = true) :
    g.Fits generic r (.array element rank) actual ↔
      ∃ element', actual = .array element' rank ∧ g.Fits generic r element element' := by
  constructor
  · intro h
    cases h with
    | skip hskip => exact absurd (hskip.symm.trans hmentions) Bool.false_ne_true
    | array helement => exact ⟨_, rfl, helement⟩
  · rintro ⟨element', rfl, helement⟩
    exact .array helement

theorem fits_named_iff {n : DeclName} {args : List Ty} {actual : Ty}
    (hmentions : mentions generic (.named n args) = true) :
    g.Fits generic r (.named n args) actual ↔ ∃ m args', g.instances n actual = [.named m args'] ∧
      ∀ x ∈ args.zip args', g.Fits generic r x.1 x.2 := by
  constructor
  · intro h
    cases h with
    | skip hskip => exact absurd (hskip.symm.trans hmentions) Bool.false_ne_true
    | named hinstances hargs => exact ⟨_, _, hinstances, hargs⟩
  · rintro ⟨m, args', hinstances, hargs⟩
    exact .named hinstances hargs

/-- What solves a pattern is what it says of the type parameters that the pattern mentions. -/
theorem Fits.mono {r' : Ty.Subst} {t actual : Ty} (h : g.Fits generic r t actual)
    (hr : ∀ v ∈ t.vars, v ∈ generic → ∀ u, r.lookup v = some u → r'.lookup v = some u) :
    g.Fits generic r' t actual := by
  induction h with
  | skip hskip => exact .skip hskip
  | @var v actual hv =>
    by_cases hmem : v ∈ generic
    · exact .var (hr v (Ty.mem_vars_var.mpr rfl) hmem actual hv)
    · exact .skip (mentions_eq_false.mpr fun w hw => Ty.mem_vars_var.mp hw ▸ hmem)
  | array _ ih => exact .array (ih hr)
  | named hinstances _ ih =>
    exact .named hinstances fun x hx => ih x hx fun v hv =>
      hr v (Ty.mem_vars_named.mpr ⟨x.1, (List.of_mem_zip hx).1, hv⟩)

/-- Of a program, equations read the instantiations above a type. -/
theorem Fits.of_instances_eq {g' : Graph} (h : g'.instances = g.instances) {t actual : Ty}
    (hfits : g.Fits generic r t actual) : g'.Fits generic r t actual := by
  induction hfits with
  | skip hskip => exact .skip hskip
  | var hv => exact .var hv
  | array _ ih => exact .array ih
  | named hinstances _ ih => exact .named (h ▸ hinstances) ih

/-- What an argument asks of a substitution: nothing, if it has no run-time type. -/
def FitsArg (g : Graph) (generic : List TypeVar) (r : Ty.Subst) (x : Param × Value) : Prop :=
  ∀ actual, x.2.runtimeType? g = some actual → g.Fits generic r x.1.type actual

/-- **A substitution is above the result** of a match, so that there is one. -/
def SolvedBy {ε : Type} (outcome : Except ε Ty.Subst) (r : Ty.Subst) : Prop :=
  ∃ bound, outcome = .ok bound ∧ bound.Below r

@[simp] theorem solvedBy_ok {ε : Type} {bound : Ty.Subst} :
    SolvedBy (ε := ε) (.ok bound) r ↔ bound.Below r := by
  simp [SolvedBy]

@[simp] theorem not_solvedBy_error {ε : Type} {e : ε} : ¬ SolvedBy (.error e) r := by
  rintro ⟨bound, h, -⟩
  cases h

/-- Bindings grow by one equation. -/
theorem solvedBy_bindVar {bound : Ty.Subst} {v : TypeVar} {actual : Ty} :
    SolvedBy (bindVar bound v actual) r ↔ bound.Below r ∧ r.lookup v = some actual := by
  rw [bindVar]
  split
  · rename_i hnone
    rw [solvedBy_ok]
    constructor
    · intro h
      refine ⟨fun w u hw => h w u ?_, h v actual ?_⟩
      · rw [List.lookup_append, hw, Option.some_or]
      · rw [List.lookup_append, hnone, Option.none_or, List.lookup_cons_self]
    · rintro ⟨hbound, hv⟩ w u hw
      rw [List.lookup_append, Option.or_eq_some_iff] at hw
      obtain hw | ⟨-, hw⟩ := hw
      · exact hbound w u hw
      · obtain ⟨rfl, rfl⟩ : w = v ∧ u = actual := by simpa using mem_of_lookup hw
        exact hv
  · rename_i first hfirst
    split
    · rename_i hsame
      obtain rfl := eq_of_beq hsame
      rw [solvedBy_ok]
      exact ⟨fun h => ⟨h, h v first hfirst⟩, And.left⟩
    · rename_i hsame
      refine iff_of_false not_solvedBy_error ?_
      rintro ⟨hbound, hv⟩
      obtain rfl := Option.some.inj ((hbound v first hfirst).symm.trans hv)
      exact hsame (beq_self_eq_true _)

/-! ## Matching -/

variable {bound : Ty.Subst}

theorem unify_of_not_mentions {t actual : Ty} (h : mentions generic t = false) :
    g.unify generic bound t actual = .ok bound := by
  cases t with
  | var v =>
    have hv : generic.contains v = false := by simpa [mentions, Ty.vars] using h
    rw [unify, hv, if_neg Bool.false_ne_true]
  | array | named =>
    unfold unify
    simp [h]
  | pointer | fnptr => rw [unify, h, if_neg Bool.false_ne_true]
  | void | dynamic | error => rfl

theorem solvedBy_unify_of_not_mentions {t actual : Ty} (h : mentions generic t = false) :
    SolvedBy (g.unify generic bound t actual) r ↔ bound.Below r ∧ g.Fits generic r t actual := by
  rw [unify_of_not_mentions h, solvedBy_ok]
  exact ⟨fun hbound => ⟨hbound, .skip h⟩, And.left⟩

theorem solvedBy_unifyList {patterns actuals : List Ty}
    (step : ∀ t ∈ patterns, ∀ (bound : Ty.Subst) (u : Ty),
      SolvedBy (g.unify generic bound t u) r ↔ bound.Below r ∧ g.Fits generic r t u) :
    SolvedBy (g.unifyList generic bound patterns actuals) r ↔
      bound.Below r ∧ ∀ x ∈ patterns.zip actuals, g.Fits generic r x.1 x.2 := by
  induction patterns generalizing bound actuals with
  | nil => simp [unifyList]
  | cons t patterns ih =>
    cases actuals with
    | nil => simp [unifyList]
    | cons u actuals =>
      have hhead := step t List.mem_cons_self bound u
      have htail (bound : Ty.Subst) : SolvedBy (g.unifyList generic bound patterns actuals) r ↔
          bound.Below r ∧ ∀ x ∈ patterns.zip actuals, g.Fits generic r x.1 x.2 :=
        ih fun t ht => step t (List.mem_cons_of_mem _ ht)
      rw [List.zip_cons_cons, List.forall_mem_cons, ← and_assoc, ← hhead, unifyList]
      cases g.unify generic bound t u with
      | ok bound' => rw [htail, solvedBy_ok]
      | error e => simp

/-- **A match is solved by the substitutions above its bindings that solve the pattern.** -/
theorem solvedBy_unify {t actual : Ty} :
    SolvedBy (g.unify generic bound t actual) r ↔ bound.Below r ∧ g.Fits generic r t actual := by
  induction t using Ty.induct generalizing bound actual with
  | void | dynamic | error => exact solvedBy_unify_of_not_mentions rfl
  | var v =>
    cases hmentions : mentions generic (.var v) with
    | false => exact solvedBy_unify_of_not_mentions hmentions
    | true =>
      have hv : generic.contains v = true := by simpa [mentions, Ty.vars] using hmentions
      rw [unify, hv, if_pos rfl, solvedBy_bindVar, fits_var_iff hmentions]
  | array element rank ih =>
    cases hmentions : mentions generic (.array element rank) with
    | false => exact solvedBy_unify_of_not_mentions hmentions
    | true =>
      unfold unify
      rw [hmentions, fits_array_iff hmentions]
      cases actual with
      | array element' rank' =>
        by_cases hrank : rank' = rank
        · simp [hrank, ih]
        · simp [hrank]
      | _ => simp
  | named n args ih =>
    cases hmentions : mentions generic (.named n args) with
    | false => exact solvedBy_unify_of_not_mentions hmentions
    | true =>
      rw [unify, hmentions, fits_named_iff hmentions]
      simp only [Bool.not_true, Bool.false_eq_true, if_false]
      split
      · rename_i hinstances
        simp [hinstances, solvedBy_unifyList fun a ha _ _ => ih a ha]
      · rename_i hno
        refine iff_of_false not_solvedBy_error ?_
        rintro ⟨-, m, args', hinstances, -⟩
        exact hno m args' hinstances
  | pointer | fnptr =>
    cases hmentions : mentions generic _ with
    | false => exact solvedBy_unify_of_not_mentions hmentions
    | true =>
      rw [unify, hmentions, if_pos rfl]
      refine iff_of_false not_solvedBy_error ?_
      rintro ⟨-, h⟩
      cases h with
      | skip hskip => exact absurd (hskip.symm.trans hmentions) Bool.false_ne_true

/-- **A match keeps the bindings there are, and its result solves the pattern.** -/
theorem fits_of_unify {t actual : Ty} {bound' : Ty.Subst}
    (h : g.unify generic bound t actual = .ok bound') :
    bound.Below bound' ∧ g.Fits generic bound' t actual :=
  solvedBy_unify.mp ⟨bound', h, .refl bound'⟩

/-- **The arguments of a call are solved together**, in whatever order they come. -/
theorem solvedBy_unifyArgs {pairs : List (Param × Value)} :
    SolvedBy (g.unifyArgs generic bound pairs) r ↔
      bound.Below r ∧ ∀ x ∈ pairs, g.FitsArg generic r x := by
  induction pairs generalizing bound with
  | nil => simp [unifyArgs]
  | cons x pairs ih =>
    obtain ⟨q, arg⟩ := x
    rw [List.forall_mem_cons, unifyArgs]
    split
    · rename_i hnone
      have hfree : g.FitsArg generic r (q, arg) := fun actual h =>
        absurd (hnone.symm.trans h) (Option.some_ne_none _).symm
      rw [ih, and_iff_right hfree]
    · rename_i actual hactual
      have hfits : g.FitsArg generic r (q, arg) ↔ g.Fits generic r q.type actual := by
        simp [FitsArg, hactual]
      rw [hfits, ← and_assoc, ← solvedBy_unify]
      cases g.unify generic bound q.type actual with
      | ok bound' => rw [ih, solvedBy_ok]
      | error e => simp

theorem solvedBy_unifyArgs_nil {pairs : List (Param × Value)} :
    SolvedBy (g.unifyArgs generic [] pairs) r ↔ ∀ x ∈ pairs, g.FitsArg generic r x := by
  rw [solvedBy_unifyArgs, and_iff_right (Ty.Subst.below_nil r)]

/-! ## The least solution -/

/-- **The least solution of some parameters and arguments**: it binds the type parameters, and the
substitutions above it are those that solve every parameter that has an argument with a run-time
type. -/
structure Solution (g : Graph) (generic : List TypeVar) (pairs : List (Param × Value))
    (s : Ty.Subst) : Prop where
  vars : s.map (·.1) = generic
  lookup : ∀ p ∈ s, s.lookup p.1 = some p.2
  least : ∀ r, s.Below r ↔ ∀ x ∈ pairs, g.FitsArg generic r x

/-- A call whose arguments match and bind every type parameter has found the least solution. -/
theorem solution_of_instantiation {pairs : List (Param × Value)} {s : Ty.Subst}
    (hunify : g.unifyArgs generic [] pairs = .ok bound)
    (hs : instantiation bound generic = .ok s) : g.Solution generic pairs s := by
  obtain ⟨hvars, hbound⟩ := instantiation_eq_ok_iff_forall_mem.mp hs
  have hsolves (r : Ty.Subst) : bound.Below r ↔ ∀ x ∈ pairs, g.FitsArg generic r x := by
    rw [← solvedBy_unifyArgs_nil, hunify, solvedBy_ok]
  have hbelow : s.Below bound := fun v t hv => hbound _ (mem_of_lookup hv)
  have hlookup (p) (hp : p ∈ s) : s.lookup p.1 = some p.2 := by
    obtain ⟨t, ht⟩ := exists_lookup_of_mem hp
    rw [ht, ← hbelow _ _ ht, hbound p hp]
  -- the bindings say no more about the type parameters
  have habove : bound.Below s := by
    refine (hsolves s).mpr fun x hx actual hactual => ?_
    refine ((hsolves bound).mp (.refl bound) x hx actual hactual).mono fun v _ hv t ht => ?_
    rw [← hvars] at hv
    obtain ⟨p, hp, rfl⟩ := List.mem_map.mp hv
    rw [hlookup p hp, ← hbound p hp, ht]
  refine ⟨hvars, hlookup, fun r => ?_⟩
  rw [← hsolves]
  exact ⟨habove.trans, hbelow.trans⟩

/-- The bindings of arguments with a least solution. -/
theorem Solution.exists_instantiation {pairs : List (Param × Value)} {s : Ty.Subst}
    (h : g.Solution generic pairs s) : ∃ bound, g.unifyArgs generic [] pairs = .ok bound ∧
      instantiation bound generic = .ok s := by
  have hsolves (r : Ty.Subst) : SolvedBy (g.unifyArgs generic [] pairs) r ↔ s.Below r := by
    rw [solvedBy_unifyArgs_nil, h.least]
  obtain ⟨bound, hbound, -⟩ := (hsolves s).mpr (.refl s)
  rw [hbound] at hsolves
  have hbelow : s.Below bound := (hsolves bound).mp (solvedBy_ok.mpr (.refl bound))
  exact ⟨bound, hbound, instantiation_eq_ok_iff_forall_mem.mpr
    ⟨h.vars, fun p hp => hbelow _ _ (h.lookup p hp)⟩⟩

/-- **A call binds the least solution**, if there is one, when all checks pass. -/
theorem infer_eq_ok_iff_solution {m : Method} {args : List Value} {s : Ty.Subst} :
    g.infer m args = .ok s ↔ args.length = m.params.length ∧
      g.Solution m.vars (m.params.zip args) s ∧ (∀ p ∈ s, g.satisfies s p.1 p.2 = true) ∧
      ∀ x ∈ m.params.zip args, g.checkArg s x.1 x.2 = .ok () := by
  rw [infer_eq_ok_iff]
  refine and_congr_right fun _ => ?_
  constructor
  · rintro ⟨bound, hunify, hs, hchecks⟩
    exact ⟨solution_of_instantiation hunify hs, hchecks⟩
  · rintro ⟨hsolution, hchecks⟩
    obtain ⟨bound, hunify, hs⟩ := hsolution.exists_instantiation
    exact ⟨bound, hunify, hs, hchecks⟩

end Graph

end LateBridge
