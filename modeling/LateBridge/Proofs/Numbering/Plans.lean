import LateBridge.Proofs.Numbering.Erasure

/-!
# Proofs/Numbering/Plans — plans over numbers

    plan over types ──means──◂ plan over numbers ──rename──▸ plan over other numbers
                                      ▾ read
                               plan over types again

A plan over numbers has a number wherever a plan has a type, and everything else as it is.  It means
a plan in a table (`plan`); reading its numbers gives that plan back (`gives_readPlan`).  Two
plans over the numbers of two tables that mean the same differ by a renaming of numbers
(`plan_eq_rename`).
-/

namespace LateBridge

namespace Numbered

open Interning

/-! ## Plans over numbers -/

/-- Whether a wrapper awaits its target, and the number of what it returns. -/
structure AsyncShape where
  isAsync : Bool
  value? : Option Nat

/-- The constraints of a type parameter. -/
structure ConstraintClause where
  param : TypeVar
  kinds : Constraints
  types : List Nat

/-- A parameter of a wrapper. -/
structure WrapperParam where
  name : String
  type : Nat
  target : Nat
  refKind : RefKind
  isParams : Bool
  default? : Option Constant
  isDynamic : Bool

/-- The signature of a wrapper. -/
structure Wrapper where
  name : String
  modifiers : String
  isStatic : Bool
  isReadonly : Bool
  isExtension : Bool
  isPartial : Bool
  returns : Nat
  typeParams : List TypeVar
  constraints : List ConstraintClause
  params : List WrapperParam

/-- **The plan of a bridge over numbers.** -/
structure Plan where
  method : Method
  erasures : List (TypeVar × Nat)
  retained : List TypeVar
  target : String
  wrapper : Wrapper
  shape : AsyncShape
  definition? : Option MethodId
  inferable : List TypeVar
  ignoreUnbound : Bool

/-! ## What they mean -/

/-- A shape and the same one over numbers. -/
inductive ShapeDenotes (i : Numbers) (shape : LateBridge.AsyncShape) : AsyncShape → Prop
  | mk {value? : Option Nat} (hvalue : Meaning.type.option.Holds i shape.value? value?) :
      ShapeDenotes i shape ⟨shape.isAsync, value?⟩

/-- A clause and the same one over numbers. -/
inductive ClauseDenotes (i : Numbers) (c : LateBridge.ConstraintClause) : ConstraintClause → Prop
  | mk {types : List Nat} (htypes : Meaning.type.list.Holds i c.types types) :
      ClauseDenotes i c ⟨c.param, c.kinds, types⟩

/-- A parameter and the same one over numbers. -/
inductive ParamDenotes (i : Numbers) (q : LateBridge.WrapperParam) : WrapperParam → Prop
  | mk {type target : Nat} (htype : i.Denotes q.type type) (htarget : i.Denotes q.target target) :
      ParamDenotes i q ⟨q.name, type, target, q.refKind, q.isParams, q.default?, q.isDynamic⟩

/-- What shapes mean. -/
def shape : Meaning LateBridge.AsyncShape AsyncShape where
  Holds := ShapeDenotes
  mono h hij := by
    obtain ⟨hvalue⟩ := h
    exact .mk (Meaning.mono _ hvalue hij)

/-- What clauses mean. -/
def clause : Meaning LateBridge.ConstraintClause ConstraintClause where
  Holds := ClauseDenotes
  mono h hij := by
    obtain ⟨htypes⟩ := h
    exact .mk (Meaning.mono _ htypes hij)

/-- What parameters mean. -/
def param : Meaning LateBridge.WrapperParam WrapperParam where
  Holds := ParamDenotes
  mono h hij := by
    obtain ⟨htype, htarget⟩ := h
    exact .mk (htype.mono hij) (htarget.mono hij)

/-- A signature and the same one over numbers. -/
inductive WrapperDenotes (i : Numbers) (w : LateBridge.Wrapper) : Wrapper → Prop
  | mk {returns : Nat} {constraints : List ConstraintClause} {params : List WrapperParam}
      (hreturns : i.Denotes w.returns returns)
      (hconstraints : clause.list.Holds i w.constraints constraints)
      (hparams : param.list.Holds i w.params params) :
      WrapperDenotes i w ⟨w.name, w.modifiers, w.isStatic, w.isReadonly, w.isExtension,
        w.isPartial, returns, w.typeParams, constraints, params⟩

/-- What signatures mean. -/
def wrapper : Meaning LateBridge.Wrapper Wrapper where
  Holds := WrapperDenotes
  mono h hij := by
    obtain ⟨hreturns, hconstraints, hparams⟩ := h
    exact .mk (hreturns.mono hij) (Meaning.mono _ hconstraints hij) (Meaning.mono _ hparams hij)

/-- A plan and the same one over numbers. -/
inductive PlanDenotes (i : Numbers) (p : BridgePlan) : Plan → Prop
  | mk {erasures : List (TypeVar × Nat)} {w : Wrapper} {s : AsyncShape}
      (herasures : (Meaning.same.pair .type).list.Holds i p.erasures erasures)
      (hwrapper : WrapperDenotes i p.wrapper w) (hshape : ShapeDenotes i p.shape s) :
      PlanDenotes i p ⟨p.method, erasures, p.retained, p.target, w, s, p.definition?, p.inferable,
        p.ignoreUnbound⟩

/-- **What plans mean.** -/
def plan : Meaning BridgePlan Plan where
  Holds := PlanDenotes
  mono h hij := by
    obtain ⟨herasures, hwrapper, hshape⟩ := h
    exact .mk (Meaning.mono _ herasures hij) (wrapper.mono hwrapper hij) (shape.mono hshape hij)

/-! ## Reading -/

/-- A number that may be there, read. -/
def readOption : Option Nat → Interning (Option Ty)
  | none => return none
  | some id => do
    let t ← read id
    return some t

/-- A clause, read. -/
def readClause (c : ConstraintClause) : Interning LateBridge.ConstraintClause := do
  let types ← each read c.types
  return ⟨c.param, c.kinds, types⟩

/-- A parameter, read. -/
def readParam (q : WrapperParam) : Interning LateBridge.WrapperParam := do
  let type ← read q.type
  let target ← read q.target
  return ⟨q.name, type, target, q.refKind, q.isParams, q.default?, q.isDynamic⟩

/-- A signature, read. -/
def readWrapper (w : Wrapper) : Interning LateBridge.Wrapper := do
  let returns ← read w.returns
  let constraints ← each readClause w.constraints
  let params ← each readParam w.params
  return ⟨w.name, w.modifiers, w.isStatic, w.isReadonly, w.isExtension, w.isPartial, returns,
    w.typeParams, constraints, params⟩

/-- An erasure, read. -/
def readErasure (x : TypeVar × Nat) : Interning (TypeVar × Ty) := do
  let t ← read x.2
  return (x.1, t)

/-- **A plan, read**: the types behind its numbers. -/
def readPlan (p : Plan) : Interning BridgePlan := do
  let erasures ← each readErasure p.erasures
  let wrapper ← readWrapper p.wrapper
  let value? ← readOption p.shape.value?
  return ⟨p.method, erasures, p.retained, p.target, wrapper, ⟨p.shape.isAsync, value?⟩,
    p.definition?, p.inferable, p.ignoreUnbound⟩

section Reading

variable {i : Numbers} (hi : i.Grounded)

include hi

/-- Reading each of several things that mean something. -/
theorem gives_eachRead {α β : Type} {m : Meaning α β} {f : β → Interning α} {as : List α}
    {bs : List β} (h : m.list.Holds i as bs)
    (hf : ∀ {j a b}, j.Grounded → m.Holds j a b → (f b).Gives .same a j) :
    (each f bs).Gives .same as i :=
  gives_eachSelf hi h fun _ hij _ _ _ _ hab => hf hij.grounded hab

theorem gives_readOption {t? : Option Ty} {id? : Option Nat}
    (h : Meaning.type.option.Holds i t? id?) : (readOption id?).Gives .same t? i := by
  cases h with
  | none => exact gives_pure rfl
  | some h => exact Gives.bind hi (gives_read hi h) fun _ _ _ ht => gives_pure (congrArg some ht)

theorem gives_readClause {c : LateBridge.ConstraintClause} {c' : ConstraintClause}
    (h : clause.Holds i c c') : (readClause c').Gives .same c i := by
  obtain ⟨htypes⟩ := h
  refine Gives.bind hi (gives_eachRead hi htypes gives_read) fun j types _ htypes => gives_pure ?_
  obtain rfl : types = c.types := htypes
  rfl

theorem gives_readParam {q : LateBridge.WrapperParam} {q' : WrapperParam}
    (h : param.Holds i q q') : (readParam q').Gives .same q i := by
  obtain ⟨htype, htarget⟩ := h
  refine Gives.bind hi (gives_read hi htype) fun j type hij htype => ?_
  refine Gives.bind hij.grounded (gives_read hij.grounded (htarget.mono hij))
    fun k target _ htarget => gives_pure ?_
  obtain rfl : type = q.type := htype
  obtain rfl : target = q.target := htarget
  rfl

theorem gives_readWrapper {w : LateBridge.Wrapper} {w' : Wrapper} (h : wrapper.Holds i w w') :
    (readWrapper w').Gives .same w i := by
  obtain ⟨hreturns, hconstraints, hparams⟩ := h
  refine Gives.bind hi (gives_read hi hreturns) fun j returns hij hreturns => ?_
  refine Gives.bind hij.grounded (gives_eachRead hij.grounded (Meaning.mono _ hconstraints hij)
    fun hj h => gives_readClause hj h) fun k constraints hjk hconstraints => ?_
  refine Gives.bind hjk.grounded (gives_eachRead hjk.grounded
    (Meaning.mono _ hparams (hij.trans hjk)) fun hj h => gives_readParam hj h)
    fun l params _ hparams => gives_pure ?_
  obtain rfl : returns = w.returns := hreturns
  obtain rfl : constraints = w.constraints := hconstraints
  obtain rfl : params = w.params := hparams
  rfl

theorem gives_readErasure {x : TypeVar × Ty} {x' : TypeVar × Nat}
    (h : (Meaning.same.pair .type).Holds i x x') : (readErasure x').Gives .same x i :=
  Gives.bind hi (gives_read hi h.2) fun _ _ _ ht => gives_pure (Prod.ext h.1 ht)

/-- **Reading a plan gives what it means.** -/
theorem gives_readPlan {p : BridgePlan} {p' : Plan} (h : plan.Holds i p p') :
    (readPlan p').Gives .same p i := by
  obtain ⟨herasures, hwrapper, hshape⟩ := h
  obtain ⟨hvalue⟩ := hshape
  refine Gives.bind hi (gives_eachRead hi herasures fun hj h => gives_readErasure hj h)
    fun j erasures hij herasures => ?_
  refine Gives.bind hij.grounded (gives_readWrapper hij.grounded (wrapper.mono hwrapper hij))
    fun k w hjk hw => ?_
  refine Gives.bind hjk.grounded (gives_readOption hjk.grounded
    (Meaning.mono _ hvalue (hij.trans hjk))) fun l value? _ hvalue => gives_pure ?_
  obtain rfl : erasures = p.erasures := herasures
  obtain rfl : w = p.wrapper := hw
  obtain rfl : value? = p.shape.value? := hvalue
  rfl

end Reading

/-! ## Renaming -/

section Renaming

variable (σ : Nat → Nat)

/-- A parameter under other numbers. -/
def WrapperParam.rename (q : WrapperParam) : WrapperParam :=
  { q with type := σ q.type, target := σ q.target }

/-- A clause under other numbers. -/
def ConstraintClause.rename (c : ConstraintClause) : ConstraintClause :=
  { c with types := c.types.map σ }

/-- A signature under other numbers. -/
def Wrapper.rename (w : Wrapper) : Wrapper :=
  { w with
    returns := σ w.returns, constraints := w.constraints.map (·.rename σ)
    params := w.params.map (·.rename σ) }

/-- **A plan under other numbers.** -/
def Plan.rename (p : Plan) : Plan :=
  { p with
    erasures := p.erasures.map fun (v, id) => (v, σ id), wrapper := p.wrapper.rename σ
    shape := { p.shape with value? := p.shape.value?.map σ } }

/-- **Taking the numbers of one table to those of another one** that stand for the same types. -/
def Renumbers (i j : Numbers) : Prop :=
  ∀ {t : Ty} {id id' : Nat}, i.Denotes t id → j.Denotes t id' → id' = σ id

variable {σ} {i j : Numbers}

/-- What means the same element by element is renamed element by element. -/
theorem list_eq_map {α β : Type} {m : Meaning α β} {f : β → β} {as : List α} {bs bs' : List β}
    (h : m.list.Holds i as bs) (h' : m.list.Holds j as bs')
    (step : ∀ {a b b'}, m.Holds i a b → m.Holds j a b' → b' = f b) : bs' = bs.map f := by
  induction h generalizing bs' with
  | nil =>
    cases h'
    rfl
  | cons hab _ ih =>
    obtain ⟨b', bs', hab', hrest, rfl⟩ := List.forall₂_cons_left_iff.mp h'
    rw [List.map_cons, step hab hab', ih hrest]

variable (hσ : Renumbers σ i j)

include hσ

theorem param_eq_rename {q : LateBridge.WrapperParam} {n n' : WrapperParam}
    (h : param.Holds i q n) (h' : param.Holds j q n') : n' = n.rename σ := by
  obtain ⟨htype, htarget⟩ := h
  obtain ⟨htype', htarget'⟩ := h'
  rw [WrapperParam.rename, hσ htype htype', hσ htarget htarget']

theorem clause_eq_rename {c : LateBridge.ConstraintClause} {n n' : ConstraintClause}
    (h : clause.Holds i c n) (h' : clause.Holds j c n') : n' = n.rename σ := by
  obtain ⟨htypes⟩ := h
  obtain ⟨htypes'⟩ := h'
  rw [ConstraintClause.rename, list_eq_map htypes htypes' hσ]

theorem wrapper_eq_rename {w : LateBridge.Wrapper} {n n' : Wrapper} (h : wrapper.Holds i w n)
    (h' : wrapper.Holds j w n') : n' = n.rename σ := by
  obtain ⟨hreturns, hconstraints, hparams⟩ := h
  obtain ⟨hreturns', hconstraints', hparams'⟩ := h'
  rw [Wrapper.rename, hσ hreturns hreturns',
    list_eq_map hconstraints hconstraints' (clause_eq_rename hσ),
    list_eq_map hparams hparams' (param_eq_rename hσ)]

theorem option_eq_map {t? : Option Ty} {id? id?' : Option Nat}
    (h : Meaning.type.option.Holds i t? id?) (h' : Meaning.type.option.Holds j t? id?') :
    id?' = id?.map σ := by
  cases h with
  | none =>
    cases h'
    rfl
  | some h =>
    cases h' with
    | some h' => exact congrArg some (hσ h h')

/-- **Plans that mean the same differ by the renaming of their numbers.** -/
theorem plan_eq_rename {p : BridgePlan} {n n' : Plan} (h : plan.Holds i p n)
    (h' : plan.Holds j p n') : n' = n.rename σ := by
  obtain ⟨herasures, hwrapper, ⟨hvalue⟩⟩ := h
  obtain ⟨herasures', hwrapper', ⟨hvalue'⟩⟩ := h'
  have hstep {x : TypeVar × Ty} {n n' : TypeVar × Nat}
      (h : (Meaning.same.pair .type).Holds i x n) (h' : (Meaning.same.pair .type).Holds j x n') :
      n' = (n.1, σ n.2) := Prod.ext (Eq.trans h'.1 h.1.symm) (hσ h.2 h'.2)
  rw [Plan.rename, list_eq_map herasures herasures' hstep, wrapper_eq_rename hσ hwrapper hwrapper',
    option_eq_map hσ hvalue hvalue']

end Renaming

open Classical in
/-- **The renaming of one table to another one that knows the same types**: other numbers go to free
ones. -/
noncomputable def renumber (i j : Numbers) (id : Nat) : Nat :=
  if h : ∃ id' t, i.Denotes t id ∧ j.Denotes t id' then h.choose else j.size + id

section Renumber

variable {i j : Numbers}

theorem renumbers_renumber : Renumbers (renumber i j) i j := by
  intro t id id' hid hid'
  have hex : ∃ id' t, i.Denotes t id ∧ j.Denotes t id' := ⟨id', t, hid, hid'⟩
  obtain ⟨u, hu, hu'⟩ := hex.choose_spec
  obtain rfl := hid.injective hu
  rw [renumber, dif_pos hex]
  exact hid'.unique hu'

theorem renumber_injective : Function.Injective (renumber i j) := by
  intro a b hab
  simp only [renumber] at hab
  split at hab <;> rename_i ha <;> split at hab <;> rename_i hb
  · obtain ⟨t, ht, ht'⟩ := ha.choose_spec
    obtain ⟨u, hu, hu'⟩ := hb.choose_spec
    rw [hab] at ht'
    obtain rfl := ht'.injective hu'
    exact ht.unique hu
  · obtain ⟨t, -, ht'⟩ := ha.choose_spec
    have := ht'.lt_size
    omega
  · obtain ⟨t, -, ht'⟩ := hb.choose_spec
    have := ht'.lt_size
    omega
  · omega

end Renumber

end Numbered

end LateBridge
