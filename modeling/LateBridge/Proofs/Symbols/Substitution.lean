import LateBridge.Symbols.Ty
import Mathlib.Logic.Basic

/-!
# Proofs/Symbols/Substitution — one substitution after another

Substitutions compose (`subst_subst`), and only what they say about the variables of a type matters
(`subst_congr`).  Both together give the law the hierarchy lives on: instantiating a declaration and
then substituting is instantiating with the substituted arguments (`subst_bindArgs`), as long as the
second substitution leaves the variables alone that the arguments do not reach.  A property of every
named type within a type (`EachNamed`) is kept if what is put in has it (`EachNamed.subst`).
-/

namespace LateBridge

theorem mem_of_lookup {α β : Type} [BEq α] [LawfulBEq α] {s : List (α × β)} {a : α} {b : β}
    (h : s.lookup a = some b) : (a, b) ∈ s := by
  obtain ⟨before, after, rfl, -⟩ := List.lookup_eq_some_iff.mp h
  exact List.mem_append_right _ List.mem_cons_self

theorem exists_lookup_of_mem {α β : Type} [BEq α] [LawfulBEq α] {s : List (α × β)} {x : α × β}
    (h : x ∈ s) : ∃ b, s.lookup x.1 = some b :=
  Option.isSome_iff_exists.mp (List.lookup_isSome_iff.mpr ⟨x, h, beq_self_eq_true _⟩)

namespace Ty

/-! ## Induction over a type and the types in it -/

/-- **Induction on types**, with one hypothesis for all types of a list. -/
@[elab_as_elim]
theorem induct {P : Ty → Prop} (named : ∀ n args, (∀ a ∈ args, P a) → P (.named n args))
    (array : ∀ element rank, P element → P (.array element rank)) (var : ∀ v, P (.var v))
    (pointer : ∀ target, P target → P (.pointer target))
    (fnptr : ∀ params ret, (∀ p ∈ params, P p) → P ret → P (.fnptr params ret))
    (void : P .void) (dynamic : P .dynamic) (error : P .error) (t : Ty) : P t :=
  @Ty.rec P (fun ts => ∀ t ∈ ts, P t) named array var pointer fnptr void dynamic error
    (fun _ h => absurd h List.not_mem_nil)
    (fun _ _ hhead htail t ht => (List.mem_cons.mp ht).elim (fun e => e ▸ hhead) (htail t)) t

/-! ## Equations over lists -/

@[simp] theorem subst_named (s : Subst) (n : DeclName) (args : List Ty) :
    (named n args).subst s = named n (args.map (subst s)) := by
  rw [subst, substList_eq_map]

@[simp] theorem subst_array (s : Subst) (element : Ty) (rank : Nat) :
    (array element rank).subst s = array (element.subst s) rank := by
  rw [subst]

@[simp] theorem subst_var (s : Subst) (v : TypeVar) :
    (var v).subst s = (s.lookup v).getD (var v) := by
  rw [subst]

@[simp] theorem subst_pointer (s : Subst) (target : Ty) :
    (pointer target).subst s = pointer (target.subst s) := by
  rw [subst]

@[simp] theorem subst_fnptr (s : Subst) (params : List Ty) (ret : Ty) :
    (fnptr params ret).subst s = fnptr (params.map (subst s)) (ret.subst s) := by
  rw [subst, substList_eq_map]

@[simp] theorem subst_plain (s : Subst) (n : DeclName) : (plain n).subst s = plain n := by
  simp [plain]

theorem varsList_eq_flatMap (ts : List Ty) : varsList ts = ts.flatMap vars := by
  induction ts with
  | nil => rfl
  | cons t ts ih => rw [varsList, ih, List.flatMap_cons]

@[simp] theorem mem_vars_named {v : TypeVar} {n : DeclName} {args : List Ty} :
    v ∈ (named n args).vars ↔ ∃ a ∈ args, v ∈ a.vars := by
  rw [vars, varsList_eq_flatMap, List.mem_flatMap]

@[simp] theorem mem_vars_array {v : TypeVar} {element : Ty} {rank : Nat} :
    v ∈ (array element rank).vars ↔ v ∈ element.vars := by
  rw [vars]

@[simp] theorem mem_vars_var {v w : TypeVar} : v ∈ (var w).vars ↔ v = w := by
  rw [vars, List.mem_singleton]

@[simp] theorem mem_vars_pointer {v : TypeVar} {target : Ty} :
    v ∈ (pointer target).vars ↔ v ∈ target.vars := by
  rw [vars]

@[simp] theorem mem_vars_fnptr {v : TypeVar} {params : List Ty} {ret : Ty} :
    v ∈ (fnptr params ret).vars ↔ (∃ p ∈ params, v ∈ p.vars) ∨ v ∈ ret.vars := by
  rw [vars, List.mem_append, varsList_eq_flatMap, List.mem_flatMap]

/-! ## What a substitution depends on -/

/-- **Substitutions that agree on the variables of a type agree on the type.** -/
theorem subst_congr {s r : Subst} (t : Ty)
    (h : ∀ v ∈ t.vars, (var v).subst s = (var v).subst r) : t.subst s = t.subst r := by
  induction t using induct with
  | named n args ih =>
    rw [subst_named, subst_named, List.map_congr_left fun a ha =>
      ih a ha fun v hv => h v (mem_vars_named.mpr ⟨a, ha, hv⟩)]
  | array element rank ih =>
    rw [subst_array, subst_array, ih fun v hv => h v (mem_vars_array.mpr hv)]
  | var v => exact h v (mem_vars_var.mpr rfl)
  | pointer target ih =>
    rw [subst_pointer, subst_pointer, ih fun v hv => h v (mem_vars_pointer.mpr hv)]
  | fnptr params ret ihp ihr =>
    rw [subst_fnptr, subst_fnptr, ihr fun v hv => h v (mem_vars_fnptr.mpr (.inr hv)),
      List.map_congr_left fun p hp =>
        ihp p hp fun v hv => h v (mem_vars_fnptr.mpr (.inl ⟨p, hp, hv⟩))]
  | void | dynamic | error => rfl

/-- **The variables of a substituted type** are those of what stands in for its variables. -/
theorem mem_vars_subst {s : Subst} {t : Ty} {v : TypeVar} :
    v ∈ (t.subst s).vars ↔ ∃ w ∈ t.vars, v ∈ ((var w).subst s).vars := by
  have hlist : ∀ ts : List Ty,
      (∀ a ∈ ts, v ∈ (a.subst s).vars ↔ ∃ w ∈ a.vars, v ∈ ((var w).subst s).vars) →
      ((∃ a ∈ ts.map (subst s), v ∈ a.vars) ↔
        ∃ w, (∃ a ∈ ts, w ∈ a.vars) ∧ v ∈ ((var w).subst s).vars) := by
    intro ts ih
    constructor
    · rintro ⟨_, hmem, hv⟩
      obtain ⟨a, ha, rfl⟩ := List.mem_map.mp hmem
      obtain ⟨w, hw, hvw⟩ := (ih a ha).mp hv
      exact ⟨w, ⟨a, ha, hw⟩, hvw⟩
    · rintro ⟨w, ⟨a, ha, hw⟩, hvw⟩
      exact ⟨_, List.mem_map_of_mem ha, (ih a ha).mpr ⟨w, hw, hvw⟩⟩
  induction t using induct with
  | named n args ih => simp only [subst_named, mem_vars_named, hlist args ih]
  | array element rank ih => simp only [subst_array, mem_vars_array, ih]
  | var w => simp only [mem_vars_var, exists_eq_left]
  | pointer target ih => simp only [subst_pointer, mem_vars_pointer, ih]
  | fnptr params ret ihp ihr =>
    simp only [subst_fnptr, mem_vars_fnptr, hlist params ihp, ihr, or_and_right, exists_or]
  | void | dynamic | error => simp [subst, vars]

/-! ## Composition -/

/-- **One substitution after another**: what the first puts in is substituted by the second, and
what the first does not know is left to it. -/
def Subst.andThen (s r : Subst) : Subst := s.map (fun (v, t) => (v, t.subst r)) ++ r

theorem lookup_map_snd (f : Ty → Ty) (s : Subst) (v : TypeVar) :
    (s.map fun (w, t) => (w, f t)).lookup v = (s.lookup v).map f := by
  induction s with
  | nil => rfl
  | cons p s ih =>
    obtain ⟨w, t⟩ := p
    by_cases hvw : v = w
    · subst hvw
      simp
    · have hbeq : (v == w) = false := by simpa using hvw
      simp only [List.map_cons, List.lookup_cons, hbeq, ih]

theorem lookup_andThen (s r : Subst) (v : TypeVar) :
    (Subst.andThen s r).lookup v = ((s.lookup v).map (subst r)).or (r.lookup v) := by
  rw [Subst.andThen, List.lookup_append, lookup_map_snd]

/-- **Substitutions compose.** -/
theorem subst_subst (s r : Subst) (t : Ty) : (t.subst s).subst r = t.subst (s.andThen r) := by
  induction t using induct with
  | named n args ih =>
    have hargs : args.map (subst r ∘ subst s) = args.map (subst (s.andThen r)) :=
      List.map_congr_left ih
    rw [subst_named, subst_named, subst_named, List.map_map, hargs]
  | array element rank ih => rw [subst_array, subst_array, subst_array, ih]
  | var v =>
    rw [subst_var, subst_var, lookup_andThen]
    cases s.lookup v with
    | none => rw [Option.getD_none, subst_var, Option.map_none, Option.none_or]
    | some t => rfl
  | pointer target ih => rw [subst_pointer, subst_pointer, subst_pointer, ih]
  | fnptr params ret ihp ihr =>
    have hparams : params.map (subst r ∘ subst s) = params.map (subst (s.andThen r)) :=
      List.map_congr_left ihp
    rw [subst_fnptr, subst_fnptr, subst_fnptr, List.map_map, hparams, ihr]
  | void | dynamic | error => rfl

/-- **Instantiating and then substituting is instantiating with substituted arguments**, if the
substitution knows no variable of the type that has no argument. -/
theorem subst_bindArgs {t : Ty} {n : DeclName} {args : List Ty} {r : Subst}
    (h : ∀ v ∈ t.vars, (n.bindArgs args).lookup v = none → r.lookup v = none) :
    (t.subst (n.bindArgs args)).subst r = t.subst (n.bindArgs (args.map (subst r))) := by
  have hmap : n.bindArgs (args.map (subst r))
      = (n.bindArgs args).map fun (v, t) => (v, t.subst r) := by
    rw [DeclName.bindArgs, DeclName.bindArgs, List.zip_map_right]
    rfl
  rw [subst_subst]
  refine subst_congr t fun v hv => ?_
  rw [subst_var, subst_var, lookup_andThen, hmap, lookup_map_snd]
  cases hlookup : (n.bindArgs args).lookup v with
  | none => simp [h v hv hlookup]
  | some a => rfl

/-! ## Named types within a type -/

/-- **A property of every named type** within a type. -/
inductive EachNamed (P : DeclName → List Ty → Prop) : Ty → Prop where
  | named {n : DeclName} {args : List Ty} (h : P n args) (inside : ∀ a ∈ args, EachNamed P a) :
      EachNamed P (.named n args)
  | array {element : Ty} {rank : Nat} (h : EachNamed P element) : EachNamed P (.array element rank)
  | var (v : TypeVar) : EachNamed P (.var v)
  | pointer {target : Ty} (h : EachNamed P target) : EachNamed P (.pointer target)
  | fnptr {params : List Ty} {ret : Ty} (hparams : ∀ p ∈ params, EachNamed P p)
      (hret : EachNamed P ret) : EachNamed P (.fnptr params ret)
  | void : EachNamed P .void
  | dynamic : EachNamed P .dynamic
  | error : EachNamed P .error

variable {P Q : DeclName → List Ty → Prop} {s : Subst} {t : Ty}

theorem eachNamed_of_forall (h : ∀ n args, P n args) (t : Ty) : t.EachNamed P := by
  induction t using induct with
  | named n args ih => exact .named (h n args) ih
  | array _ _ ih => exact .array ih
  | var v => exact .var v
  | pointer _ ih => exact .pointer ih
  | fnptr _ _ hparams hret => exact .fnptr hparams hret
  | void => exact .void
  | dynamic => exact .dynamic
  | error => exact .error

theorem EachNamed.imp (h : t.EachNamed P) (himp : ∀ n args, P n args → Q n args) :
    t.EachNamed Q := by
  induction h with
  | named h _ ih => exact .named (himp _ _ h) ih
  | array _ ih => exact .array ih
  | var v => exact .var v
  | pointer _ ih => exact .pointer ih
  | fnptr _ _ hparams hret => exact .fnptr hparams hret
  | void => exact .void
  | dynamic => exact .dynamic
  | error => exact .error

/-- A property of all named types within a type, with the types inside. -/
theorem EachNamed.within (h : t.EachNamed P) :
    t.EachNamed fun n args => (Ty.named n args).EachNamed P := by
  induction h with
  | named h inside ih => exact .named (.named h inside) ih
  | array _ ih => exact .array ih
  | var v => exact .var v
  | pointer _ ih => exact .pointer ih
  | fnptr _ _ hparams hret => exact .fnptr hparams hret
  | void => exact .void
  | dynamic => exact .dynamic
  | error => exact .error

/-- **Named types within a substituted type** are those of the type, and those that are put in. -/
theorem EachNamed.subst (h : t.EachNamed P)
    (hnamed : ∀ n args, P n args → P n (args.map (Ty.subst s)))
    (hvar : ∀ v, ((Ty.var v).subst s).EachNamed P) : (t.subst s).EachNamed P := by
  induction h with
  | named h _ ih =>
    rw [subst_named]
    exact .named (hnamed _ _ h) (List.forall_mem_map.mpr ih)
  | array _ ih =>
    rw [subst_array]
    exact .array ih
  | var v => exact hvar v
  | pointer _ ih =>
    rw [subst_pointer]
    exact .pointer ih
  | fnptr _ _ hparams hret =>
    rw [subst_fnptr]
    exact .fnptr (List.forall_mem_map.mpr hparams) hret
  | void => exact .void
  | dynamic => exact .dynamic
  | error => exact .error

/-- The named types of a type come with what is put in for its variables. -/
theorem EachNamed.of_subst (h : (t.subst s).EachNamed P) :
    t.EachNamed fun n args => P n (args.map (Ty.subst s)) := by
  induction t using induct with
  | named n args ih =>
    rw [subst_named] at h
    cases h with
    | named h inside => exact .named h fun a ha => ih a ha (inside _ (List.mem_map_of_mem ha))
  | array element rank ih =>
    rw [subst_array] at h
    cases h with
    | array h => exact .array (ih h)
  | var v => exact .var v
  | pointer target ih =>
    rw [subst_pointer] at h
    cases h with
    | pointer h => exact .pointer (ih h)
  | fnptr params ret hparams hret =>
    rw [subst_fnptr] at h
    cases h with
    | fnptr hps hr =>
      exact .fnptr (fun p hp => hparams p hp (hps _ (List.mem_map_of_mem hp))) (hret hr)
  | void => exact .void
  | dynamic => exact .dynamic
  | error => exact .error

end Ty

end LateBridge
