import LateBridge.Proofs.Document.Derived

/-!
# Proofs/Document/Determined — nothing undetermined is stored

A reference either denotes a type without an undetermined part or loading fails
(`Graph.determined_of_bindType`).  So heads and constraints of a loaded graph are determined, and
putting determined arguments into a head leaves it so (`Graph.DeterminedHeads.base?`).
-/

namespace LateBridge

namespace Ty

/-- **A determined type**: no part of it could not be determined. -/
inductive Determined : Ty → Prop where
  | named {n : DeclName} {args : List Ty} (inside : ∀ a ∈ args, Determined a) :
      Determined (.named n args)
  | array {element : Ty} {rank : Nat} (h : Determined element) : Determined (.array element rank)
  | var {v : TypeVar} : Determined (.var v)
  | pointer {target : Ty} (h : Determined target) : Determined (.pointer target)
  | fnptr {params : List Ty} {ret : Ty} (hparams : ∀ p ∈ params, Determined p)
      (hret : Determined ret) : Determined (.fnptr params ret)
  | void : Determined .void
  | dynamic : Determined .dynamic

theorem Determined.ne_error {t : Ty} (h : t.Determined) : t ≠ .error := by
  rintro rfl
  cases h

theorem determined_plain (n : DeclName) : (plain n).Determined := .named (List.forall_mem_nil _)

theorem Determined.subst {r : Subst} {t : Ty} (h : t.Determined)
    (hr : ∀ v u, r.lookup v = some u → u.Determined) : (t.subst r).Determined := by
  induction h with
  | named _ ih =>
    rw [subst_named]
    exact .named (List.forall_mem_map.mpr ih)
  | array _ ih =>
    rw [subst_array]
    exact .array ih
  | @var v =>
    rw [subst_var]
    cases hv : r.lookup v with
    | none => exact .var
    | some u => exact hr v u hv
  | pointer _ ih =>
    rw [subst_pointer]
    exact .pointer ih
  | fnptr _ _ hparams hret =>
    rw [subst_fnptr]
    exact .fnptr (List.forall_mem_map.mpr hparams) hret
  | void => exact .void
  | dynamic => exact .dynamic

end Ty

namespace Graph

variable {g : Graph} {s : Scope}

/-! ## References -/

theorem WordType.determined {t : Ty} (h : g.WordType s t) : t.Determined := by
  cases h with
  | void => exact .void
  | dynamic => exact .dynamic
  | special hspecial =>
    obtain ⟨d, -, rfl⟩ := Option.map_eq_some_iff.mp hspecial
    exact Ty.determined_plain d.name
  | var _ => exact .var

theorem determined_nullableOf {t : Ty} (h : t.Determined) : (g.nullableOf t).Determined := by
  rw [nullableOf]
  split
  · split
    · exact .named (List.forall_mem_singleton.mpr h)
    · exact h
  · exact h

theorem determined_completeArgs {n : DeclName} {args : List Ty} (h : ∀ a ∈ args, a.Determined) :
    ∀ a ∈ completeArgs n args, a.Determined := by
  intro a ha
  obtain ha | ha := List.mem_append.mp ha
  · obtain ⟨v, -, rfl⟩ := List.mem_map.mp ha
    exact .var
  · exact h a ha

theorem referenceClosed_determined : g.ReferenceClosed s Ty.Determined where
  word := WordType.determined
  array := .array
  pointer := .pointer
  nullable := determined_nullableOf
  fnptr := .fnptr
  named _ hargs := .named (determined_completeArgs hargs)

/-- **What a reference denotes is determined.** -/
theorem determined_of_bindType {context text : String} {t : Ty}
    (h : g.bindType s context text = .ok t) : t.Determined :=
  referenceClosed_determined.of_bindType h

/-! ## Heads -/

/-- **A graph with determined heads.** -/
def DeterminedHeads (g : Graph) : Prop :=
  ∀ d ∈ g.decls, ∀ t ∈ d.base?.toList ++ d.interfaces, t.Determined

namespace DeterminedHeads

variable (hg : g.DeterminedHeads) {t u : Ty}

include hg

/-- A type of a head, with determined arguments put in. -/
theorem head {n : DeclName} {args : List Ty} (h : (Ty.named n args).Determined) {d : TypeDecl}
    (hd : d ∈ g.decls) (ht : t ∈ d.base?.toList ++ d.interfaces) :
    (t.subst (n.bindArgs args)).Determined := by
  cases h with
  | named inside =>
    exact (hg d hd t ht).subst fun v a hv => inside a (List.of_mem_zip (mem_of_lookup hv)).2

theorem base? (h : t.Determined) (hu : g.base? t = some u) : u.Determined := by
  cases t with
  | named n args =>
    obtain ⟨d, b, hd, hb, rfl⟩ := base?_named_eq_some hu
    exact hg.head h (mem_decls_of_find? hd) (by simp [hb])
  | array element rank =>
    obtain ⟨d, -, rfl⟩ := Option.map_eq_some_iff.mp hu
    exact Ty.determined_plain d.name
  | _ => cases hu

theorem interface (h : t.Determined) (hu : g.Extends t u) : u.Determined := by
  obtain ⟨n, args, d, i, hi, rfl, hd, rfl⟩ := hu.exists_decl
  exact hg.head h (mem_decls_of_find? hd) (List.mem_append_right _ hi)

end DeterminedHeads

end Graph

/-! ## Loaded graphs -/

section Loaded

variable {docs : List GraphDocument} {g : Graph} (h : load docs = .ok g)

include h

theorem determinedHeads_of_load : g.DeterminedHeads := by
  intro d hd
  obtain ⟨outline, e, -, hbinds⟩ := exists_binds h hd
  refine Graph.forall_mem_head (fun _ _ => Graph.determined_of_bindType) (fun b hb => ?_) hbinds.head
  obtain ⟨n, rfl⟩ := Graph.exists_plain_of_defaultBase? hb
  exact Ty.determined_plain n

/-- **The constraint types of a method's parameters are determined.** -/
theorem determined_of_mem_constraintTypes {m : Method} (hm : m ∈ g.methods) {v : TypeVar}
    (hv : v ∈ m.vars) : ∀ t ∈ g.constraintTypes v, t.Determined := by
  intro t ht
  obtain ⟨q, hq, ht⟩ := List.mem_flatMap.mp (constraintTypes_subset h hm hv ht)
  obtain ⟨d, hd, hmd⟩ := List.mem_flatMap.mp hm
  obtain ⟨declared, -, hall⟩ := forall₂_loads h
  obtain ⟨e, -, declared', generics, head, hdeclared, hgenerics, -, hbind⟩ :=
    exists_of_mem_forall₂ hall hd
  obtain ⟨methods, hmethods, hbind⟩ := bind_eq_ok_iff.mp hbind
  cases hbind
  obtain ⟨doc, -, position, declared'', typeParams, -, hparams, hmethod⟩ :=
    Graph.exists_loadsMethod hdeclared hgenerics hmethods m hmd
  obtain ⟨params, -, hmethod⟩ := bind_eq_ok_iff.mp hmethod
  obtain ⟨returns, -, hmethod⟩ := bind_eq_ok_iff.mp hmethod
  cases hmethod
  obtain ⟨⟨q', paramDoc⟩, -, hparam⟩ := exists_of_mem_mapM hparams hq
  obtain ⟨types, htypes, hparam⟩ := bind_eq_ok_iff.mp hparam
  cases hparam
  obtain ⟨text, -, hbind⟩ := exists_of_mem_mapM htypes ht
  exact Graph.determined_of_bindType hbind

end Loaded

end LateBridge
