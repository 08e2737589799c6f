import LateBridge.Proofs.Document.Derived
import LateBridge.Proofs.Symbols.VisitLimits

/-!
# Proofs/Document/Supplied — heads have all their arguments

    written reference ──looked up──▸ declared name ──arguments completed──▸ applied type

A reference to a declared type is completed to as many arguments as the type has parameters along
its containing chain.  That needs nothing of the names of a program: whatever a reference finds is
declared, and completing looks at the declaration that was found.  So going up from a type that has
all its arguments, at every depth, leads to such types only (`filledHeads_of_load`); and where heads
are classes and interfaces, going up from any type leads to applied types (`appliedHeads_of_load`).
-/

namespace LateBridge

/-! ## Applied types -/

namespace Ty

/-- **A supplied type**: if it is named, it is declared and no argument is missing. -/
def Supplied (names : List DeclName) (t : Ty) : Prop :=
  ∀ n args, t = .named n args → n ∈ names ∧ n.totalArity ≤ args.length

/-- **An applied type** is supplied and no variable, for which any type may be put in. -/
structure Applied (names : List DeclName) (t : Ty) : Prop where
  ne_var : ∀ v, t ≠ .var v
  supplied : t.Supplied names

variable {names : List DeclName} {t : Ty}

theorem WellFormed.supplied {vars : List TypeVar} (h : t.WellFormed names vars) :
    t.Supplied names := by
  rintro n args rfl
  cases h with
  | named declared arity _ => exact ⟨declared, arity.ge⟩

theorem applied_array (names : List DeclName) (element : Ty) (rank : Nat) :
    (array element rank).Applied names where
  ne_var _ h := nomatch h
  supplied _ _ h := nomatch h

theorem Applied.subst (h : t.Applied names) (r : Subst) : (t.subst r).Applied names := by
  cases t with
  | named n args =>
    rw [subst_named]
    refine ⟨fun _ h => (nomatch h), ?_⟩
    rintro m more ⟨⟩
    obtain ⟨declared, enough⟩ := h.supplied n args rfl
    exact ⟨declared, by rwa [List.length_map]⟩
  | var v => exact absurd rfl (h.ne_var v)
  | _ => exact ⟨fun _ h => (nomatch h), fun _ _ h => nomatch h⟩

/-- **A filled type**: no named type in it misses an argument. -/
def Filled (t : Ty) : Prop := t.EachNamed fun n args => n.totalArity ≤ args.length

/-- **An exact type**: each named type in it has one argument for each type parameter along its
containing chain. -/
def Exact (t : Ty) : Prop := t.EachNamed fun n args => args.length = n.totalArity

theorem Exact.filled (h : t.Exact) : t.Filled := h.imp fun _ _ h => h.ge

theorem WellFormed.exact {vars : List TypeVar} (h : t.WellFormed names vars) : t.Exact := by
  induction h with
  | named _ arity _ ih => exact .named arity ih
  | array _ _ _ ih => exact .array ih
  | var => exact .var _
  | pointer _ ih => exact .pointer ih
  | fnptr _ _ hparams hret => exact .fnptr hparams hret
  | void => exact .void
  | dynamic => exact .dynamic

theorem Filled.subst (h : t.Filled) {r : Subst} (hr : ∀ v, ((var v).subst r).Filled) :
    (t.subst r).Filled :=
  EachNamed.subst h (fun _ _ enough => by rwa [List.length_map]) hr

/-- A filled type over parameters that get filled arguments. -/
theorem Filled.subst_bindArgs (h : t.Filled) (n : DeclName) {args : List Ty}
    (hargs : ∀ a ∈ args, a.Filled) : (t.subst (n.bindArgs args)).Filled := by
  refine h.subst fun v => ?_
  rw [subst_var]
  cases hv : (n.bindArgs args).lookup v with
  | none => exact .var v
  | some a => exact hargs a (List.of_mem_zip (mem_of_lookup hv)).2

end Ty

/-! ## References -/

/-- The wrapper of value types takes at most one argument, whatever it is called. -/
theorem DeclName.totalArity_le_one {n : DeclName} (h : n.metadata = "System.Nullable`1") :
    n.totalArity ≤ 1 := by
  cases n with
  | top space name params =>
    have htext : stepText (spacePrefix space ++ name, params.length) =
        stepText ("System.Nullable", 1) := h.trans (by decide)
    have hlist := congrArg String.toList htext.symm
    rw [toList_stepText, toList_stepText, if_neg Nat.one_ne_zero] at hlist
    by_contra hmore
    have hlength : params.length ≠ 0 := fun hnone => hmore (hnone.trans_le (Nat.zero_le 1))
    have hdigits : '`' ∉ Nat.toDigits 10 1 := Text.not_mem_digits (by decide) 1
    rw [if_neg hlength] at hlist
    obtain ⟨-, -, hnum⟩ := (List.append_cons_inj_of_notMem (by simp) hdigits).mp hlist
    exact hmore (Text.digits_injective hnum).ge
  | nested outer name params =>
    have hplus : '+' ∈ (nested outer name params).metadata.toList := by simp [metadata]
    rw [h] at hplus
    exact absurd hplus (by simp)

namespace Graph

variable {g : Graph} {s : Scope} {t : Ty}

theorem supplied_nullableOf (h : t.Supplied g.names) : (g.nullableOf t).Supplied g.names := by
  rw [nullableOf]
  split
  · split
    · rename_i d hd
      rintro n args ⟨⟩
      exact ⟨mem_names_of_find? hd, DeclName.totalArity_le_one (metadata_of_find? hd)⟩
    · exact h
  · exact h

theorem le_length_completeArgs (n : DeclName) (args : List Ty) :
    n.totalArity ≤ (completeArgs n args).length := by
  rw [completeArgs, List.length_append, List.length_map, List.length_take, n.length_vars]
  omega

theorem referenceClosed_supplied : g.ReferenceClosed s (·.Supplied g.names) where
  word h := h.wellFormed.supplied
  array _ _ _ h := nomatch h
  pointer _ _ _ h := nomatch h
  nullable := supplied_nullableOf
  fnptr _ _ _ _ h := nomatch h
  named hd _ := by
    rintro n args ⟨⟩
    exact ⟨List.mem_map_of_mem hd, le_length_completeArgs _ _⟩

theorem filled_nullableOf (h : t.Filled) : (g.nullableOf t).Filled := by
  rw [nullableOf]
  split
  · split
    · rename_i d hd
      have harity := DeclName.totalArity_le_one (metadata_of_find? hd)
      exact .named harity (List.forall_mem_singleton.mpr h)
    · exact h
  · exact h

theorem filled_completeArgs {n : DeclName} {args : List Ty} (h : ∀ a ∈ args, a.Filled) :
    (Ty.named n (completeArgs n args)).Filled := by
  refine .named (le_length_completeArgs n args) fun a ha => ?_
  rw [completeArgs] at ha
  obtain ha | ha := List.mem_append.mp ha
  · obtain ⟨v, -, rfl⟩ := List.mem_map.mp ha
    exact .var v
  · exact h a ha

theorem WordType.filled (h : g.WordType s t) : t.Filled := by
  cases h with
  | void => exact .void
  | dynamic => exact .dynamic
  | special hspecial =>
    have hformed : t.WellFormed g.names [] := wellFormed_of_special? hspecial
    exact hformed.exact.filled
  | var => exact .var _

theorem referenceClosed_filled : g.ReferenceClosed s Ty.Filled where
  word := WordType.filled
  array h := .array h
  pointer h := .pointer h
  nullable := filled_nullableOf
  fnptr hparams hret := .fnptr hparams hret
  named _ := filled_completeArgs

/-! ## Filled heads -/

/-- **A graph with filled heads.** -/
def FilledHeads (g : Graph) : Prop :=
  ∀ d ∈ g.decls, ∀ t ∈ d.base?.toList ++ d.interfaces, t.Filled

namespace FilledHeads

variable (hg : g.FilledHeads) {t u : Ty}

include hg

theorem head {n : DeclName} {args : List Ty} (h : (Ty.named n args).Filled) {d : TypeDecl}
    (hd : g.decl? n = some d) (ht : t ∈ d.base?.toList ++ d.interfaces) :
    (t.subst (n.bindArgs args)).Filled := by
  cases h with
  | named _ inside => exact Ty.Filled.subst_bindArgs (hg d (mem_decls_of_find? hd) t ht) n inside

theorem base? (h : t.Filled) (hu : g.base? t = some u) : u.Filled := by
  cases t with
  | named n args =>
    obtain ⟨d, b, hd, hb, rfl⟩ := base?_named_eq_some hu
    exact hg.head h hd (by simp [hb])
  | array element rank =>
    have hroot : u.WellFormed g.names [] := wellFormed_of_special? hu
    exact hroot.exact.filled
  | _ => cases hu

theorem interface (h : t.Filled) (hu : g.Extends t u) : u.Filled := by
  obtain ⟨n, args, d, i, hi, rfl, hd, rfl⟩ := hu.exists_decl
  exact hg.head h hd (List.mem_append_right _ hi)

/-- **Supertypes of filled types are filled.** -/
theorem of_mem_above (h : t.Filled) (hu : u ∈ g.baseChain t ++ g.allInterfaces t) : u.Filled := by
  obtain hu | hu := List.mem_append.mp hu
  · exact forall_mem_baseChain (fun _ _ ht hb => hg.base? ht hb) h u hu
  · exact forall_mem_allInterfaces (fun _ _ ht hb => hg.base? ht hb)
      (fun _ _ ht hi => hg.interface ht hi) h u hu

end FilledHeads

theorem WellStored.filledHeads (hg : g.WellStored) : g.FilledHeads :=
  fun d hd t ht => (hg.heads d hd t ht).exact.filled

/-! ## Applied heads -/

/-- **A graph with applied heads.** -/
def AppliedHeads (g : Graph) : Prop :=
  ∀ d ∈ g.decls, ∀ t ∈ d.base?.toList ++ d.interfaces, t.Applied g.names

namespace AppliedHeads

variable (hg : g.AppliedHeads) {t u : Ty}

include hg

/-- Base types are applied. -/
theorem base? (hu : g.base? t = some u) : u.Applied g.names := by
  cases t with
  | named n args =>
    obtain ⟨d, b, hd, hb, rfl⟩ := base?_named_eq_some hu
    exact (hg d (mem_decls_of_find? hd) b (by simp [hb])).subst _
  | array element rank =>
    have hroot : u.WellFormed g.names [] := wellFormed_of_special? hu
    obtain ⟨d, -, rfl⟩ := Option.map_eq_some_iff.mp hu
    exact ⟨fun _ h => (nomatch h), hroot.supplied⟩
  | _ => cases hu

/-- Interfaces are applied. -/
theorem interface (hu : g.Extends t u) : u.Applied g.names := by
  obtain ⟨n, args, d, i, hi, rfl, hd, rfl⟩ := hu.exists_decl
  exact (hg d (mem_decls_of_find? hd) i (List.mem_append_right _ hi)).subst _

theorem of_mem_baseChain (ht : t.Applied g.names) (hu : u ∈ t :: g.baseChain t) :
    u.Applied g.names := by
  obtain rfl | hu := List.mem_cons.mp hu
  · exact ht
  · exact forall_mem_baseChain (fun _ _ _ hb => hg.base? hb) ht u hu

theorem of_transGen (hu : Relation.TransGen g.Extends t u) : u.Applied g.names := by
  cases hu with
  | single hu => exact hg.interface hu
  | tail _ hu => exact hg.interface hu

end AppliedHeads

end Graph

/-- **The heads of a loaded graph are filled.** -/
theorem filledHeads_of_load {docs : List GraphDocument} {g : Graph} (h : load docs = .ok g) :
    g.FilledHeads := by
  intro d hd
  obtain ⟨outline, e, -, -, hloads⟩ := exists_outline h hd
  refine Graph.forall_mem_head (fun _ _ => Graph.referenceClosed_filled.of_bindType)
    (fun b hb => ?_) hloads.binds.head
  have hdefault : b.WellFormed outline.names [] := Graph.wellFormed_of_defaultBase? hb
  exact hdefault.exact.filled

/-- **The heads of a loaded graph are applied**, if they are classes and interfaces. -/
theorem appliedHeads_of_load {docs : List GraphDocument} {g : Graph} (h : load docs = .ok g)
    (hg : g.Accepted) : g.AppliedHeads := by
  intro d hd t ht
  obtain ⟨outline, e, houtline, -, hloads⟩ := exists_outline h hd
  have hsupplied : ∀ t ∈ d.base?.toList ++ d.interfaces, t.Supplied g.names := by
    refine houtline ▸ Graph.forall_mem_head (fun _ _ => Graph.referenceClosed_supplied.of_bindType)
      (fun b hb => ?_) hloads.binds.head
    have hdefault : b.WellFormed outline.names [] := Graph.wellFormed_of_defaultBase? hb
    exact hdefault.supplied
  refine ⟨?_, hsupplied t ht⟩
  rintro v rfl
  obtain ht | ht := List.mem_append.mp ht
  · cases hg.base_class d hd _ (Option.mem_toList.mp ht)
  · cases hg.extends_interface d hd _ ht

end LateBridge
