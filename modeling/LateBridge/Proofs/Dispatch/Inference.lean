import LateBridge.Dispatch.Binding
import LateBridge.Proofs.Results
import LateBridge.Proofs.Symbols.Assignability

/-!
# Proofs/Dispatch/Inference — when the type arguments of a call are found

A call binds exactly when its arguments match, every type parameter is bound and all checks pass
(`infer_eq_ok_iff`).
-/

namespace LateBridge

/-- **One substitution says no more than another.** -/
def Ty.Subst.Below (s r : Ty.Subst) : Prop := ∀ v t, s.lookup v = some t → r.lookup v = some t

theorem Ty.Subst.Below.refl (s : Ty.Subst) : s.Below s := fun _ _ h => h

theorem Ty.Subst.Below.trans {s r q : Ty.Subst} (h : s.Below r) (h' : r.Below q) : s.Below q :=
  fun v t hv => h' v t (h v t hv)

theorem Ty.Subst.below_nil (s : Ty.Subst) : Ty.Subst.Below [] s := fun _ _ h => nomatch h

namespace Graph

variable {g : Graph}

theorem mentions_eq_false {generic : List TypeVar} {t : Ty} :
    mentions generic t = false ↔ ∀ v ∈ t.vars, v ∉ generic := by
  simp [mentions]

/-! ## Calls that bind -/

/-- **The type arguments** are the bindings of the type parameters, in their order. -/
theorem instantiation_eq_ok_iff {bound s : Ty.Subst} {vs : List TypeVar} :
    instantiation bound vs = .ok s ↔
      List.Forall₂ (fun v p => p.1 = v ∧ bound.lookup v = some p.2) vs s := by
  induction vs generalizing s with
  | nil => simp [instantiation, eq_comm]
  | cons v vs ih =>
    rw [instantiation]
    split
    · rename_i hnone
      refine ⟨nofun, fun h => ?_⟩
      cases h with
      | cons hv _ => exact absurd (hnone.symm.trans hv.2) (Option.some_ne_none _).symm
    · rename_i t ht
      constructor
      · intro h
        split at h
        · rename_i rest hrest
          cases h
          exact .cons ⟨rfl, ht⟩ (ih.mp hrest)
        · cases h
      · intro h
        cases h with
        | cons hv hvs =>
          rename_i p rest
          obtain ⟨w, u⟩ := p
          obtain ⟨rfl, hu⟩ := hv
          obtain rfl : t = u := Option.some.inj (ht.symm.trans hu)
          rw [ih.mpr hvs]

theorem map_fst_of_instantiation {bound s : Ty.Subst} {vs : List TypeVar}
    (h : instantiation bound vs = .ok s) : s.map (·.1) = vs := by
  have hall := instantiation_eq_ok_iff.mp h
  clear h
  induction hall with
  | nil => rfl
  | cons hv _ ih => rw [List.map_cons, hv.1, ih]

theorem instantiation_eq_ok_iff_forall_mem {bound s : Ty.Subst} {vs : List TypeVar} :
    instantiation bound vs = .ok s ↔
      s.map (·.1) = vs ∧ ∀ p ∈ s, bound.lookup p.1 = some p.2 := by
  constructor
  · intro h
    have hvars := map_fst_of_instantiation h
    rw [instantiation_eq_ok_iff, ← hvars, List.forall₂_map_left_iff, List.forall₂_same] at h
    exact ⟨hvars, fun p hp => (h p hp).2⟩
  · rintro ⟨rfl, h⟩
    rw [instantiation_eq_ok_iff, List.forall₂_map_left_iff, List.forall₂_same]
    exact fun p hp => ⟨rfl, h p hp⟩

theorem checkConstraints_eq_ok_iff {s checked : Ty.Subst} :
    g.checkConstraints s checked = .ok () ↔ ∀ p ∈ checked, g.satisfies s p.1 p.2 = true := by
  induction checked with
  | nil => simp [checkConstraints]
  | cons p checked ih =>
    rw [checkConstraints, List.forall_mem_cons]
    split
    · rename_i hp
      rw [ih, and_iff_right hp]
    · rename_i hp
      exact ⟨nofun, fun h => absurd h.1 hp⟩

theorem checkArgs_eq_ok_iff {s : Ty.Subst} {pairs : List (Param × Value)} :
    g.checkArgs s pairs = .ok () ↔ ∀ p ∈ pairs, g.checkArg s p.1 p.2 = .ok () := by
  induction pairs with
  | nil => simp [checkArgs]
  | cons p pairs ih =>
    rw [checkArgs, List.forall_mem_cons]
    split
    · rename_i hp
      rw [ih, and_iff_right hp]
    · rename_i hp
      exact ⟨nofun, fun h => absurd (hp.symm.trans h.1) (by simp)⟩

/-- **A call binds** when its arguments match, every type parameter is bound, and all checks
pass. -/
theorem infer_eq_ok_iff {m : Method} {args : List Value} {s : Ty.Subst} :
    g.infer m args = .ok s ↔ args.length = m.params.length ∧
      ∃ bound, g.unifyArgs m.vars [] (m.params.zip args) = .ok bound ∧
        instantiation bound m.vars = .ok s ∧ (∀ p ∈ s, g.satisfies s p.1 p.2 = true) ∧
        ∀ x ∈ m.params.zip args, g.checkArg s x.1 x.2 = .ok () := by
  rw [infer]
  split
  · rename_i hlength
    exact ⟨nofun, fun h => absurd h.1 (by simpa using hlength)⟩
  · rename_i hlength
    have hlength : args.length = m.params.length := by simpa using hlength
    constructor
    · intro h
      obtain ⟨bound, hbound, h⟩ := bind_eq_ok_iff.mp h
      obtain ⟨s', hs', h⟩ := bind_eq_ok_iff.mp h
      obtain ⟨⟨⟩, hconstraints, h⟩ := bind_eq_ok_iff.mp h
      obtain ⟨⟨⟩, hargs, h⟩ := bind_eq_ok_iff.mp h
      cases h
      exact ⟨hlength, bound, hbound, hs', checkConstraints_eq_ok_iff.mp hconstraints,
        checkArgs_eq_ok_iff.mp hargs⟩
    · rintro ⟨-, bound, hbound, hs, hconstraints, hargs⟩
      refine bind_eq_ok_iff.mpr ⟨bound, hbound, bind_eq_ok_iff.mpr ⟨s, hs, ?_⟩⟩
      refine bind_eq_ok_iff.mpr ⟨(), checkConstraints_eq_ok_iff.mpr hconstraints, ?_⟩
      exact bind_eq_ok_iff.mpr ⟨(), checkArgs_eq_ok_iff.mpr hargs, rfl⟩

/-- An argument that converts. -/
theorem isAssignable_of_checkArg {s : Ty.Subst} {q : Param} {arg : Value} {t : Ty}
    (h : g.checkArg s q arg = .ok ()) (ht : arg.runtimeType? g = some t) :
    g.isAssignable t (q.type.subst s) = true := by
  simp only [checkArg, ht] at h
  split at h
  · assumption
  · cases h

theorem lookup_of_mem {s : Ty.Subst} (hs : (s.map (·.1)).Nodup) {p : TypeVar × Ty} (hp : p ∈ s) :
    s.lookup p.1 = some p.2 := by
  induction s with
  | nil => exact absurd hp List.not_mem_nil
  | cons q s ih =>
    obtain ⟨hq, hs⟩ := List.nodup_cons.mp hs
    obtain rfl | hp := List.mem_cons.mp hp
    · exact List.lookup_cons_self
    · have hne : (p.1 == q.1) = false := by
        rw [beq_eq_false_iff_ne]
        exact fun h => hq (List.mem_map.mpr ⟨p, hp, h⟩)
      rw [List.lookup_cons, hne]
      exact ih hs hp

end Graph

end LateBridge
