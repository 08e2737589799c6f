import LateBridge.Proofs.Numbering.Hierarchy

/-!
# Proofs/Numbering/Composition — substitutions one after the other, on types and on numbers

    t ──s──▸ t.subst s ──r──▸ (t.subst s).subst r
    ╰───────────s.andThen r──────────╯

Two substitutions are one, what fixes the variables of a type fixes the type, and the variables of a
substituted type can be told from those of the type.  On numbers there is a shortcut for a map without
entries, and each step may number something; still the number of the result is the same on both ways,
and a type that is fixed keeps its number (`substitution_laws`).
-/

namespace LateBridge

namespace Ty

/-! ## Fixed types -/

/-- **A substitution fixes a type** exactly if it fixes the variables of it. -/
theorem subst_eq_self_iff {s : Subst} {t : Ty} :
    t.subst s = t ↔ ∀ v ∈ t.vars, (var v).subst s = var v := by
  constructor
  · have heach : ∀ ts : List Ty, (∀ a ∈ ts, a.subst s = a → ∀ v ∈ a.vars, (var v).subst s = var v) →
        ts.map (subst s) = ts → ∀ v, (∃ a ∈ ts, v ∈ a.vars) → (var v).subst s = var v := by
      rintro ts ih h v ⟨a, ha, hv⟩
      rw [List.map_eq_iff] at h
      obtain ⟨k, hk⟩ := List.mem_iff_getElem?.mp ha
      have hfixed := h k
      rw [hk, Option.map_some, Option.some_inj] at hfixed
      exact ih a ha hfixed.symm v hv
    intro h
    induction t using induct with
    | named n args ih =>
      rw [subst_named, named.injEq] at h
      exact fun v hv => heach args ih h.2 v (mem_vars_named.mp hv)
    | array element rank ih =>
      rw [subst_array, array.injEq] at h
      exact fun v hv => ih h.1 v (mem_vars_array.mp hv)
    | var v => exact fun w hw => mem_vars_var.mp hw ▸ h
    | pointer target ih =>
      rw [subst_pointer, pointer.injEq] at h
      exact fun v hv => ih h v (mem_vars_pointer.mp hv)
    | fnptr params ret ihp ihr =>
      rw [subst_fnptr, fnptr.injEq] at h
      exact fun v hv => (mem_vars_fnptr.mp hv).elim (heach params ihp h.1 v) (ihr h.2 v)
    | void | dynamic | error => exact fun v hv => absurd hv List.not_mem_nil
  · intro h
    rw [subst_congr (r := []) t fun v hv => (h v hv).trans (subst_nil _).symm, subst_nil]

/-! ## Variables -/

/-- **The variables of a substituted type** are those that the substitution does not know, and those
of what stands in for the others. -/
theorem mem_vars_subst_iff {s : Subst} {t : Ty} {v : TypeVar} :
    v ∈ (t.subst s).vars ↔ (v ∈ t.vars ∧ s.lookup v = none) ∨
      ∃ w ∈ t.vars, ∃ u, s.lookup w = some u ∧ v ∈ u.vars := by
  rw [mem_vars_subst]
  constructor
  · rintro ⟨w, hw, hv⟩
    rw [subst_var] at hv
    cases hlookup : s.lookup w with
    | none =>
      rw [hlookup, Option.getD_none, mem_vars_var] at hv
      exact .inl ⟨hv ▸ hw, hv ▸ hlookup⟩
    | some u =>
      rw [hlookup, Option.getD_some] at hv
      exact .inr ⟨w, hw, u, hlookup, hv⟩
  · rintro (⟨hv, hlookup⟩ | ⟨w, hw, u, hlookup, hv⟩)
    · exact ⟨v, hv, by rw [subst_var, hlookup, Option.getD_none, mem_vars_var]⟩
    · exact ⟨w, hw, by rwa [subst_var, hlookup, Option.getD_some]⟩

end Ty

/-! ## On numbers -/

namespace Numbered

open Interning

/-- **One substitution of numbers after another.** -/
def andThen (s r : List (TypeVar × Nat)) : Interning (List (TypeVar × Nat)) := do
  let s ← each (fun (v, id) => do
    let id ← substitute r id
    return (v, id)) s
  return s ++ r

/-- Whether two programs give one number. -/
def agree (p q : Interning Nat) : Interning Bool := do
  let a ← p
  let b ← q
  return a == b

variable {i : Numbers} {t : Ty} {id : Nat} {s r : Ty.Subst} {s' r' : List (TypeVar × Nat)}

/-- **Composition on numbers** gives the numbers of the composition. -/
theorem gives_andThen (hi : i.Grounded) (hs : (Meaning.same.pair .type).list.Holds i s s')
    (hr : (Meaning.same.pair .type).list.Holds i r r') :
    (andThen s' r').Gives (Meaning.same.pair .type).list (s.andThen r) i := by
  refine Gives.bind hi (gives_each (n := Meaning.same.pair .type)
    (g := fun x => (x.1, x.2.subst r)) hi hs fun j hij a _ b _ hab => ?_)
    fun j mapped hij hmapped => gives_pure ?_
  · obtain ⟨v, t⟩ := a
    obtain ⟨v', id⟩ := b
    obtain ⟨hv, ht⟩ := hab
    exact Gives.bind hij.grounded (gives_substitute hij.grounded (Meaning.mono _ hr hij) ht)
      fun k id _ hid => gives_pure ⟨hv, hid⟩
  · exact List.rel_append hmapped (Meaning.mono _ hr hij)

/-- **Programs that give one type give one number**, whatever others number before their steps. -/
theorem gives_agree {p q : Interning Nat} (hi : i.Grounded) (hp : p.Gives .type t i)
    (hq : q.Gives .type t i) : (agree p q).Gives .same true i := by
  refine Gives.bind hi hp fun j a hij ha => ?_
  refine Gives.bind hij.grounded (hq.extend hij) fun k b hjk hb => gives_pure ?_
  exact beq_iff_eq.mpr ((ha.mono hjk).unique hb)

/-- **The laws of substitution.**  One substitution after another is their composition: where the
first knows a variable, the second is applied to what stands in for it; elsewhere it does what the
second does.  A type is fixed if its variables are.  The variables of a substituted type are those
outside the substitution and those of what it puts in.  Numbers follow: whatever else is numbered
meanwhile, both ways give one number, and the number of a fixed type stays. -/
theorem substitution_laws (t : Ty) (s r : Ty.Subst) :
    (t.subst s).subst r = t.subst (s.andThen r) ∧
    (∀ v, (s.andThen r).lookup v =
      match s.lookup v with
      | some u => some (u.subst r)
      | none => r.lookup v) ∧
    (t.subst s = t ↔ ∀ v ∈ t.vars, (Ty.var v).subst s = .var v) ∧
    (∀ v, v ∈ (t.subst s).vars ↔ (v ∈ t.vars ∧ s.lookup v = none) ∨
      ∃ w ∈ t.vars, ∃ u, s.lookup w = some u ∧ v ∈ u.vars) ∧
    ∀ (i : Numbers) (id : Nat) (s' r' : List (TypeVar × Nat)), i.Grounded → i.Denotes t id →
      (Meaning.same.pair .type).list.Holds i s s' → (Meaning.same.pair .type).list.Holds i r r' →
      (agree (do let id ← substitute s' id; substitute r' id)
        (do let both ← andThen s' r'; substitute both id)).Gives .same true i ∧
      ((∀ v ∈ t.vars, (Ty.var v).subst s = .var v) →
        (agree (substitute s' id) (pure id)).Gives .same true i) := by
  refine ⟨Ty.subst_subst s r t, fun v => ?_, Ty.subst_eq_self_iff, fun v => Ty.mem_vars_subst_iff,
    fun i id s' r' hi hid hs hr => ⟨?_, fun hfixed => ?_⟩⟩
  · rw [Ty.lookup_andThen]
    cases s.lookup v <;> rfl
  · have htwice : (do let id ← substitute s' id; substitute r' id : Interning Nat).Gives .type
        (t.subst (s.andThen r)) i := by
      rw [← Ty.subst_subst]
      exact Gives.bind hi (gives_substitute hi hs hid) fun j id hij hid =>
        gives_substitute hij.grounded (Meaning.mono _ hr hij) hid
    have honce : (do let both ← andThen s' r'; substitute both id : Interning Nat).Gives .type
        (t.subst (s.andThen r)) i :=
      Gives.bind hi (gives_andThen hi hs hr) fun j both hij hboth =>
        gives_substitute hij.grounded hboth (hid.mono hij)
    exact gives_agree hi htwice honce
  · have hsame := gives_substitute hi hs hid
    rw [Ty.subst_eq_self_iff.mpr hfixed] at hsame
    exact gives_agree hi hsame (gives_pure hid)

/-- Two variables of a pair. -/
def firstVar : TypeVar := ⟨.type (.top none "Pair" ["A", "B"]), 0, "A"⟩
def secondVar : TypeVar := ⟨.type (.top none "Pair" ["A", "B"]), 1, "B"⟩

/-- A pair of the first variable and an array of the second. -/
def crossed : Ty := .named (.top none "Pair" ["A", "B"]) [.var firstVar, .array (.var secondVar) 1]

/-- The second map turns around what the first puts in; a map to itself fixes the pair. -/
theorem substitution_laws_crossed :
    let s : Ty.Subst := [(firstVar, .pointer (.var secondVar))]
    let r : Ty.Subst := [(secondVar, .var firstVar), (firstVar, .dynamic)]
    let i : Numbers := .ofTypes [crossed, .pointer (.var secondVar)]
    (crossed.subst s).subst r = .named (.top none "Pair" ["A", "B"])
      [.pointer (.var firstVar), .array (.var firstVar) 1] ∧
    ((agree (do let id ← substitute [(firstVar, 7)] 6; substitute [(secondVar, 3), (firstVar, 1)] id)
      (do let both ← andThen [(firstVar, 7)] [(secondVar, 3), (firstVar, 1)]
          substitute both 6)).run i).1 = true ∧
    ((agree (substitute [(firstVar, 3)] 6) (pure 6)).run i).1 = true := by
  intro s r i
  have hi : i.Grounded := Interner.grounded_ofTypes _
  have hshapes : i.shapes = [.void, .dynamic, .error, .param firstVar, .param secondVar,
      .array 4 1, .named (.top none "Pair" ["A", "B"]) [3, 5], .pointer 4] := by decide +kernel
  have hid : i.Denotes crossed 6 := by simp [crossed, Interner.Denotes, hshapes]
  have hs : (Meaning.same.pair .type).list.Holds i s [(firstVar, 7)] :=
    .cons ⟨rfl, by simp [Meaning.type, Interner.Denotes, hshapes]⟩ .nil
  have hr : (Meaning.same.pair .type).list.Holds i r [(secondVar, 3), (firstVar, 1)] :=
    .cons ⟨rfl, by simp [Meaning.type, Interner.Denotes, hshapes]⟩
      (.cons ⟨rfl, by simp [Meaning.type, Interner.Denotes, hshapes]⟩ .nil)
  have hself : (Meaning.same.pair .type).list.Holds i [(firstVar, .var firstVar)] [(firstVar, 3)] :=
    .cons ⟨rfl, by simp [Meaning.type, Interner.Denotes, hshapes]⟩ .nil
  obtain ⟨hcompose, -, -, -, hnumbers⟩ := substitution_laws crossed s r
  obtain ⟨-, -, -, -, hfixed⟩ := substitution_laws crossed [(firstVar, .var firstVar)] []
  refine ⟨hcompose.trans (by decide +kernel), ((hnumbers i 6 _ _ hi hid hs hr).1.run hi).2,
    (((hfixed i 6 _ _ hi hid hself .nil).2 (by decide +kernel)).run hi).2⟩

end Numbered

end LateBridge
