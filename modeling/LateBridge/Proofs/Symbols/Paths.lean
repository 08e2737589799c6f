import LateBridge.Proofs.Symbols.Substitution
import Mathlib.Order.Basic

/-!
# Proofs/Symbols/Paths — paths into a type

    t ──parts──▸ [p₀, p₁, …]          t.at? (i :: path) = pᵢ.at? path

Whatever a type is made of, it has parts from left to right, and a path says which part to take at
every step.  Walks over types do the same with all parts of a type, so that one induction
(`Ty.inductParts`) serves them all.

Paths are ordered from left to right by `<` on lists.  The variables of a type are listed in that
order: the first occurrence of the one that comes first in the list is in front of every occurrence
of the other (`exists_path_lt`).
-/

namespace LateBridge

/-- **One entry comes before another**: it occurs at a place that the other does not occur in front
of. -/
def Leads {α : Type} (as : List α) (a b : α) : Prop :=
  ∃ front back, as = front ++ a :: back ∧ b ∉ front

theorem Leads.append {α : Type} {as : List α} {a b : α} (h : Leads as a b) (more : List α) :
    Leads (as ++ more) a b := by
  obtain ⟨front, back, rfl, hb⟩ := h
  exact ⟨front, back ++ more, by simp, hb⟩

/-- What does not concern the later entry may be left in. -/
theorem Leads.of_filter {α : Type} {p : α → Bool} {as : List α} {a b : α}
    (h : Leads (as.filter p) a b) (hb : p b = true) : Leads as a b := by
  obtain ⟨front, back, hsplit, hnotMem⟩ := h
  obtain ⟨before, after, rfl, rfl, hafter⟩ := List.filter_eq_append_iff.mp hsplit
  obtain ⟨between, rest, rfl, hbetween, -, -⟩ := List.filter_eq_cons_iff.mp hafter
  refine ⟨before ++ between, rest, by simp, fun hmem => ?_⟩
  obtain hmem | hmem := List.mem_append.mp hmem
  · exact hnotMem (List.mem_filter.mpr ⟨hmem, hb⟩)
  · exact hbetween b hmem hb

/-- A place in joined lists is a place in one of them. -/
theorem exists_of_flatMap_eq_append {α β : Type} {f : α → List β} {as : List α} {b : β}
    {front back : List β} (h : as.flatMap f = front ++ b :: back) :
    ∃ before a after inner rest, as = before ++ a :: after ∧ f a = inner ++ b :: rest ∧
      front = before.flatMap f ++ inner := by
  induction as generalizing front with
  | nil => simp at h
  | cons a as ih =>
    rw [List.flatMap_cons] at h
    obtain ⟨rest, rfl, htail⟩ | ⟨inner, hinner, hcons⟩ := List.append_eq_append_iff.mp h
    · obtain ⟨before, c, after, inner, back', rfl, hc, rfl⟩ := ih htail
      exact ⟨a :: before, c, after, inner, back', rfl, hc, by simp⟩
    · cases inner with
      | nil =>
        have hnext : as.flatMap f = [] ++ b :: back := hcons.symm
        obtain ⟨before, c, after, inner, back', rfl, hc, hfront⟩ := ih hnext
        refine ⟨a :: before, c, after, inner, back', rfl, hc, ?_⟩
        rw [List.flatMap_cons, List.append_assoc, ← hfront, hinner, List.append_nil]
        simp
      | cons c inner =>
        obtain ⟨rfl, -⟩ := List.cons.inj hcons
        exact ⟨[], a, as, front, inner, rfl, hinner, rfl⟩

namespace Ty

/-! ## Parts -/

/-- **The types directly inside a type**, from left to right. -/
def parts : Ty → List Ty
  | .named _ args => args
  | .array element _ => [element]
  | .pointer target => [target]
  | .fnptr params ret => params ++ [ret]
  | .var _ | .void | .dynamic | .error => []

/-- The variable that a type is. -/
def var? : Ty → Option TypeVar
  | .var v => some v
  | _ => none

@[simp] theorem var?_eq_some {t : Ty} {v : TypeVar} : t.var? = some v ↔ t = .var v := by
  cases t <;> simp [var?]

/-- **Induction on types by their parts.** -/
@[elab_as_elim]
theorem inductParts {P : Ty → Prop} (step : ∀ t : Ty, (∀ p ∈ t.parts, P p) → P t) (t : Ty) :
    P t := by
  induction t using induct with
  | named n args ih => exact step _ ih
  | array element rank ih => exact step _ (List.forall_mem_singleton.mpr ih)
  | pointer target ih => exact step _ (List.forall_mem_singleton.mpr ih)
  | fnptr params ret ihp ihr =>
    exact step _ (List.forall_mem_append.mpr ⟨ihp, List.forall_mem_singleton.mpr ihr⟩)
  | var | void | dynamic | error => exact step _ (List.forall_mem_nil _)

theorem vars_eq (t : Ty) : t.vars = t.var?.toList ++ t.parts.flatMap vars := by
  cases t <;> simp [vars, var?, parts, varsList_eq_flatMap]

/-! ## Paths -/

/-- **The type at the end of a path from the root**: each step goes to the part in a place. -/
def at? : Ty → List Nat → Option Ty
  | t, [] => some t
  | t, i :: path => t.parts[i]?.bind fun part => part.at? path

theorem at?_cons_eq_some {t u : Ty} {i : Nat} {path : List Nat} :
    t.at? (i :: path) = some u ↔ ∃ p, t.parts[i]? = some p ∧ p.at? path = some u :=
  Option.bind_eq_some_iff

/-- **A type occurs in another** at the end of some path. -/
def Occurs (u t : Ty) : Prop := ∃ path, t.at? path = some u

theorem occurs_iff {t u : Ty} : u.Occurs t ↔ t = u ∨ ∃ p ∈ t.parts, u.Occurs p := by
  constructor
  · rintro ⟨path, hpath⟩
    cases path with
    | nil => exact .inl (Option.some.inj hpath)
    | cons i path =>
      obtain ⟨p, hp, hpath⟩ := at?_cons_eq_some.mp hpath
      exact .inr ⟨p, List.mem_of_getElem? hp, path, hpath⟩
  · rintro (rfl | ⟨p, hp, path, hpath⟩)
    · exact ⟨[], rfl⟩
    · obtain ⟨i, hi⟩ := List.getElem?_of_mem hp
      exact ⟨i :: path, at?_cons_eq_some.mpr ⟨p, hi, hpath⟩⟩

@[simp] theorem occurs_named {u : Ty} {n : DeclName} {args : List Ty} :
    u.Occurs (named n args) ↔ named n args = u ∨ ∃ a ∈ args, u.Occurs a :=
  occurs_iff

@[simp] theorem occurs_array {u element : Ty} {rank : Nat} :
    u.Occurs (array element rank) ↔ array element rank = u ∨ u.Occurs element := by
  rw [occurs_iff, parts]
  simp

@[simp] theorem occurs_pointer {u target : Ty} :
    u.Occurs (pointer target) ↔ pointer target = u ∨ u.Occurs target := by
  rw [occurs_iff, parts]
  simp

@[simp] theorem occurs_fnptr {u ret : Ty} {params : List Ty} : u.Occurs (fnptr params ret) ↔
    fnptr params ret = u ∨ (∃ p ∈ params, u.Occurs p) ∨ u.Occurs ret := by
  rw [occurs_iff, parts]
  simp [or_and_right, exists_or]

@[simp] theorem occurs_var {u : Ty} {v : TypeVar} : u.Occurs (var v) ↔ var v = u := by
  rw [occurs_iff, parts]
  simp

@[simp] theorem occurs_void {u : Ty} : u.Occurs void ↔ void = u := by
  rw [occurs_iff, parts]
  simp

@[simp] theorem occurs_dynamic {u : Ty} : u.Occurs dynamic ↔ dynamic = u := by
  rw [occurs_iff, parts]
  simp

/-- **The variables of a type are those that occur in it.** -/
theorem mem_vars_iff_occurs {t : Ty} {v : TypeVar} : v ∈ t.vars ↔ (Ty.var v).Occurs t := by
  induction t using inductParts with
  | step t ih =>
    rw [vars_eq, List.mem_append, Option.mem_toList, var?_eq_some, List.mem_flatMap, occurs_iff]
    exact or_congr_right (exists_congr fun p => and_congr_right fun hp => ih p hp)

/-- A variable that the first parts do not mention occurs to the right of them. -/
theorem length_le_of_at?_cons {t : Ty} {before rest : List Ty} {w : TypeVar} {i : Nat}
    {path : List Nat} (hparts : t.parts = before ++ rest) (hw : w ∉ before.flatMap vars)
    (h : t.at? (i :: path) = some (.var w)) : before.length ≤ i := by
  obtain ⟨p, hp, hpath⟩ := at?_cons_eq_some.mp h
  by_contra hlt
  rw [hparts, List.getElem?_append_left (Nat.lt_of_not_le hlt)] at hp
  have hmem : w ∈ p.vars := mem_vars_iff_occurs.mpr ⟨path, hpath⟩
  exact hw (List.mem_flatMap.mpr ⟨p, List.mem_of_getElem? hp, hmem⟩)

/-- **Variables are listed from left to right**: one that comes before another in the list occurs to
the left of every occurrence of the other. -/
theorem exists_path_lt {t : Ty} {v w : TypeVar} (hne : v ≠ w) (h : Leads t.vars v w) :
    ∃ path, t.at? path = some (.var v) ∧
      ∀ other, t.at? other = some (.var w) → path < other := by
  induction t using inductParts with
  | step t ih =>
    obtain ⟨front, back, hvars, hnotMem⟩ := h
    rw [vars_eq] at hvars
    cases hown : t.var? with
    | some u =>
      obtain rfl := var?_eq_some.mp hown
      have huv : u = v := by
        cases front with
        | nil => simpa [var?, parts] using (congrArg List.head? hvars)
        | cons x front => simp [var?, parts] at hvars
      subst huv
      refine ⟨[], rfl, fun other hother => ?_⟩
      cases other with
      | nil => exact absurd (Ty.var.inj (Option.some.inj hother)) hne
      | cons i other => simp [at?, parts] at hother
    | none =>
      rw [hown, Option.toList_none, List.nil_append] at hvars
      obtain ⟨before, p, after, inner, rest, hparts, hp, rfl⟩ := exists_of_flatMap_eq_append hvars
      have hmem : p ∈ t.parts := hparts ▸ List.mem_append_right _ List.mem_cons_self
      have hinner : w ∉ inner := fun hw => hnotMem (List.mem_append_right _ hw)
      obtain ⟨path, hpath, hfirst⟩ := ih p hmem ⟨inner, rest, hp, hinner⟩
      have hget : t.parts[before.length]? = some p := by simp [hparts]
      refine ⟨before.length :: path, at?_cons_eq_some.mpr ⟨p, hget, hpath⟩, fun other hother => ?_⟩
      cases other with
      | nil =>
        rw [Option.some.inj hother] at hown
        cases hown
      | cons i other =>
        have hleft : w ∉ before.flatMap vars :=
          fun hw => hnotMem (List.mem_append_left _ hw)
        obtain hlt | rfl := Nat.lt_or_eq_of_le (length_le_of_at?_cons hparts hleft hother)
        · exact List.cons_lt_cons_iff.mpr (.inl hlt)
        · obtain ⟨q, hq, hother⟩ := at?_cons_eq_some.mp hother
          obtain rfl : p = q := Option.some.inj (hget.symm.trans hq)
          exact List.cons_lt_cons_iff.mpr (.inr ⟨rfl, hfirst other hother⟩)

end Ty

end LateBridge
