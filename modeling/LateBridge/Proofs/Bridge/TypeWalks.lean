import LateBridge.Proofs.Bridge.Coherence
import LateBridge.Proofs.Symbols.Paths

/-!
# Proofs/Bridge/TypeWalks — three walks over a type

Erasure looks at a type three times: for a marked parameter or too much depth (`needs`), for too
much depth alone (`tooDeep`), and for all marked parameters in order (`collect`).  The first two
take a depth with them and go into the parts with one more (`needsAt_eq`, `tooDeepAt_eq`); the third
has no limit and is a fold over the variables from left to right.

They agree (`walks_agree`): too deep is a type with a path longer than the limit, a type has to be
erased exactly if the third walk finds something or the second one refuses it, and what the third
walk adds are the marked parameters that occur, once each, by their first occurrences.
-/

namespace LateBridge.Erasure

variable {e : Erasure} {t : Ty} {v w : TypeVar}

/-! ## Depth -/

theorem needsAtList_eq_any (depth : Nat) (ts : List Ty) :
    e.needsAtList depth ts = ts.any (e.needsAt depth) := by
  induction ts with
  | nil => rfl
  | cons t ts ih => rw [needsAtList, ih, List.any_cons]

theorem tooDeepAtList_eq_any (depth : Nat) (ts : List Ty) :
    tooDeepAtList depth ts = ts.any (tooDeepAt depth) := by
  induction ts with
  | nil => rfl
  | cons t ts ih => rw [tooDeepAtList, ih, List.any_cons]

/-- **One step of the first walk.** -/
theorem needsAt_eq (depth : Nat) (t : Ty) : e.needsAt depth t =
    (decide (maxNesting < depth) || t.var?.any e.isMarked ||
      t.parts.any (e.needsAt (depth + 1))) := by
  cases t <;>
    simp [needsAt, Ty.var?, Ty.parts, needsAtList_eq_any, List.any_append, Bool.or_assoc]

/-- **One step of the second walk.** -/
theorem tooDeepAt_eq (depth : Nat) (t : Ty) : tooDeepAt depth t =
    (decide (maxNesting < depth) || t.parts.any (tooDeepAt (depth + 1))) := by
  cases t <;> simp [tooDeepAt, Ty.parts, tooDeepAtList_eq_any, List.any_append, Bool.or_assoc]

/-- **Too deep is a type with a path that leaves the limit.** -/
theorem tooDeepAt_iff {depth : Nat} : tooDeepAt depth t = true ↔
    ∃ path u, t.at? path = some u ∧ maxNesting < depth + path.length := by
  induction t using Ty.inductParts generalizing depth with
  | step t ih =>
    rw [tooDeepAt_eq, Bool.or_eq_true, decide_eq_true_eq, List.any_eq_true]
    constructor
    · rintro (hdepth | ⟨p, hp, hdeep⟩)
      · exact ⟨[], t, rfl, hdepth⟩
      · obtain ⟨path, u, hpath, hlong⟩ := (ih p hp).mp hdeep
        obtain ⟨i, hi⟩ := List.getElem?_of_mem hp
        refine ⟨i :: path, u, Ty.at?_cons_eq_some.mpr ⟨p, hi, hpath⟩, ?_⟩
        rw [List.length_cons]
        omega
    · rintro ⟨path, u, hpath, hlong⟩
      cases path with
      | nil => exact .inl hlong
      | cons i path =>
        obtain ⟨p, hi, hpath⟩ := Ty.at?_cons_eq_some.mp hpath
        have hp : p ∈ t.parts := List.mem_of_getElem? hi
        rw [List.length_cons] at hlong
        exact .inr ⟨p, hp, (ih p hp).mpr ⟨path, u, hpath, by omega⟩⟩

/-- The first walk stops where the second one does. -/
theorem needsAt_of_tooDeepAt {depth : Nat} (h : tooDeepAt depth t = true) :
    e.needsAt depth t = true := by
  induction t using Ty.inductParts generalizing depth with
  | step t ih =>
    rw [tooDeepAt_eq, Bool.or_eq_true, List.any_eq_true] at h
    rw [needsAt_eq, Bool.or_eq_true, Bool.or_eq_true, List.any_eq_true]
    obtain hdepth | ⟨p, hp, hdeep⟩ := h
    · exact .inl (.inl hdepth)
    · exact .inr ⟨p, hp, ih p hp hdeep⟩

/-- **What has to be erased** mentions a marked parameter or is too deep. -/
theorem needs_iff : e.needs t = true ↔ (∃ v ∈ t.vars, e.isMarked v = true) ∨ tooDeep t = true := by
  constructor
  · intro hneeds
    by_cases hdeep : tooDeep t = true
    · exact .inr hdeep
    · exact .inl (exists_isMarked_of_needsAt hneeds (Bool.eq_false_iff.mpr hdeep))
  · rintro (⟨v, hv, hmarked⟩ | hdeep)
    · by_contra hneeds
      have hfree := isMarked_of_needsAt (Bool.eq_false_iff.mpr hneeds) hv
      exact absurd (hmarked.symm.trans hfree) (by decide)
    · exact needsAt_of_tooDeepAt hdeep

/-! ## Collecting -/

/-- **New entries join a list at its end**, once each, in the order in which they first occur. -/
theorem foldl_addNew {α : Type} [DecidableEq α] (found as : List α) :
    ∃ new, as.foldl addNew found = found ++ new ∧ new.Nodup ∧
      (∀ a, a ∈ new ↔ a ∈ as ∧ a ∉ found) ∧ new.Pairwise (Leads as) := by
  induction as using List.reverseRecOn with
  | nil => exact ⟨[], by simp, List.nodup_nil, by simp, .nil⟩
  | append_singleton as a ih =>
    obtain ⟨new, hfold, hnodup, hmem, horder⟩ := ih
    have hkept : new.Pairwise (Leads (as ++ [a])) := horder.imp fun h => h.append [a]
    rw [List.foldl_append, hfold, List.foldl_cons, List.foldl_nil, addNew]
    by_cases ha : a ∈ found ++ new
    · rw [if_pos ha]
      refine ⟨new, rfl, hnodup, fun b => ?_, hkept⟩
      rw [hmem, List.mem_append, List.mem_singleton]
      refine ⟨fun h => ⟨.inl h.1, h.2⟩, ?_⟩
      rintro ⟨hb | rfl, hnotMem⟩
      · exact ⟨hb, hnotMem⟩
      · exact (hmem b).mp ((List.mem_append.mp ha).resolve_left hnotMem)
    · obtain ⟨hfound, hnew⟩ := not_or.mp (mt List.mem_append.mpr ha)
      have has : a ∉ as := fun h => hnew ((hmem a).mpr ⟨h, hfound⟩)
      rw [if_neg ha, List.append_assoc]
      refine ⟨new ++ [a], rfl, ?_, fun b => ?_, ?_⟩
      · exact hnodup.append (List.nodup_singleton a) (by simpa using hnew)
      · rw [List.mem_append, List.mem_append, hmem, List.mem_singleton, or_and_right]
        refine or_congr_right (iff_self_and.mpr ?_)
        rintro rfl
        exact hfound
      · refine List.pairwise_append.mpr ⟨hkept, List.pairwise_singleton _ _, fun b hb c hc => ?_⟩
        obtain rfl := List.mem_singleton.mp hc
        -- what was there occurs before the end, where the new entry stands alone
        obtain ⟨front, back, rfl⟩ := List.append_of_mem ((hmem b).mp hb).1
        refine ⟨front, back ++ [c], by simp, fun hfront => has ?_⟩
        exact List.mem_append_left _ hfront

/-- **What a walk adds to what it has found**: the marked parameters that occur in the type and are
new, each once; where one stands before another, it occurs to the left of every occurrence of the
other. -/
structure Adds (e : Erasure) (found : List TypeVar) (t : Ty) (new : List TypeVar) : Prop where
  nodup : new.Nodup
  mem_iff : ∀ v, v ∈ new ↔ (Ty.var v).Occurs t ∧ e.isMarked v = true ∧ v ∉ found
  firstFirst : new.Pairwise fun v w =>
    ∃ path, t.at? path = some (.var v) ∧ ∀ other, t.at? other = some (.var w) → path < other

theorem exists_adds (e : Erasure) (found : List TypeVar) (t : Ty) :
    ∃ new, e.collect found t = found ++ new ∧ e.Adds found t new := by
  obtain ⟨new, hfold, hnodup, hmem, horder⟩ := foldl_addNew found (t.vars.filter e.isMarked)
  have hmarked : ∀ v ∈ new, e.isMarked v = true :=
    fun v hv => (List.mem_filter.mp ((hmem v).mp hv).1).2
  refine ⟨new, hfold, hnodup, fun v => ?_, ?_⟩
  · rw [hmem, List.mem_filter, Ty.mem_vars_iff_occurs, and_assoc]
  · refine (hnodup.and horder).imp_of_mem fun {v w} _ hw ⟨hne, hleads⟩ => ?_
    exact Ty.exists_path_lt hne (hleads.of_filter (hmarked w hw))

theorem collect_ne_nil_iff : e.collect [] t ≠ [] ↔ ∃ v ∈ t.vars, e.isMarked v = true := by
  rw [ne_eq, List.eq_nil_iff_forall_not_mem, not_forall]
  exact exists_congr fun v => by simp [mem_collect]

/-! ## Together -/

/-- **The three walks over a type agree**: a type has to be erased exactly if the ordered walk finds
a marked parameter in it or it is too deep; it is too deep exactly if some path from its root is
longer than the limit; and the ordered walk keeps what was found in front and adds the marked
parameters that occur, each once, in the order of their first occurrences. -/
theorem walks_agree (e : Erasure) (t : Ty) :
    (e.needs t = true ↔ e.collect [] t ≠ [] ∨ tooDeep t = true) ∧
    (tooDeep t = true ↔ ∃ path u, t.at? path = some u ∧ maxNesting < path.length) ∧
    ∀ found, ∃ new, e.collect found t = found ++ new ∧ e.Adds found t new := by
  refine ⟨?_, ?_, fun found => exists_adds e found t⟩
  · rw [needs_iff, collect_ne_nil_iff]
  · rw [tooDeep, tooDeepAt_iff]
    simp only [Nat.zero_add]

end LateBridge.Erasure
