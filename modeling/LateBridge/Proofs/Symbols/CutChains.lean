import LateBridge.Proofs.Document.Loading

/-!
# Proofs/Symbols/CutChains — base chains of any graph

    t ──▸ u₁ ──▸ u₂ ──▸ ⋯ ──▸ uₖ ──▸ no base type, no room left, or one of u₁ … uₖ again

Loading does not check base links: they may form cycles, lead into a cycle, or give larger types at
every step.  A base chain is still the first part of the way up, cut after some `k` different types
(`exists_cut`); when it is not cut for lack of room, every type above is one of the `k`.  A repeat is
looked for among the types of the chain, and the type the way up starts from is none of them: a type
on a cycle stands in its own base chain, and only such a type does (`baseChain_cut`).
-/

namespace LateBridge

namespace Graph

variable {g : Graph} {t u v b last : Ty} {k : Nat}

/-! ## The way up -/

theorem ups_of_base? (hb : g.base? t = some b) (k : Nat) : g.ups (k + 1) t = b :: g.ups k b := by
  rw [ups, hb]

/-- One more step up, taken at the end. -/
theorem ancestor?_succ (k : Nat) (t : Ty) :
    g.ancestor? (k + 1) t = (g.ancestor? k t).bind g.base? := by
  have hone : g.ancestor? 1 = g.base? := by
    funext t
    rw [ancestor?]
    cases g.base? t <;> rfl
  rw [ancestor?_add, hone]

/-- The first part of a way up takes its types from one another. -/
theorem isChain_ups (k : Nat) (t : Ty) :
    (t :: g.ups k t).IsChain fun u b => g.base? u = some b := by
  induction k generalizing t with
  | zero => exact .singleton t
  | succ k ih =>
    cases hb : g.base? t with
    | none =>
      rw [ups, hb]
      exact .singleton t
    | some b =>
      rw [ups_of_base? hb]
      exact .cons_cons hb (ih b)

theorem length_ups (h : g.ancestor? k t = some u) : (g.ups k t).length = k := by
  induction k generalizing t with
  | zero => rfl
  | succ k ih =>
    rw [ancestor?] at h
    obtain ⟨b, hb, h⟩ := Option.bind_eq_some_iff.mp h
    rw [ups_of_base? hb, List.length_cons, ih h]

/-- The way up of `k` steps ends at the type `k` steps up. -/
theorem getLastD_ups (h : g.ancestor? k t = some u) : (g.ups k t).getLastD t = u := by
  induction k generalizing t with
  | zero => exact Option.some.inj h
  | succ k ih =>
    rw [ancestor?] at h
    obtain ⟨b, hb, h⟩ := Option.bind_eq_some_iff.mp h
    rw [ups_of_base? hb, List.getLastD_cons, ih h]

/-! ## Cuts -/

/-- **Where a way up is cut**: after `k` different types, at the last of them, because there is no
room for more or because nothing new follows. -/
structure Cut (g : Graph) (t : Ty) (k : Nat) (last : Ty) : Prop where
  reached : g.ancestor? k t = some last
  nodup : (g.ups k t).Nodup
  le : k ≤ maxBaseChain
  stop : k = maxBaseChain ∨ ∀ b, g.base? last = some b → b ∈ g.ups k t

/-- A chain goes on until there is no room or a type comes again. -/
theorem exists_chainFrom (room : Nat) {chain : List Ty} (hchain : chain.Nodup) (t : Ty) :
    ∃ k ≤ room, ∃ last, g.ancestor? k t = some last ∧
      g.chainFrom room chain (g.base? t) = chain ++ g.ups k t ∧ (chain ++ g.ups k t).Nodup ∧
      (k = room ∨ ∀ b, g.base? last = some b → b ∈ chain ++ g.ups k t) := by
  induction room generalizing chain t with
  | zero =>
    refine ⟨0, Nat.le_refl 0, t, rfl, ?_, by simpa [ups] using hchain, .inl rfl⟩
    cases g.base? t <;> simp [chainFrom, ups]
  | succ room ih =>
    cases hb : g.base? t with
    | none =>
      refine ⟨0, Nat.zero_le _, t, rfl, by simp [chainFrom, ups], by simpa [ups] using hchain, ?_⟩
      exact .inr (by simp [hb])
    | some b =>
      rw [chainFrom]
      by_cases hmem : b ∈ chain
      · rw [if_pos hmem]
        refine ⟨0, Nat.zero_le _, t, rfl, by simp [ups], by simpa [ups] using hchain, .inr ?_⟩
        intro b' hb'
        obtain rfl : b = b' := Option.some.inj (hb.symm.trans hb')
        exact List.mem_append_left _ hmem
      · have hnext : (chain ++ [b]).Nodup := hchain.append (List.nodup_singleton b) (by simpa)
        obtain ⟨k, hk, last, hlast, hfrom, hnodup, hstop⟩ := ih hnext b
        rw [List.append_assoc, List.singleton_append, ← ups_of_base? hb] at hfrom hnodup hstop
        rw [if_neg hmem]
        refine ⟨k + 1, Nat.succ_le_succ hk, last, ?_, hfrom, hnodup, hstop.imp_left (congrArg (· + 1))⟩
        rw [ancestor?, hb, Option.bind_some, hlast]

/-- **A base chain is a way up that is cut.** -/
theorem exists_cut (g : Graph) (t : Ty) : ∃ k last, g.Cut t k last ∧ g.baseChain t = g.ups k t := by
  obtain ⟨k, hk, last, hlast, hfrom, hnodup, hstop⟩ :=
    exists_chainFrom (g := g) maxBaseChain List.nodup_nil t
  exact ⟨k, last, ⟨hlast, hnodup, hk, hstop⟩, hfrom⟩

namespace Cut

variable (h : g.Cut t k last)

include h

/-- Where there is room left, going up stays among the types before the cut. -/
theorem mem_ups_of_base? (hroom : k < maxBaseChain) (hu : u ∈ g.ups k t)
    (hv : g.base? u = some v) : v ∈ g.ups k t := by
  obtain ⟨j, hj, hju⟩ := mem_ups.mp hu
  have hnext : g.ancestor? (j + 1 + 1) t = some v := by
    rw [ancestor?_succ, hju, Option.bind_some, hv]
  obtain hlt | rfl : j + 1 < k ∨ j + 1 = k := Nat.lt_or_eq_of_le hj
  · exact mem_ups.mpr ⟨j + 1, hlt, hnext⟩
  · obtain rfl : u = last := Option.some.inj (hju.symm.trans h.reached)
    exact h.stop.resolve_left (Nat.ne_of_lt hroom) v hv

/-- **Where there is room left, everything above is before the cut.** -/
theorem mem_ups_of_ancestor? (hroom : k < maxBaseChain) {j : Nat}
    (hj : g.ancestor? (j + 1) t = some u) : u ∈ g.ups k t := by
  induction j generalizing u with
  | zero =>
    obtain rfl | hpos := Nat.eq_zero_or_pos k
    · obtain rfl : t = last := Option.some.inj h.reached
      exact h.stop.resolve_left (Nat.ne_of_lt hroom) u (by rwa [ancestor?_succ] at hj)
    · exact mem_ups.mpr ⟨0, hpos, hj⟩
  | succ j ih =>
    rw [ancestor?_succ] at hj
    obtain ⟨v, hv, hvu⟩ := Option.bind_eq_some_iff.mp hj
    exact h.mem_ups_of_base? hroom (ih hv) hvu

/-- A type is before its own cut if going up comes back to it in time. -/
theorem self_mem_ups : t ∈ g.ups k t ↔ ∃ j < maxBaseChain, g.ancestor? (j + 1) t = some t := by
  constructor
  · intro hmem
    obtain ⟨j, hj, hjt⟩ := mem_ups.mp hmem
    exact ⟨j, Nat.lt_of_lt_of_le hj h.le, hjt⟩
  · rintro ⟨j, hj, hjt⟩
    obtain hroom | rfl : k < maxBaseChain ∨ k = maxBaseChain := Nat.lt_or_eq_of_le h.le
    · exact h.mem_ups_of_ancestor? hroom hjt
    · exact mem_ups.mpr ⟨j, hj, hjt⟩

/-- **A cut loses nothing if going up ends in time**: a type that came again would be above
itself. -/
theorem base?_last_eq_none : g.base? last = none ↔ g.ancestor? (maxBaseChain + 1) t = none := by
  have hnext : g.ancestor? (k + 1) t = g.base? last := by
    rw [ancestor?_succ, h.reached, Option.bind_some]
  constructor
  · intro hnone
    exact ancestor?_eq_none_of_le (hnext.trans hnone) (Nat.succ_le_succ h.le)
  · intro hend
    refine Option.eq_none_iff_forall_ne_some.mpr fun b hb => ?_
    obtain rfl | hmem := h.stop.imp_right fun hstop => hstop b hb
    · exact nomatch hend.symm.trans (hnext.trans hb)
    · obtain ⟨i, hi, hib⟩ := mem_ups.mp hmem
      obtain ⟨period, rfl⟩ := Nat.exists_eq_add_of_le hi
      have hself : g.ancestor? (period + 1) b = some b := by
        rw [Nat.add_assoc, ancestor?_add, hib, Option.bind_some] at hnext
        rw [hnext, hb]
      have hgoes : g.ancestor? (i + 1 + (maxBaseChain + 1)) t ≠ none := by
        rw [ancestor?_add, hib, Option.bind_some]
        exact ancestor?_ne_none hself _
      exact hgoes (ancestor?_eq_none_of_le hend (Nat.le_add_left _ _))

end Cut

/-! ## Base chains -/

/-- **A list that follows base types from a type on**: without repeats and within the greatest
length, each entry the base type of the one before; it is complete exactly when no type is more
steps up than the greatest length. -/
structure FollowsBases (g : Graph) (t : Ty) (chain : List Ty) : Prop where
  nodup : chain.Nodup
  length_le : chain.length ≤ maxBaseChain
  starts : chain.head? = g.base? t
  continues : (t :: chain).IsChain fun u b => g.base? u = some b
  complete : g.base? (chain.getLastD t) = none ↔ g.ancestor? (maxBaseChain + 1) t = none

theorem Cut.followsBases (h : g.Cut t k last) : g.FollowsBases t (g.ups k t) where
  nodup := h.nodup
  length_le := by
    rw [length_ups h.reached]
    exact h.le
  starts := by
    cases k with
    | zero =>
      obtain rfl : t = last := Option.some.inj h.reached
      refine (Option.eq_none_iff_forall_ne_some.mpr fun b hb => ?_).symm
      exact absurd (h.stop.resolve_left (by decide) b hb) List.not_mem_nil
    | succ k =>
      rw [ups]
      cases g.base? t <;> rfl
  continues := isChain_ups k t
  complete := by rw [getLastD_ups h.reached, h.base?_last_eq_none]

end Graph

/-- **Base chains follow base types in every graph**, whatever the base links are; and a type stands
in its own base chain exactly when going up comes back to it within the greatest length. -/
theorem Graph.baseChain_cut (g : Graph) (t : Ty) :
    g.FollowsBases t (g.baseChain t) ∧
      (t ∈ g.baseChain t ↔ ∃ k < maxBaseChain, g.ancestor? (k + 1) t = some t) := by
  obtain ⟨k, last, hcut, heq⟩ := g.exists_cut t
  rw [heq]
  exact ⟨hcut.followsBases, hcut.self_mem_ups⟩

/-! Two classes that derive from each other. -/

namespace Chase

/-- The program. -/
def docs : List GraphDocument :=
  [{ coreLibrary := false, usings := []
     types := [{ CoreLibrary.classType "Farm" "Dog" with base? := "Cat" },
      { CoreLibrary.classType "Farm" "Cat" with base? := "Dog" }] }]

/-- The first class. -/
def dog : Ty := .plain (.top (some "Farm") "Dog" [])

/-- The second one. -/
def cat : Ty := .plain (.top (some "Farm") "Cat" [])

end Chase

/-- **The base chain of a type that derives from itself contains the type.** -/
theorem self_mem_baseChain_dog : ∃ g, load Chase.docs = .ok g ∧
    g.baseChain Chase.dog = [Chase.cat, Chase.dog] ∧ ¬∀ t, t ∉ g.baseChain t := by
  have hcheck : loadsAs Chase.docs
      (fun g => g.baseChain Chase.dog == [Chase.cat, Chase.dog]) = true := by decide +kernel
  obtain ⟨g, hload, hasked⟩ := exists_of_loadsAs hcheck
  have hchain : g.baseChain Chase.dog = [Chase.cat, Chase.dog] := eq_of_beq hasked
  refine ⟨g, hload, hchain, fun hnone => hnone Chase.dog ?_⟩
  rw [hchain]
  exact List.mem_cons_of_mem _ List.mem_cons_self

end LateBridge
