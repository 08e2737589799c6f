import Mathlib.Data.List.Forall2

/-!
# Proofs/Results — steps that succeed

A result of several steps is a result of each: one step after another, and one step at every place
of a list.
-/

namespace LateBridge

variable {ε α β : Type}

theorem bind_eq_ok_iff {x : Except ε α} {f : α → Except ε β} {b : β} :
    x >>= f = .ok b ↔ ∃ a, x = .ok a ∧ f a = .ok b := by
  cases x <;> simp [bind, Except.bind]

theorem bind_eq_error_iff {x : Except ε α} {f : α → Except ε β} {e : ε} :
    x >>= f = .error e ↔ x = .error e ∨ ∃ a, x = .ok a ∧ f a = .error e := by
  cases x <;> simp [bind, Except.bind]

/-- A step along a list succeeds at every place. -/
theorem forall₂_of_mapM {f : α → Except ε β} {as : List α} {bs : List β}
    (h : as.mapM f = .ok bs) : List.Forall₂ (fun a b => f a = .ok b) as bs := by
  induction as generalizing bs with
  | nil =>
    cases h
    exact .nil
  | cons a as ih =>
    rw [List.mapM_cons, bind_eq_ok_iff] at h
    obtain ⟨b, hb, h⟩ := h
    obtain ⟨bs', hbs, h⟩ := bind_eq_ok_iff.mp h
    cases h
    exact .cons hb (ih hbs)

theorem mapM_congr {f f' : α → Except ε β} {as : List α} (h : ∀ a ∈ as, f a = f' a) :
    as.mapM f = as.mapM f' := by
  induction as with
  | nil => rfl
  | cons a as ih =>
    obtain ⟨ha, has⟩ := List.forall_mem_cons.mp h
    rw [List.mapM_cons, List.mapM_cons, ha, ih has]

theorem forM_eq_ok_iff {f : α → Except ε Unit} {as : List α} :
    as.forM f = .ok () ↔ ∀ a ∈ as, f a = .ok () := by
  rw [List.forM_eq_forM]
  induction as with
  | nil => simp [pure, Except.pure]
  | cons a as ih =>
    rw [List.forM_cons, bind_eq_ok_iff, List.forall_mem_cons, ← ih]
    exact ⟨fun ⟨(), h⟩ => h, fun h => ⟨(), h⟩⟩

/-- Every element on the right of two lists in step has its partner. -/
theorem exists_of_mem_forall₂ {R : α → β → Prop} {as : List α} {bs : List β}
    (h : List.Forall₂ R as bs) {b : β} (hb : b ∈ bs) : ∃ a ∈ as, R a b := by
  obtain ⟨i, hi, rfl⟩ := List.mem_iff_getElem.mp hb
  have hi' : i < as.length := h.length_eq ▸ hi
  exact ⟨as[i], List.getElem_mem hi', h.get hi' hi⟩

theorem exists_of_mem_mapM {f : α → Except ε β} {as : List α} {bs : List β} {b : β}
    (h : as.mapM f = .ok bs) (hb : b ∈ bs) : ∃ a ∈ as, f a = .ok b :=
  exists_of_mem_forall₂ (forall₂_of_mapM h) hb

/-- What is in step with two lists, one behind the other, is in step with each. -/
theorem exists_of_forall₂_append {R : α → β → Prop} {as as' : List α} {bs : List β}
    (h : List.Forall₂ R (as ++ as') bs) :
    ∃ cs cs', List.Forall₂ R as cs ∧ List.Forall₂ R as' cs' ∧ bs = cs ++ cs' :=
  ⟨bs.take as.length, bs.drop as.length, (List.forall₂_take_append _ _ _ h.flip).flip,
    (List.forall₂_drop_append _ _ _ h.flip).flip, (List.take_append_drop _ bs).symm⟩

/-- Every element of a list has its partner in one that is no shorter. -/
theorem exists_mem_zip_of_le {as : List α} {bs : List β} (h : as.length ≤ bs.length) {a : α}
    (ha : a ∈ as) : ∃ b, (a, b) ∈ as.zip bs := by
  have hmem : a ∈ (as.zip bs).map Prod.fst := by rwa [List.map_fst_zip h]
  obtain ⟨⟨a, b⟩, hab, rfl⟩ := List.mem_map.mp hmem
  exact ⟨b, hab⟩

theorem exists_mem_zip {as : List α} {bs : List β} (h : as.length = bs.length) {a : α}
    (ha : a ∈ as) : ∃ b, (a, b) ∈ as.zip bs :=
  exists_mem_zip_of_le (Nat.le_of_eq h) ha

/-- Two lists in step with a third one are in step with each other. -/
theorem forall₂_through {γ : Type} {R : α → β → Prop} {Q : α → γ → Prop} {as : List α} {bs : List β}
    {cs : List γ} (hbs : List.Forall₂ R as bs) (hcs : List.Forall₂ Q as cs) :
    List.Forall₂ (fun b c => ∃ a, R a b ∧ Q a c) bs cs := by
  induction hbs generalizing cs with
  | nil =>
    cases hcs
    exact .nil
  | cons hab _ ih =>
    cases hcs with
    | cons hac hcs => exact .cons ⟨_, hab, hac⟩ (ih hcs)

end LateBridge
