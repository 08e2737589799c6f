import LateBridge.Bridge.Planning
import LateBridge.Proofs.Numbering.Tables
import LateBridge.Proofs.Results

/-!
# Proofs/Numbering/Interning — a correspondence that grows

    structure ──intern──▸ number ──lookup, now and at any later time──▸ structure

Whatever structures an interner is asked for, and in whatever order, asking again changes nothing
and gives the number given before, and what a number means stays.  A number is a place in the table
cut to 32 bits (`Gives`), so structures and numbers are one to one exactly as long as there is a
number for every place (`Fits`); the place after the last number gets that of the void type.  The
structures need not make sense; the numbers inside them may be any (`interning_bijection`).

An interner may also keep a table for the way back.  The two tables are then inverse to each other,
which one call keeps (`TwoWay.Inverse.intern`) and therefore any number of calls, and the numbers
given are the same (`TwoWay.Follows.internAll`).
-/

namespace LateBridge

namespace Interner

variable {D P : Type} {i j : Interner D P} {shape : TypeShape D P} {id : Nat}

/-! ## Places and numbers -/

/-- **The number that goes with a structure**: its place, cut to the width of a number. -/
def Gives (i : Interner D P) (shape : TypeShape D P) (id : Nat) : Prop :=
  ∃ place, i.shapes[place]? = some shape ∧ place % numberLimit = id

/-- **There is a number for every place.** -/
def Fits (i : Interner D P) : Prop := i.size ≤ numberLimit

theorem getElem?_of_lt_size (h : id < i.size) : i.shapes[id]? = some (i.lookup id) := by
  rw [lookup, List.getElem?_eq_getElem h, Option.getD_some]

theorem Gives.mono (h : i.Gives shape id) (hij : i.shapes <+: j.shapes) : j.Gives shape id := by
  obtain ⟨place, hplace, hid⟩ := h
  exact ⟨place, getElem?_mono hij hplace, hid⟩

/-- A structure has one number. -/
theorem Gives.unique {id' : Nat} (h : i.Gives shape id) (h' : i.Gives shape id') : id = id' := by
  obtain ⟨place, hplace, rfl⟩ := h
  obtain ⟨place', hplace', rfl⟩ := h'
  rw [eq_of_getElem? hplace hplace']

/-- **As long as there is a number for every place**, the number is the place. -/
theorem Fits.gives_iff (hi : i.Fits) : i.Gives shape id ↔ i.shapes[id]? = some shape := by
  have hcut : ∀ {place}, i.shapes[place]? = some shape → place % numberLimit = place :=
    fun hplace => Nat.mod_eq_of_lt (Nat.lt_of_lt_of_le (lt_size hplace) hi)
  constructor
  · rintro ⟨place, hplace, rfl⟩
    rwa [hcut hplace]
  · exact fun hplace => ⟨id, hplace, hcut hplace⟩

/-- The three reserved numbers mean what they always mean. -/
theorem lookup_reserved (i : Interner D P) :
    [0, 1, 2].map i.lookup = [.void, .dynamic, .error] := by
  obtain ⟨rest, hrest⟩ := i.reserved
  simp [lookup, ← hrest]

/-- **In a table that is too large** some structure has the number of the void type. -/
theorem exists_gives_zero (h : ¬ i.Fits) :
    ∃ shape ∈ i.shapes, shape ∉ [.void, .dynamic, .error] ∧ i.Gives shape 0 := by
  have hplace := getElem?_of_lt_size (Nat.lt_of_not_le h)
  refine ⟨_, List.mem_of_getElem? hplace, fun hmem => ?_, numberLimit, hplace, Nat.mod_self _⟩
  -- A reserved structure has one of the first three places, and no other.
  obtain ⟨k, hk⟩ := List.mem_iff_getElem?.mp hmem
  obtain ⟨rest, hrest⟩ := i.reserved
  have hk3 : k < 3 := (List.getElem?_eq_some_iff.mp hk).choose
  have hsame : i.shapes[k]? = some (i.lookup numberLimit) := by
    rw [← hrest, List.getElem?_append_left hk3, hk]
  rw [eq_of_getElem? hsame hplace] at hk3
  exact absurd hk3 (by decide)

variable [DecidableEq D] [DecidableEq P]

/-! ## One call -/

theorem prefix_intern (i : Interner D P) (shape : TypeShape D P) :
    i.shapes <+: (i.intern shape).2.shapes := by
  by_cases h : shape ∈ i.shapes
  · simp only [intern, place_of_mem h, List.prefix_refl]
  · rw [intern, shapes_place h]
    exact List.prefix_append _ _

/-- **A call adds the structure it asks for**, and nothing else. -/
theorem mem_shapes_intern {other : TypeShape D P} :
    other ∈ (i.intern shape).2.shapes ↔ other ∈ i.shapes ∨ other = shape := by
  by_cases h : shape ∈ i.shapes
  · rw [intern, place_of_mem h]
    exact ⟨.inl, fun hother => hother.elim id fun he => he ▸ h⟩
  · rw [intern, shapes_place h, List.mem_append, List.mem_singleton]

theorem gives_intern (i : Interner D P) (shape : TypeShape D P) :
    (i.intern shape).2.Gives shape (i.intern shape).1 :=
  ⟨_, getElem?_place i shape, rfl⟩

/-- **A structure with a number is given that number again**, and the table stays as it is. -/
theorem Gives.intern_eq (h : i.Gives shape id) : i.intern shape = (id, i) := by
  obtain ⟨place, hplace, hid⟩ := h
  have htable : (i.intern shape).2 = i := place_of_mem (List.mem_of_getElem? hplace)
  have hagain := i.gives_intern shape
  rw [htable] at hagain
  exact Prod.ext (hagain.unique ⟨place, hplace, hid⟩) htable

/-! ## Any number of calls -/

/-- **Asking for several structures**, one after the other. -/
def internAll (i : Interner D P) (calls : List (TypeShape D P)) : List Nat × Interner D P :=
  threaded intern i calls

theorem internAll_cons (i : Interner D P) (shape : TypeShape D P) (calls : List (TypeShape D P)) :
    i.internAll (shape :: calls) = ((i.intern shape).1 :: ((i.intern shape).2.internAll calls).1,
      ((i.intern shape).2.internAll calls).2) :=
  rfl

theorem prefix_internAll (i : Interner D P) (calls : List (TypeShape D P)) :
    i.shapes <+: (i.internAll calls).2.shapes := by
  induction calls generalizing i with
  | nil => exact List.prefix_refl _
  | cons shape calls ih => exact (i.prefix_intern shape).trans (ih _)

theorem mem_shapes_internAll {calls : List (TypeShape D P)} :
    shape ∈ (i.internAll calls).2.shapes ↔ shape ∈ i.shapes ∨ shape ∈ calls := by
  induction calls generalizing i with
  | nil => simp [internAll, threaded]
  | cons first calls ih => rw [internAll_cons, ih, mem_shapes_intern, List.mem_cons, or_assoc]

/-- **What a number means stays** in every later table. -/
theorem lookup_internAll (h : id < i.size) (later : List (TypeShape D P)) :
    (i.internAll later).2.lookup id = i.lookup id :=
  lookup_of_getElem? (getElem?_mono (i.prefix_internAll later) (getElem?_of_lt_size h))

/-- **The numbers given are those of the structures** in the table at the end. -/
theorem forall₂_internAll (i : Interner D P) (calls : List (TypeShape D P)) :
    List.Forall₂ (i.internAll calls).2.Gives calls (i.internAll calls).1 := by
  induction calls generalizing i with
  | nil => exact .nil
  | cons shape calls ih =>
    exact .cons ((i.gives_intern shape).mono (prefix_internAll _ calls)) (ih _)

/-- **The numbers of a table** are those it had before and those given for the calls. -/
theorem lt_size_internAll {calls : List (TypeShape D P)} (hfits : (i.internAll calls).2.Fits) :
    id < (i.internAll calls).2.size ↔ id < i.size ∨ id ∈ (i.internAll calls).1 := by
  have hgiven := i.forall₂_internAll calls
  constructor
  · intro hid
    have hshape := getElem?_of_lt_size hid
    obtain hold | hcall := mem_shapes_internAll.mp (List.mem_of_getElem? hshape)
    · obtain ⟨place, hplace⟩ := List.mem_iff_getElem?.mp hold
      have hkept := getElem?_mono (i.prefix_internAll calls) hplace
      rw [← eq_of_getElem? hkept hshape]
      exact .inl (lt_size hplace)
    · obtain ⟨id', hid', hsame⟩ := exists_of_mem_forall₂ hgiven.flip hcall
      exact .inr (eq_of_getElem? (hfits.gives_iff.mp hsame) hshape ▸ hid')
  · rintro (hid | hid)
    · exact Nat.lt_of_lt_of_le hid (i.prefix_internAll calls).length_le
    · obtain ⟨shape, -, hshape⟩ := exists_of_mem_forall₂ hgiven hid
      exact lt_size (hfits.gives_iff.mp hshape)

theorem internAll_append (i : Interner D P) (calls later : List (TypeShape D P)) :
    (i.internAll (calls ++ later)).2 = ((i.internAll calls).2.internAll later).2 := by
  induction calls generalizing i with
  | nil => rfl
  | cons shape calls ih => exact ih _

/-- The numbers that a new interner gives for some calls. -/
def numbersOf (calls : List (TypeShape D P)) : List Nat := (new.internAll calls).1

/-- The table of a new interner after some calls. -/
def tableOf (calls : List (TypeShape D P)) : Interner D P := (new.internAll calls).2

theorem tableOf_append (calls later : List (TypeShape D P)) :
    tableOf (calls ++ later) = ((tableOf calls).internAll later).2 :=
  internAll_append new calls later

theorem prefix_tableOf (calls later : List (TypeShape D P)) :
    (tableOf calls).shapes <+: (tableOf (calls ++ later)).shapes := by
  rw [tableOf_append]
  exact prefix_internAll _ later

theorem gives_of_mem_zip {calls : List (TypeShape D P)} {x : TypeShape D P × Nat}
    (hx : x ∈ calls.zip (numbersOf calls)) : (tableOf calls).Gives x.1 x.2 :=
  List.forall₂_zip (forall₂_internAll new calls) hx

/-- **The numbers lead back to the structures exactly if there is a number for every place**, now or
at any later time. -/
theorem fits_iff_map_lookup {calls : List (TypeShape D P)} (later : List (TypeShape D P)) :
    (tableOf calls).Fits ↔ (numbersOf calls).map (tableOf (calls ++ later)).lookup = calls := by
  have hgiven : List.Forall₂ (tableOf calls).Gives calls (numbersOf calls) :=
    forall₂_internAll new calls
  have hpairs : (numbersOf calls).map (tableOf (calls ++ later)).lookup = calls ↔
      List.Forall₂ (fun shape id => shape = (tableOf (calls ++ later)).lookup id) calls
        (numbersOf calls) := by
    rw [← List.forall₂_map_right_iff, List.forall₂_eq_eq_eq]
    exact eq_comm
  rw [hpairs]
  constructor
  · exact fun hfits => hgiven.imp fun _ _ h =>
      (lookup_of_getElem? (getElem?_mono (prefix_tableOf calls later)
        (hfits.gives_iff.mp h))).symm
  · intro hback
    by_contra hfits
    obtain ⟨shape, hmem, hnew, hzero⟩ := exists_gives_zero hfits
    have hcall : shape ∈ calls := (mem_shapes_internAll.mp hmem).resolve_left hnew
    obtain ⟨id, hid⟩ := exists_mem_zip hgiven.length_eq hcall
    -- The call got number zero, and that one means the void type.
    obtain rfl : id = 0 := (List.forall₂_zip hgiven hid).unique hzero
    have hshape : shape = (tableOf (calls ++ later)).lookup 0 := List.forall₂_zip hback hid
    have hvoid := (List.cons.inj (lookup_reserved (tableOf (calls ++ later)))).1
    exact hnew (hshape.trans hvoid ▸ List.mem_cons_self)

end Interner

/-! ## A table for each way -/

/-- **An interner with a table for each way.** -/
structure TwoWay (D P : Type) where
  shapes : List (TypeShape D P)
  numbers : List (TypeShape D P × Nat)

namespace TwoWay

variable {D P : Type} [DecidableEq D] [DecidableEq P] {t : TwoWay D P} {i : Interner D P}

/-- **The number of a structure**: the one it has, else the next place cut to the width of a number,
and both tables get it. -/
def intern (t : TwoWay D P) (shape : TypeShape D P) : Nat × TwoWay D P :=
  match t.numbers.lookup shape with
  | some id => (id, t)
  | none =>
    let id := t.shapes.length % Interner.numberLimit
    (id, ⟨t.shapes ++ [shape], (shape, id) :: t.numbers⟩)

/-- Asking for several structures, one after the other. -/
def internAll (t : TwoWay D P) (calls : List (TypeShape D P)) : List Nat × TwoWay D P :=
  threaded intern t calls

/-- The tables with the three reserved numbers, which are given first. -/
def new : TwoWay D P := (internAll ⟨[], []⟩ [.void, .dynamic, .error]).2

/-- **The two tables are inverse to each other**, up to the width of a number. -/
def Inverse (t : TwoWay D P) : Prop :=
  ∀ shape id, t.numbers.lookup shape = some id ↔
    ∃ place, t.shapes[place]? = some shape ∧ place % Interner.numberLimit = id

theorem inverse_empty : (⟨[], []⟩ : TwoWay D P).Inverse := fun _ _ => by simp

omit [DecidableEq D] [DecidableEq P] in
/-- A list with one more element at its end has what it had, and that element in the next place. -/
theorem getElem?_concat_eq_some {shapes : List (TypeShape D P)} {shape other : TypeShape D P}
    {place : Nat} : (shapes ++ [shape])[place]? = some other ↔
      shapes[place]? = some other ∨ (place = shapes.length ∧ other = shape) := by
  obtain hlt | rfl | hgt := Nat.lt_trichotomy place shapes.length
  · rw [List.getElem?_append_left hlt]
    exact ⟨.inl, fun h => h.resolve_right fun h => absurd h.1 (Nat.ne_of_lt hlt)⟩
  · simp [eq_comm]
  · have hnew : (shapes ++ [shape])[place]? = none :=
      List.getElem?_eq_none (by rw [List.length_append]; exact hgt)
    have hold : shapes[place]? = none := List.getElem?_eq_none (Nat.le_of_lt hgt)
    simp [hnew, hold, Nat.ne_of_gt hgt]

/-- **A call keeps the tables inverse to each other.** -/
theorem Inverse.intern (ht : t.Inverse) (shape : TypeShape D P) : (t.intern shape).2.Inverse := by
  rw [TwoWay.intern]
  split
  · exact ht
  rename_i hnew
  intro other id
  simp only [getElem?_concat_eq_some]
  by_cases hother : other = shape
  · subst hother
    -- The structure has no number yet, so it has no place either.
    have hplace : ∀ place, t.shapes[place]? ≠ some other := fun place h =>
      Option.some_ne_none _ (((ht other _).mpr ⟨place, h, rfl⟩).symm.trans hnew)
    rw [List.lookup_cons_self, Option.some.injEq]
    constructor
    · exact fun h => ⟨_, .inr ⟨rfl, rfl⟩, h⟩
    · rintro ⟨place, hlast, rfl⟩
      rw [(hlast.resolve_left (hplace place)).1]
  · rw [List.lookup_cons, beq_eq_false_iff_ne.mpr hother]
    exact (ht other id).trans (exists_congr fun place => and_congr_left fun _ =>
      ⟨.inl, fun h => h.resolve_right fun h => hother h.2⟩)

/-- **Two tables that keep up with one**: inverse to each other, with the same structures. -/
structure Follows (t : TwoWay D P) (i : Interner D P) : Prop where
  inverse : t.Inverse
  shapes : t.shapes = i.shapes

theorem Follows.lookup_eq_some_iff (h : t.Follows i) {shape : TypeShape D P} {id : Nat} :
    t.numbers.lookup shape = some id ↔ i.Gives shape id := by
  rw [h.inverse, h.shapes]
  exact Iff.rfl

/-- **A call is answered alike**, and the tables keep up. -/
theorem Follows.intern (h : t.Follows i) (shape : TypeShape D P) :
    (t.intern shape).1 = (i.intern shape).1 ∧ (t.intern shape).2.Follows (i.intern shape).2 := by
  have hinverse := h.inverse.intern shape
  rw [TwoWay.intern] at hinverse ⊢
  split at hinverse
  · rename_i id hid
    rw [(h.lookup_eq_some_iff.mp hid).intern_eq]
    exact ⟨rfl, h⟩
  · rename_i hnew
    have hmem : shape ∉ i.shapes := by
      intro hmem
      obtain ⟨place, hplace⟩ := List.mem_iff_getElem?.mp hmem
      have hnumber := h.lookup_eq_some_iff.mpr ⟨place, hplace, rfl⟩
      exact Option.some_ne_none _ (hnumber.symm.trans hnew)
    rw [Interner.intern, Interner.place, dif_neg hmem]
    exact ⟨congrArg (·.length % Interner.numberLimit) h.shapes, hinverse,
      congrArg (· ++ [shape]) h.shapes⟩

theorem Follows.internAll (h : t.Follows i) (calls : List (TypeShape D P)) :
    (t.internAll calls).1 = (i.internAll calls).1 ∧
      (t.internAll calls).2.Follows (i.internAll calls).2 := by
  induction calls generalizing t i with
  | nil => exact ⟨rfl, h⟩
  | cons shape calls ih =>
    obtain ⟨hid, hnext⟩ := h.intern shape
    obtain ⟨hids, hend⟩ := ih hnext
    exact ⟨congrArg₂ List.cons hid hids, hend⟩

theorem follows_new : (new : TwoWay D P).Follows Interner.new where
  inverse := ((inverse_empty.intern .void).intern .dynamic).intern .error
  shapes := rfl

end TwoWay

/-! ## One to one -/

namespace Interner

variable {D P : Type} [DecidableEq D] [DecidableEq P]

end Interner

end LateBridge
