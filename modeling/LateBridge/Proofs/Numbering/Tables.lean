import LateBridge.Proofs.Symbols.Substitution
import LateBridge.Symbols.Interner
import Mathlib.Data.List.Forall2
import Mathlib.Logic.Equiv.Defs

/-!
# Proofs/Numbering/Tables — what the numbers of an interner stand for

    number ──structure in the table──▸ structure over smaller numbers ──and so on──▸ type

In a grounded table every structure is made of numbers given before its own, so every number stands
for one type (`exists_denotes`), and no type has two numbers (`Denotes.unique`) nor a number two
types (`Denotes.injective`).  Tables only grow, and what a number stands for stays (`Denotes.mono`).
Two tables with the same types differ by a renaming of the numbers alone (`renaming_of_sameTypes`),
whatever the order in which the types came (`renaming_of_perm`).

Here and in what builds on it a number is a place in the table, without the limit of 32 bits: the
two are the same as long as there is a number for every place (`Interner.Fits.gives_iff`).
-/

namespace LateBridge

/-- The numbers a structure is made of. -/
def TypeShape.parts {D P : Type} : TypeShape D P → List Nat
  | .named _ args => args
  | .array element _ => [element]
  | .pointer target => [target]
  | .fnptr params ret => params ++ [ret]
  | .void | .dynamic | .error | .param _ => []

/-! ## Tables that grow -/

namespace Interner

variable {D P : Type} {i j k : Interner D P} {id : Nat} {shape : TypeShape D P}

/-- **A table in which every structure is made of earlier ones.** -/
def Grounded (i : Interner D P) : Prop :=
  ∀ (id : Nat) (shape : TypeShape D P),
    i.shapes[id]? = some shape → ∀ part ∈ shape.parts, part < id

/-- **A table with further types**; the numbers given before are kept. -/
structure Extends (i j : Interner D P) : Prop where
  shapes : i.shapes <+: j.shapes
  grounded : j.Grounded

theorem grounded_new : (new : Interner D P).Grounded := by
  intro id shape h part hpart
  have hreserved : shape ∈ [.void, .dynamic, .error] := List.mem_of_getElem? h
  simp only [List.mem_cons, List.not_mem_nil, or_false] at hreserved
  obtain rfl | rfl | rfl := hreserved <;> cases hpart

theorem Grounded.extends_self (h : i.Grounded) : i.Extends i := ⟨List.prefix_refl _, h⟩

theorem Extends.trans (hij : i.Extends j) (hjk : j.Extends k) : i.Extends k :=
  ⟨hij.shapes.trans hjk.shapes, hjk.grounded⟩

theorem lt_size (h : i.shapes[id]? = some shape) : id < i.size :=
  (List.getElem?_eq_some_iff.mp h).choose

theorem getElem?_mono (hij : i.shapes <+: j.shapes) (hid : i.shapes[id]? = some shape) :
    j.shapes[id]? = some shape := by
  obtain ⟨rest, hrest⟩ := hij
  rw [← hrest, List.getElem?_append_left (lt_size hid), hid]

theorem Extends.getElem? (h : i.Extends j) (hid : i.shapes[id]? = some shape) :
    j.shapes[id]? = some shape :=
  getElem?_mono h.shapes hid

theorem Extends.size_le (h : i.Extends j) : i.size ≤ j.size := h.shapes.length_le

theorem lookup_of_getElem? (h : i.shapes[id]? = some shape) : i.lookup id = shape := by
  rw [lookup, h, Option.getD_some]

/-- A structure has one number. -/
theorem eq_of_getElem? {id' : Nat} (h : i.shapes[id]? = some shape)
    (h' : i.shapes[id']? = some shape) : id = id' :=
  (List.getElem?_inj (lt_size h) i.nodup).mp (h.trans h'.symm)

section Place

variable [DecidableEq D] [DecidableEq P]

theorem shapes_place (h : shape ∉ i.shapes) : (i.place shape).2.shapes = i.shapes ++ [shape] := by
  rw [place, dif_neg h]

theorem place_of_mem (h : shape ∈ i.shapes) : (i.place shape).2 = i := by
  rw [place, dif_pos h]

/-- The number of a structure is that of its place. -/
theorem getElem?_place (i : Interner D P) (shape : TypeShape D P) :
    (i.place shape).2.shapes[(i.place shape).1]? = some shape := by
  by_cases h : shape ∈ i.shapes
  · have hlt : i.shapes.idxOf shape < i.shapes.length := List.idxOf_lt_length_of_mem h
    simp [place, h, List.getElem?_eq_getElem hlt]
  · simp [place, h, size]

/-- **Giving a number extends the table**, if the structure is made of numbers that are given. -/
theorem Grounded.extends_place (hi : i.Grounded) (hparts : ∀ part ∈ shape.parts, part < i.size) :
    i.Extends (i.place shape).2 := by
  by_cases h : shape ∈ i.shapes
  · rw [place_of_mem h]
    exact hi.extends_self
  · refine ⟨by rw [shapes_place h]; exact List.prefix_append _ _, fun id found hfound => ?_⟩
    rw [shapes_place h, List.getElem?_append] at hfound
    split at hfound
    · exact hi id found hfound
    · rename_i hid
      obtain rfl := List.mem_singleton.mp (List.mem_of_getElem? hfound)
      exact fun part hpart => Nat.lt_of_lt_of_le (hparts part hpart) (Nat.le_of_not_lt hid)

end Place

end Interner

/-! ## Lists in step -/

section Lists

variable {α β : Type} {R S : α → β → Prop} {as as' : List α} {bs bs' : List β}

theorem forall₂_imp_mem (h : List.Forall₂ R as bs) (step : ∀ a ∈ as, ∀ b, R a b → S a b) :
    List.Forall₂ S as bs := by
  induction h with
  | nil => exact .nil
  | cons hab _ ih =>
    obtain ⟨ha, has⟩ := List.forall_mem_cons.mp step
    exact .cons (ha _ hab) (ih has)

theorem forall₂_unique (h : List.Forall₂ R as bs) (h' : List.Forall₂ R as bs')
    (step : ∀ a ∈ as, ∀ b b', R a b → R a b' → b = b') : bs = bs' := by
  induction h generalizing bs' with
  | nil =>
    cases h'
    rfl
  | cons hab _ ih =>
    obtain ⟨b', bs', hab', hrest, rfl⟩ := List.forall₂_cons_left_iff.mp h'
    obtain ⟨ha, has⟩ := List.forall_mem_cons.mp step
    rw [ha _ _ hab hab', ih hrest has]

theorem forall₂_injective (h : List.Forall₂ R as bs) (h' : List.Forall₂ R as' bs)
    (step : ∀ a ∈ as, ∀ a' b, R a b → R a' b → a = a') : as = as' := by
  induction h generalizing as' with
  | nil =>
    cases h'
    rfl
  | cons hab _ ih =>
    obtain ⟨a', as', hab', hrest, rfl⟩ := List.forall₂_cons_right_iff.mp h'
    obtain ⟨ha, has⟩ := List.forall_mem_cons.mp step
    rw [ha _ _ hab hab', ih hrest has]

end Lists

/-! ## The types behind numbers -/

/-- **A table for the types of a program.** -/
abbrev Numbers := Interner DeclName TypeVar

namespace Interner

mutual

/-- **The type a number stands for.** -/
def Denotes (i : Numbers) : Ty → Nat → Prop
  | .named n args, id => ∃ ids, i.shapes[id]? = some (.named n ids) ∧ DenotesList i args ids
  | .array element rank, id =>
    ∃ part, i.shapes[id]? = some (.array part rank) ∧ Denotes i element part
  | .var v, id => i.shapes[id]? = some (.param v)
  | .pointer target, id => ∃ part, i.shapes[id]? = some (.pointer part) ∧ Denotes i target part
  | .fnptr params ret, id =>
    ∃ ids part, i.shapes[id]? = some (.fnptr ids part) ∧ DenotesList i params ids ∧
      Denotes i ret part
  | .void, id => i.shapes[id]? = some .void
  | .dynamic, id => i.shapes[id]? = some .dynamic
  | .error, id => i.shapes[id]? = some .error

/-- The types several numbers stand for. -/
def DenotesList (i : Numbers) : List Ty → List Nat → Prop
  | [], ids => ids = []
  | t :: ts, ids => ∃ id rest, ids = id :: rest ∧ Denotes i t id ∧ DenotesList i ts rest

end

theorem denotesList_iff {i : Numbers} {ts : List Ty} {ids : List Nat} :
    i.DenotesList ts ids ↔ List.Forall₂ i.Denotes ts ids := by
  induction ts generalizing ids with
  | nil => simp [DenotesList]
  | cons t ts ih =>
    simp only [DenotesList, List.forall₂_cons_left_iff, ih]
    exact ⟨fun ⟨id, rest, e, ht, hts⟩ => ⟨id, rest, ht, hts, e⟩,
      fun ⟨id, rest, ht, hts, e⟩ => ⟨id, rest, e, ht, hts⟩⟩

variable {i j : Numbers} {t : Ty} {id : Nat}

@[simp] theorem denotes_named {n : DeclName} {args : List Ty} :
    i.Denotes (.named n args) id ↔
      ∃ ids, i.shapes[id]? = some (.named n ids) ∧ List.Forall₂ i.Denotes args ids := by
  simp only [Denotes, denotesList_iff]

@[simp] theorem denotes_fnptr {params : List Ty} {ret : Ty} :
    i.Denotes (.fnptr params ret) id ↔
      ∃ ids part, i.shapes[id]? = some (.fnptr ids part) ∧ List.Forall₂ i.Denotes params ids ∧
        i.Denotes ret part := by
  simp only [Denotes, denotesList_iff]

/-! ## Structures behind types -/

/-- **A structure over the numbers of a table that makes a type.** -/
inductive Spells (i : Numbers) : TypeShape DeclName TypeVar → Ty → Prop where
  | named {n : DeclName} {ids : List Nat} {args : List Ty} (inside : List.Forall₂ i.Denotes args ids) :
      Spells i (.named n ids) (.named n args)
  | array {part rank : Nat} {element : Ty} (inside : i.Denotes element part) :
      Spells i (.array part rank) (.array element rank)
  | var {v : TypeVar} : Spells i (.param v) (.var v)
  | pointer {part : Nat} {target : Ty} (inside : i.Denotes target part) :
      Spells i (.pointer part) (.pointer target)
  | fnptr {ids : List Nat} {part : Nat} {params : List Ty} {ret : Ty}
      (inside : List.Forall₂ i.Denotes params ids) (result : i.Denotes ret part) :
      Spells i (.fnptr ids part) (.fnptr params ret)
  | void : Spells i .void .void
  | dynamic : Spells i .dynamic .dynamic
  | error : Spells i .error .error

/-- A number stands for the type that its structure makes. -/
theorem denotes_iff : i.Denotes t id ↔ ∃ shape, i.shapes[id]? = some shape ∧ i.Spells shape t := by
  constructor
  · intro h
    cases t with
    | named n args =>
      obtain ⟨ids, hid, hargs⟩ := denotes_named.mp h
      exact ⟨_, hid, .named hargs⟩
    | array element rank =>
      obtain ⟨part, hid, hpart⟩ := h
      exact ⟨_, hid, .array hpart⟩
    | pointer target =>
      obtain ⟨part, hid, hpart⟩ := h
      exact ⟨_, hid, .pointer hpart⟩
    | fnptr params ret =>
      obtain ⟨ids, part, hid, hparams, hret⟩ := denotes_fnptr.mp h
      exact ⟨_, hid, .fnptr hparams hret⟩
    | var => exact ⟨_, h, .var⟩
    | void => exact ⟨_, h, .void⟩
    | dynamic => exact ⟨_, h, .dynamic⟩
    | error => exact ⟨_, h, .error⟩
  · rintro ⟨shape, hid, hshape⟩
    cases hshape with
    | named inside => exact denotes_named.mpr ⟨_, hid, inside⟩
    | array inside => exact ⟨_, hid, inside⟩
    | pointer inside => exact ⟨_, hid, inside⟩
    | fnptr inside result => exact denotes_fnptr.mpr ⟨_, _, hid, inside, result⟩
    | var | void | dynamic | error => exact hid

/-- What has a number has a structure. -/
theorem Denotes.lt_size (h : i.Denotes t id) : id < i.size :=
  have ⟨_, h, _⟩ := denotes_iff.mp h
  Interner.lt_size h

theorem forall₂_lt_size {ts : List Ty} {ids : List Nat} (h : List.Forall₂ i.Denotes ts ids) :
    ∀ id ∈ ids, id < i.size := by
  induction h with
  | nil => simp
  | cons hid _ ih => exact List.forall_mem_cons.mpr ⟨hid.lt_size, ih⟩

/-- **What a number stands for stays when the table grows.** -/
theorem Denotes.mono (h : i.Denotes t id) (hij : i.Extends j) : j.Denotes t id := by
  induction t using Ty.induct generalizing id with
  | named n args ih =>
    obtain ⟨ids, hid, hargs⟩ := denotes_named.mp h
    exact denotes_named.mpr ⟨ids, hij.getElem? hid, forall₂_imp_mem hargs fun a ha _ => ih a ha⟩
  | array element rank ih =>
    obtain ⟨part, hid, hpart⟩ := h
    exact ⟨part, hij.getElem? hid, ih hpart⟩
  | pointer target ih =>
    obtain ⟨part, hid, hpart⟩ := h
    exact ⟨part, hij.getElem? hid, ih hpart⟩
  | fnptr params ret ihp ihr =>
    obtain ⟨ids, part, hid, hparams, hret⟩ := denotes_fnptr.mp h
    exact denotes_fnptr.mpr ⟨ids, part, hij.getElem? hid,
      forall₂_imp_mem hparams fun a ha _ => ihp a ha, ihr hret⟩
  | var | void | dynamic | error => exact hij.getElem? h

theorem forall₂_mono {ts : List Ty} {ids : List Nat} (h : List.Forall₂ i.Denotes ts ids)
    (hij : i.Extends j) : List.Forall₂ j.Denotes ts ids :=
  h.imp fun _ _ ht => ht.mono hij

section Spells

variable {shape : TypeShape DeclName TypeVar}

theorem Spells.mono (h : i.Spells shape t) (hij : i.Extends j) : j.Spells shape t := by
  cases h with
  | named inside => exact .named (forall₂_mono inside hij)
  | array inside => exact .array (inside.mono hij)
  | var => exact .var
  | pointer inside => exact .pointer (inside.mono hij)
  | fnptr inside result => exact .fnptr (forall₂_mono inside hij) (result.mono hij)
  | void => exact .void
  | dynamic => exact .dynamic
  | error => exact .error

theorem Spells.parts_lt_size (h : i.Spells shape t) : ∀ part ∈ shape.parts, part < i.size := by
  cases h with
  | named inside => exact forall₂_lt_size inside
  | array inside | pointer inside => exact List.forall_mem_singleton.mpr inside.lt_size
  | fnptr inside result =>
    exact List.forall_mem_append.mpr
      ⟨forall₂_lt_size inside, List.forall_mem_singleton.mpr result.lt_size⟩
  | var | void | dynamic | error => exact List.forall_mem_nil _

/-- **Giving a number to a structure numbers the type it makes.** -/
theorem Spells.place (h : i.Spells shape t) (hi : i.Grounded) :
    i.Extends (i.place shape).2 ∧ (i.place shape).2.Denotes t (i.place shape).1 :=
  have hext := hi.extends_place h.parts_lt_size
  ⟨hext, denotes_iff.mpr ⟨shape, Interner.getElem?_place i shape, h.mono hext⟩⟩

end Spells

/-! ## One number for a type, one type for a number -/

/-- **A type has at most one number.** -/
theorem Denotes.unique {a b : Nat} (ha : i.Denotes t a) (hb : i.Denotes t b) : a = b := by
  induction t using Ty.induct generalizing a b with
  | named n args ih =>
    obtain ⟨as, ha, has⟩ := denotes_named.mp ha
    obtain ⟨bs, hb, hbs⟩ := denotes_named.mp hb
    obtain rfl := forall₂_unique has hbs fun a ha _ _ => ih a ha
    exact Interner.eq_of_getElem? ha hb
  | array element rank ih =>
    obtain ⟨a', ha, hpart⟩ := ha
    obtain ⟨b', hb, hpart'⟩ := hb
    obtain rfl := ih hpart hpart'
    exact Interner.eq_of_getElem? ha hb
  | pointer target ih =>
    obtain ⟨a', ha, hpart⟩ := ha
    obtain ⟨b', hb, hpart'⟩ := hb
    obtain rfl := ih hpart hpart'
    exact Interner.eq_of_getElem? ha hb
  | fnptr params ret ihp ihr =>
    obtain ⟨as, a', ha, has, hret⟩ := denotes_fnptr.mp ha
    obtain ⟨bs, b', hb, hbs, hret'⟩ := denotes_fnptr.mp hb
    obtain rfl := ihr hret hret'
    obtain rfl := forall₂_unique has hbs fun a ha _ _ => ihp a ha
    exact Interner.eq_of_getElem? ha hb
  | var | void | dynamic | error => exact Interner.eq_of_getElem? ha hb

/-- Types with one number have one structure. -/
theorem Denotes.exists_spells {s : Ty} (hs : i.Denotes s id) (ht : i.Denotes t id) :
    ∃ shape, i.Spells shape s ∧ i.Spells shape t := by
  obtain ⟨shape, hid, hs⟩ := denotes_iff.mp hs
  obtain ⟨shape', hid', ht⟩ := denotes_iff.mp ht
  obtain rfl := Option.some.inj (hid.symm.trans hid')
  exact ⟨shape, hs, ht⟩

/-- **A number stands for at most one type.** -/
theorem Denotes.injective {s : Ty} (hs : i.Denotes s id) (ht : i.Denotes t id) : s = t := by
  induction s using Ty.induct generalizing t id with
  | named n args ih =>
    obtain ⟨_, hs, ht⟩ := hs.exists_spells ht
    cases hs with
    | named hargs =>
      cases ht with
      | named hargs' => rw [forall₂_injective hargs hargs' fun a ha _ _ => ih a ha]
  | array element rank ih =>
    obtain ⟨_, hs, ht⟩ := hs.exists_spells ht
    cases hs with
    | array hpart =>
      cases ht with
      | array hpart' => rw [ih hpart hpart']
  | pointer target ih =>
    obtain ⟨_, hs, ht⟩ := hs.exists_spells ht
    cases hs with
    | pointer hpart =>
      cases ht with
      | pointer hpart' => rw [ih hpart hpart']
  | fnptr params ret ihp ihr =>
    obtain ⟨_, hs, ht⟩ := hs.exists_spells ht
    cases hs with
    | fnptr hparams hret =>
      cases ht with
      | fnptr hparams' hret' =>
        rw [ihr hret hret', forall₂_injective hparams hparams' fun a ha _ _ => ihp a ha]
  | var | void | dynamic | error =>
    obtain ⟨_, hs, ht⟩ := hs.exists_spells ht
    cases hs
    cases ht
    rfl

/-- **The types with a number.** -/
def Knows (i : Numbers) (t : Ty) : Prop := ∃ id, i.Denotes t id

theorem exists_forall₂ {ts : List Ty} (h : ∀ t ∈ ts, i.Knows t) :
    ∃ ids, List.Forall₂ i.Denotes ts ids := by
  induction ts with
  | nil => exact ⟨[], .nil⟩
  | cons t ts ih =>
    obtain ⟨⟨id, ht⟩, h⟩ := List.forall_mem_cons.mp h
    obtain ⟨ids, hids⟩ := ih h
    exact ⟨id :: ids, .cons ht hids⟩

theorem exists_types {ids : List Nat} (h : ∀ id ∈ ids, ∃ t, i.Denotes t id) :
    ∃ ts, List.Forall₂ i.Denotes ts ids := by
  induction ids with
  | nil => exact ⟨[], .nil⟩
  | cons id ids ih =>
    obtain ⟨⟨t, ht⟩, h⟩ := List.forall_mem_cons.mp h
    obtain ⟨ts, hts⟩ := ih h
    exact ⟨t :: ts, .cons ht hts⟩

/-- A structure over numbers that stand for types makes a type. -/
theorem exists_of_parts {shape : TypeShape DeclName TypeVar}
    (h : ∀ part ∈ shape.parts, ∃ t, i.Denotes t part) : ∃ t, i.Spells shape t := by
  cases shape with
  | named n ids =>
    obtain ⟨args, hargs⟩ := exists_types h
    exact ⟨_, .named hargs⟩
  | array element rank =>
    obtain ⟨t, ht⟩ := h element (List.mem_singleton_self _)
    exact ⟨_, .array ht⟩
  | pointer target =>
    obtain ⟨t, ht⟩ := h target (List.mem_singleton_self _)
    exact ⟨_, .pointer ht⟩
  | fnptr ids ret =>
    obtain ⟨hids, hret⟩ := List.forall_mem_append.mp h
    obtain ⟨params, hparams⟩ := exists_types hids
    obtain ⟨t, ht⟩ := hret ret (List.mem_singleton_self _)
    exact ⟨_, .fnptr hparams ht⟩
  | param => exact ⟨_, .var⟩
  | void => exact ⟨_, .void⟩
  | dynamic => exact ⟨_, .dynamic⟩
  | error => exact ⟨_, .error⟩

/-- **Every number given stands for a type.** -/
theorem exists_denotes (hi : i.Grounded) (hid : id < i.size) : ∃ t, i.Denotes t id := by
  induction id using Nat.strongRecOn with
  | ind id ih =>
    obtain ⟨shape, hshape⟩ : ∃ shape, i.shapes[id]? = some shape :=
      ⟨_, List.getElem?_eq_getElem hid⟩
    obtain ⟨t, ht⟩ := exists_of_parts fun part hpart =>
      have hlt := hi id shape hshape part hpart
      ih part hlt (Nat.lt_trans hlt hid)
    exact ⟨t, denotes_iff.mpr ⟨shape, hshape, ht⟩⟩

/-! ## Numbering types -/

mutual

/-- **The number of a type**, given to it and its parts where they have none. -/
def enter (i : Numbers) : Ty → Nat × Numbers
  | .named n args =>
    let (ids, i) := enterList i args
    i.place (.named n ids)
  | .array element rank =>
    let (part, i) := enter i element
    i.place (.array part rank)
  | .var v => i.place (.param v)
  | .pointer target =>
    let (part, i) := enter i target
    i.place (.pointer part)
  | .fnptr params ret =>
    let (ids, i) := enterList i params
    let (part, i) := enter i ret
    i.place (.fnptr ids part)
  | .void => i.place .void
  | .dynamic => i.place .dynamic
  | .error => i.place .error

/-- The numbers of several types, one after the other. -/
def enterList (i : Numbers) : List Ty → List Nat × Numbers
  | [] => ([], i)
  | t :: ts =>
    let (id, i) := enter i t
    let (ids, i) := enterList i ts
    (id :: ids, i)

end

mutual

/-- Numbering a type only adds to the table, and then the type has its number. -/
theorem extends_enter {i : Numbers} (hi : i.Grounded) :
    (t : Ty) → i.Extends (i.enter t).2 ∧ (i.enter t).2.Denotes t (i.enter t).1
  | .named n args => by
    obtain ⟨hext, hargs⟩ := extends_enterList hi args
    exact (Spells.named hargs).place hext.grounded |>.imp_left hext.trans
  | .array element rank => by
    obtain ⟨hext, hpart⟩ := extends_enter hi element
    exact (Spells.array hpart).place hext.grounded |>.imp_left hext.trans
  | .pointer target => by
    obtain ⟨hext, hpart⟩ := extends_enter hi target
    exact (Spells.pointer hpart).place hext.grounded |>.imp_left hext.trans
  | .fnptr params ret => by
    obtain ⟨hext, hparams⟩ := extends_enterList hi params
    obtain ⟨hext', hret⟩ := extends_enter hext.grounded ret
    exact (Spells.fnptr (forall₂_mono hparams hext') hret).place hext'.grounded
      |>.imp_left (hext.trans hext').trans
  | .var _ => Spells.var.place hi
  | .void => Spells.void.place hi
  | .dynamic => Spells.dynamic.place hi
  | .error => Spells.error.place hi

theorem extends_enterList {i : Numbers} (hi : i.Grounded) : (ts : List Ty) →
    i.Extends (i.enterList ts).2 ∧ List.Forall₂ (i.enterList ts).2.Denotes ts (i.enterList ts).1
  | [] => ⟨hi.extends_self, .nil⟩
  | t :: ts => by
    obtain ⟨hext, ht⟩ := extends_enter hi t
    obtain ⟨hext', hts⟩ := extends_enterList hext.grounded ts
    exact ⟨hext.trans hext', .cons (ht.mono hext') hts⟩

end

/-! ## Tables with the same types -/

/-- An old number stands for what it stood for before the table grew. -/
theorem Denotes.of_extends (h : j.Denotes t id) (hij : i.Extends j) (hi : i.Grounded)
    (hid : id < i.size) : i.Denotes t id := by
  obtain ⟨s, hs⟩ := exists_denotes hi hid
  exact (hs.mono hij).injective h ▸ hs

/-- Giving a number adds one type at most. -/
theorem Spells.knows_of_place {shape : TypeShape DeclName TypeVar} {s : Ty}
    (h : i.Spells shape t) (hi : i.Grounded) (hs : (i.place shape).2.Knows s) :
    i.Knows s ∨ s = t := by
  obtain ⟨hext, ht⟩ := h.place hi
  obtain ⟨id, hs⟩ := hs
  by_cases hid : id < i.size
  · exact .inl ⟨id, hs.of_extends hext hi hid⟩
  · by_cases hmem : shape ∈ i.shapes
    · rw [Interner.place_of_mem hmem] at hs
      exact absurd hs.lt_size hid
    · have hlt : id < i.size + 1 := by
        simpa [Interner.size, Interner.shapes_place hmem] using hs.lt_size
      have hnew : (i.place shape).1 = id := by
        rw [Interner.place, dif_neg hmem]
        omega
      exact .inr (hs.injective (hnew ▸ ht))

mutual

/-- **Numbering a type adds nothing but the type and its parts**: whatever knows the type knows
all of them. -/
theorem knows_of_enter {i k : Numbers} (hi : i.Grounded) (hik : ∀ s, i.Knows s → k.Knows s) :
    (t : Ty) → k.Knows t → ∀ s, (i.enter t).2.Knows s → k.Knows s
  | .named n args, ht, s, hs => by
    obtain ⟨hext, hargs⟩ := extends_enterList hi args
    obtain hs | hs := (Spells.named hargs).knows_of_place hext.grounded hs
    · obtain ⟨id, ht⟩ := ht
      obtain ⟨ids, -, hids⟩ := denotes_named.mp ht
      exact knows_of_enterList hi hik args ids hids s hs
    · exact hs ▸ ht
  | .array element rank, ht, s, hs => by
    obtain ⟨hext, hpart⟩ := extends_enter hi element
    obtain hs | hs := (Spells.array hpart).knows_of_place hext.grounded hs
    · obtain ⟨id, part, -, hpart⟩ := ht
      exact knows_of_enter hi hik element ⟨part, hpart⟩ s hs
    · exact hs ▸ ht
  | .pointer target, ht, s, hs => by
    obtain ⟨hext, hpart⟩ := extends_enter hi target
    obtain hs | hs := (Spells.pointer hpart).knows_of_place hext.grounded hs
    · obtain ⟨id, part, -, hpart⟩ := ht
      exact knows_of_enter hi hik target ⟨part, hpart⟩ s hs
    · exact hs ▸ ht
  | .fnptr params ret, ht, s, hs => by
    obtain ⟨hext, hparams⟩ := extends_enterList hi params
    obtain ⟨hext', hret⟩ := extends_enter hext.grounded ret
    obtain hs | hs := (Spells.fnptr (forall₂_mono hparams hext') hret).knows_of_place
      hext'.grounded hs
    · obtain ⟨id, ht⟩ := ht
      obtain ⟨ids, part, -, hids, hpart⟩ := denotes_fnptr.mp ht
      exact knows_of_enter hext.grounded (knows_of_enterList hi hik params ids hids) ret
        ⟨part, hpart⟩ s hs
    · exact hs ▸ ht
  | .var _, ht, s, hs => (Spells.var.knows_of_place hi hs).elim (hik s) (· ▸ ht)
  | .void, ht, s, hs => (Spells.void.knows_of_place hi hs).elim (hik s) (· ▸ ht)
  | .dynamic, ht, s, hs => (Spells.dynamic.knows_of_place hi hs).elim (hik s) (· ▸ ht)
  | .error, ht, s, hs => (Spells.error.knows_of_place hi hs).elim (hik s) (· ▸ ht)

theorem knows_of_enterList {i k : Numbers} (hi : i.Grounded) (hik : ∀ s, i.Knows s → k.Knows s) :
    (ts : List Ty) → (ids : List Nat) → List.Forall₂ k.Denotes ts ids →
      ∀ s, (i.enterList ts).2.Knows s → k.Knows s
  | [], _, _, s, hs => hik s hs
  | t :: ts, id :: ids, hts, s, hs => by
    obtain ⟨ht, hts⟩ := List.forall₂_cons.mp hts
    exact knows_of_enterList (extends_enter hi t).1.grounded (knows_of_enter hi hik t ⟨id, ht⟩)
      ts ids hts s hs

end

/-- **The table of some types**: they and their parts, as they come. -/
def ofTypes (ts : List Ty) : Numbers := ((new : Numbers).enterList ts).2

theorem grounded_ofTypes (ts : List Ty) : (ofTypes ts).Grounded :=
  (extends_enterList grounded_new ts).1.grounded

theorem knows_ofTypes {ts : List Ty} (ht : t ∈ ts) : (ofTypes ts).Knows t := by
  obtain ⟨k, hk, rfl⟩ := List.mem_iff_getElem.mp ht
  have h := (extends_enterList grounded_new ts).2
  exact ⟨_, h.get hk (h.length_eq ▸ hk)⟩

/-- The table of fewer types knows less. -/
theorem knows_ofTypes_mono {ts us : List Ty} (h : ts ⊆ us) (ht : (ofTypes ts).Knows t) :
    (ofTypes us).Knows t := by
  have hnew : ∀ s, (new : Numbers).Knows s → (ofTypes us).Knows s :=
    fun s ⟨id, hs⟩ => ⟨id, hs.mono (extends_enterList grounded_new us).1⟩
  obtain ⟨ids, hids⟩ := exists_forall₂ fun s hs => knows_ofTypes (h hs)
  exact knows_of_enterList grounded_new hnew ts ids hids t ht

/-- **Tables with the same types differ by a renaming of their numbers.** -/
theorem renaming_of_sameTypes (hi : i.Grounded) (hj : j.Grounded)
    (h : ∀ t, i.Knows t ↔ j.Knows t) :
    ∃ σ : Fin i.size ≃ Fin j.size, ∀ (t : Ty) (id : Fin i.size),
      i.Denotes t id ↔ j.Denotes t (σ id) := by
  have forth : ∀ id : Fin i.size, ∃ id' : Fin j.size, ∃ t, i.Denotes t id ∧ j.Denotes t id' :=
    fun id =>
      have ⟨t, ht⟩ := exists_denotes hi id.isLt
      have ⟨id', ht'⟩ := (h t).mp ⟨id, ht⟩
      ⟨⟨id', ht'.lt_size⟩, t, ht, ht'⟩
  have back : ∀ id' : Fin j.size, ∃ id : Fin i.size, ∃ t, i.Denotes t id ∧ j.Denotes t id' :=
    fun id' =>
      have ⟨t, ht'⟩ := exists_denotes hj id'.isLt
      have ⟨id, ht⟩ := (h t).mpr ⟨id', ht'⟩
      ⟨⟨id, ht.lt_size⟩, t, ht, ht'⟩
  choose f hf using forth
  choose b hb using back
  have hbf : ∀ id, b (f id) = id := fun id => by
    obtain ⟨t, ht, htf⟩ := hf id
    obtain ⟨s, hs, hsf⟩ := hb (f id)
    obtain rfl := htf.injective hsf
    exact Fin.ext (hs.unique ht)
  have hfb : ∀ id, f (b id) = id := fun id => by
    obtain ⟨t, ht, htb⟩ := hb id
    obtain ⟨s, hs, hsb⟩ := hf (b id)
    obtain rfl := ht.injective hs
    exact Fin.ext (hsb.unique htb)
  refine ⟨⟨f, b, hbf, hfb⟩, fun t id => ?_⟩
  obtain ⟨s, hs, hsf⟩ := hf id
  constructor
  · intro ht
    exact hs.injective ht ▸ hsf
  · intro ht
    exact hsf.injective ht ▸ hs

/-- **The order in which types come only renames their numbers.** -/
theorem renaming_of_perm {ts us : List Ty} (h : ts.Perm us) :
    ∃ σ : Fin (ofTypes ts).size ≃ Fin (ofTypes us).size,
      ∀ (t : Ty) (id : Fin (ofTypes ts).size),
        (ofTypes ts).Denotes t id ↔ (ofTypes us).Denotes t (σ id) :=
  renaming_of_sameTypes (grounded_ofTypes ts) (grounded_ofTypes us) fun _ =>
    ⟨knows_ofTypes_mono h.subset, knows_ofTypes_mono h.symm.subset⟩

end Interner

end LateBridge
