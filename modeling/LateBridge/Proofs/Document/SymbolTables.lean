import LateBridge.Document.Load
import LateBridge.Proofs.Results
import Mathlib.Logic.Relation

/-!
# Proofs/Document/SymbolTables — declarations in tables that point at each other

    definitions ──containing──▸ definitions        names ──▸ definitions
         ╰──nested, methods, parameters──▸ ids     special types ──▸ definitions

Loading can keep its declarations in tables.  A definition then has an id, its place; it is made
before its type parameters, is entered in the list of the definition around it, and can be found by a
name that is read off the tables once the parameters are known.  Everything is said twice, and both
times the same (`SymbolTables.Consistent`): each step that declares a type or a method keeps it so,
hence so does every run (`SymbolTables.Consistent.reaches`).

An id is a place and has no width here.  Where it is kept it has 32 bits, so the tables are those of
documents with at most 2 ^ 32 definitions, methods and type parameters; only the ordinals, which have
16 bits, are cut.
-/

namespace LateBridge

/-! ## Lists of ids by owner -/

/-- **A list of what belongs to an owner**: the places where it stands, each once and in order. -/
structure Listing {β : Type} (owners : List β) (owner : β) (ids : List Nat) : Prop where
  mem : ∀ j, j ∈ ids ↔ owners[j]? = some owner
  increasing : ids.Pairwise (· < ·)

namespace Listing

variable {β : Type} {owners : List β} {owner new : β} {ids ids' : List Nat}

theorem lt_length (h : Listing owners owner ids) {j : Nat} (hj : j ∈ ids) : j < owners.length :=
  (List.getElem?_eq_some_iff.mp ((h.mem j).mp hj)).1

theorem nodup (h : Listing owners owner ids) : ids.Nodup :=
  h.increasing.imp fun hlt => Nat.ne_of_lt hlt

/-- **Owners come in**, the same at several places: its own list gets these places, every other list
stays. -/
theorem grow (h : Listing owners owner ids) (n : Nat)
    (heq : new = owner → ids' = ids ++ List.range' owners.length n)
    (hne : new ≠ owner → ids' = ids) :
    Listing (owners ++ List.replicate n new) owner ids' := by
  by_cases hnew : new = owner
  · subst hnew
    rw [heq rfl]
    refine ⟨fun j => ?_, ?_⟩
    · rw [List.mem_append, h.mem, List.mem_range'_1, List.getElem?_append, List.getElem?_replicate]
      by_cases hj : j < owners.length
      · rw [if_pos hj]
        exact or_iff_left fun hge => absurd hge.1 (Nat.not_le_of_lt hj)
      · simp only [hj, if_false, List.getElem?_eq_none (Nat.le_of_not_lt hj), reduceCtorEq,
          Option.ite_none_right_eq_some, and_true, false_or]
        omega
    · refine List.pairwise_append.mpr ⟨h.increasing, List.pairwise_lt_range', fun a ha b hb => ?_⟩
      exact Nat.lt_of_lt_of_le (h.lt_length ha) (List.mem_range'_1.mp hb).1
  · rw [hne hnew]
    refine ⟨fun j => ?_, h.increasing⟩
    rw [h.mem, List.getElem?_append, List.getElem?_replicate]
    split
    · rfl
    · rename_i hj
      rw [List.getElem?_eq_none (Nat.le_of_not_lt hj)]
      split <;> simp [hnew]

end Listing

/-! ## The tables -/

/-- **A definition**, with the ids of what belongs to it. -/
structure DefRecord where
  name : String
  space : Option String
  containing? : Option Nat
  params : List Nat
  special? : Option Special
  methods : List Nat
  nested : List Nat
  deriving DecidableEq, Repr

/-- What the name of a definition is read off from. -/
def DefRecord.step (d : DefRecord) : Option Nat × Option String × String × Nat :=
  (d.containing?, d.space, d.name, d.params.length)

/-- **A method**, with the id of its definition. -/
structure MethodRecord where
  name : String
  containing : Nat
  params : List Nat
  deriving DecidableEq, Repr

/-- The id of the definition or method that declares a type parameter. -/
inductive ParamOwner where
  | type (id : Nat)
  | method (id : Nat)
  deriving DecidableEq, Repr

/-- **A type parameter**; its ordinal is kept in 16 bits. -/
structure ParamRecord where
  name : String
  owner : ParamOwner
  ordinal : Nat
  deriving DecidableEq, Repr

/-- **The tables of loading.** -/
structure SymbolTables where
  defs : List DefRecord
  methods : List MethodRecord
  params : List ParamRecord
  byName : List (String × Nat)
  special : List (Special × Nat)
  deriving DecidableEq, Repr

namespace SymbolTables

/-- Tables without declarations. -/
def empty : SymbolTables := ⟨[], [], [], [], []⟩

/-! ### Questions -/

/-- A metadata name of one step, behind that of the definition around it. -/
def spelling (outer? : Option String) (space : Option String) (name : String) (arity : Nat) :
    String :=
  (match outer? with
    | some outer => outer ++ "+"
    | none => DeclName.spacePrefix space) ++ name ++ DeclName.aritySuffix "`" arity

/-- The metadata name of a definition, if the fuel is enough for the definitions around it. -/
def metadataWithin (defs : List DefRecord) : Nat → Nat → String
  | 0, _ => ""
  | fuel + 1, id =>
    match defs[id]? with
    | none => ""
    | some d =>
      spelling (d.containing?.map (metadataWithin defs fuel)) d.space d.name d.params.length

/-- **The metadata name of a definition**, read off the definitions: what is around it has a smaller
id. -/
def metadataIn (defs : List DefRecord) (id : Nat) : String := metadataWithin defs (id + 1) id

/-- The metadata name of a definition. -/
def metadata (t : SymbolTables) (id : Nat) : String := metadataIn t.defs id

/-- The definition with a metadata name. -/
def defByName? (t : SymbolTables) (name : String) : Option Nat := t.byName.lookup name

/-- The definition of a special type. -/
def specialDef? (t : SymbolTables) (s : Special) : Option Nat := t.special.lookup s

/-- The definition that a definition is nested in. -/
def containing? (t : SymbolTables) (id : Nat) : Option Nat := (t.defs[id]?).bind (·.containing?)

/-- The definitions nested in a definition. -/
def nestedOf (t : SymbolTables) (id : Nat) : List Nat := ((t.defs[id]?).map (·.nested)).getD []

/-- The methods of a definition. -/
def methodsOf (t : SymbolTables) (id : Nat) : List Nat := ((t.defs[id]?).map (·.methods)).getD []

/-- The type parameters of a definition or a method. -/
def paramsOf (t : SymbolTables) : ParamOwner → List Nat
  | .type id => ((t.defs[id]?).map (·.params)).getD []
  | .method id => ((t.methods[id]?).map (·.params)).getD []

/-! ### Declaring -/

/-- The type parameters of an owner, as its document has them. -/
def paramRecords (owner : ParamOwner) (docs : List TypeParamDoc) : List ParamRecord :=
  docs.zipIdx.map fun (doc, index) => ⟨doc.name, owner, index % Nat.pow 2 16⟩

/-- The ids that new type parameters get. -/
def newParams (t : SymbolTables) (docs : List TypeParamDoc) : List Nat :=
  List.range' t.params.length docs.length

/-- A definition enters the list of the one around it. -/
def enterNested (outer? : Option Nat) (id : Nat) (defs : List DefRecord) : List DefRecord :=
  match outer? with
  | some outer => defs.modify outer fun d => { d with nested := d.nested ++ [id] }
  | none => defs

/-- The metadata name of a definition that is still to be made, by its document. -/
def documentName (t : SymbolTables) (outer? : Option Nat) (doc : TypeDoc) : String :=
  spelling (outer?.map t.metadata) (doc.space.filter (!·.isEmpty)) doc.name doc.typeParams.length

/-- A definition without type parameters, methods and nested definitions. -/
def bareDef (t : SymbolTables) (outer? : Option Nat) (doc : TypeDoc) : DefRecord where
  name := doc.name
  space := if outer?.isSome then none else doc.space.filter (!·.isEmpty)
  containing? := outer?
  params := []
  special? := Special.ofMetadata? (t.documentName outer? doc)
  methods := []
  nested := []

/-- **The tables with a new type**, without its methods and what is nested in it.  It is made without
type parameters, which come next; then it is registered under the name that the definitions give. -/
def opened (t : SymbolTables) (outer? : Option Nat) (doc : TypeDoc) : SymbolTables :=
  let id := t.defs.length
  let bare := t.bareDef outer? doc
  let defs := (enterNested outer? id (t.defs ++ [bare])).modify id fun d =>
    { d with params := t.newParams doc.typeParams }
  { defs
    methods := t.methods
    params := t.params ++ paramRecords (.type id) doc.typeParams
    byName := (metadataIn defs id, id) :: t.byName
    special := (bare.special?.map (·, id)).toList ++ t.special }

/-- **A type is declared**, if the name that its document gives is free. -/
def openType (t : SymbolTables) (outer? : Option Nat) (doc : TypeDoc) :
    Except LoadError SymbolTables :=
  if (t.defByName? (t.documentName outer? doc)).isSome then
    .error (.duplicateType (t.documentName outer? doc))
  else .ok (t.opened outer? doc)

/-- **The tables with a new method** of a definition.  Its type parameters come after it. -/
def withMethod (t : SymbolTables) (outer : Nat) (doc : MethodDoc) : SymbolTables :=
  let id := t.methods.length
  let bare : MethodRecord := { name := doc.name, containing := outer, params := [] }
  { t with
    defs := t.defs.modify outer fun d => { d with methods := d.methods ++ [id] }
    methods := (t.methods ++ [bare]).modify id fun m =>
      { m with params := t.newParams doc.typeParams }
    params := t.params ++ paramRecords (.method id) doc.typeParams }

/-- **A method is declared**, if its accessibility can be read. -/
def declareMethod (t : SymbolTables) (outer : Nat) (doc : MethodDoc) :
    Except LoadError SymbolTables :=
  match Accessibility.ofText? doc.accessibility with
  | none => .error (.unknownAccessibility (t.metadata outer ++ "." ++ doc.name) doc.accessibility)
  | some _ => .ok (t.withMethod outer doc)

mutual

/-- **A type is declared with everything in it**: its methods, then the types nested in it. -/
def declareType (outer? : Option Nat) (t : SymbolTables) :
    TypeDoc → Except LoadError SymbolTables
  | doc@{ methods, nested, .. } => do
    let opened ← t.openType outer? doc
    let filled ← methods.foldlM (declareMethod · t.defs.length) opened
    declareTypes (some t.defs.length) filled nested

/-- Several types are declared. -/
def declareTypes (outer? : Option Nat) (t : SymbolTables) :
    List TypeDoc → Except LoadError SymbolTables
  | [] => .ok t
  | doc :: docs => do
    let t ← declareType outer? t doc
    declareTypes outer? t docs

end

/-- **The tables of documents.** -/
def declare (docs : List GraphDocument) : Except LoadError SymbolTables :=
  docs.foldlM (fun t doc => declareTypes none t doc.types) empty

/-! ## Metadata names -/

/-- Each definition has a greater id than what is around it. -/
def ContainedBefore (defs : List DefRecord) : Prop :=
  ∀ (id : Nat) (d : DefRecord) (outer : Nat), defs[id]? = some d → d.containing? = some outer →
    outer < id

theorem map_containing_congr {defs : List DefRecord} {id : Nat} {d : DefRecord}
    {f f' : Nat → String} (hbefore : ContainedBefore defs) (hd : defs[id]? = some d)
    (h : ∀ outer < id, f outer = f' outer) : d.containing?.map f = d.containing?.map f' := by
  cases houter : d.containing? with
  | none => rfl
  | some outer => exact congrArg some (h outer (hbefore id d outer hd houter))

/-- **A name depends on the definitions up to its own**, and on no fuel that is enough. -/
theorem metadataWithin_congr {defs defs' : List DefRecord} {id fuel fuel' : Nat}
    (hbefore : ContainedBefore defs)
    (hsteps : ∀ j ≤ id, (defs'[j]?).map (·.step) = (defs[j]?).map (·.step))
    (hfuel : id < fuel) (hfuel' : id < fuel') :
    metadataWithin defs' fuel' id = metadataWithin defs fuel id := by
  induction id using Nat.strongRecOn generalizing fuel fuel' with
  | _ id ih =>
    obtain ⟨fuel, rfl⟩ := Nat.exists_eq_add_one_of_ne_zero (Nat.ne_zero_of_lt hfuel)
    obtain ⟨fuel', rfl⟩ := Nat.exists_eq_add_one_of_ne_zero (Nat.ne_zero_of_lt hfuel')
    have hstep := hsteps id (Nat.le_refl id)
    rw [metadataWithin, metadataWithin]
    cases hd : defs[id]? with
    | none =>
      rw [hd, Option.map_none, Option.map_eq_none_iff] at hstep
      rw [hstep]
    | some d =>
      rw [hd, Option.map_some, Option.map_eq_some_iff] at hstep
      obtain ⟨d', hd', hsame⟩ := hstep
      simp only [DefRecord.step, Prod.mk.injEq] at hsame
      obtain ⟨hcontaining, hspace, hname, harity⟩ := hsame
      rw [hd']
      simp only [hcontaining, hspace, hname, harity]
      rw [map_containing_congr hbefore hd fun outer houter =>
        ih outer houter (fun j hj => hsteps j (Nat.le_trans hj (Nat.le_of_lt houter)))
          (Nat.lt_of_lt_of_le houter (Nat.le_of_lt_succ hfuel))
          (Nat.lt_of_lt_of_le houter (Nat.le_of_lt_succ hfuel'))]

theorem metadataIn_congr {defs defs' : List DefRecord} {id : Nat} (hbefore : ContainedBefore defs)
    (hsteps : ∀ j ≤ id, (defs'[j]?).map (·.step) = (defs[j]?).map (·.step)) :
    metadataIn defs' id = metadataIn defs id :=
  metadataWithin_congr hbefore hsteps (Nat.lt_succ_self id) (Nat.lt_succ_self id)

/-- **A name is spelled behind that of the definition around it.** -/
theorem metadataIn_eq {defs : List DefRecord} {id : Nat} {d : DefRecord}
    (hbefore : ContainedBefore defs) (hd : defs[id]? = some d) :
    metadataIn defs id =
      spelling (d.containing?.map (metadataIn defs)) d.space d.name d.params.length := by
  rw [metadataIn, metadataWithin, hd]
  simp only
  rw [map_containing_congr hbefore hd fun outer houter =>
    metadataWithin_congr hbefore (fun _ _ => rfl) (Nat.lt_succ_self outer) houter]
  rfl

/-! ## Consistency -/

theorem containing?_eq_some_iff {t : SymbolTables} {id outer : Nat} :
    t.containing? id = some outer ↔ (t.defs.map (·.containing?))[id]? = some (some outer) := by
  rw [containing?, Option.bind_eq_some_iff, List.getElem?_map, Option.map_eq_some_iff]

/-- **Type parameters are listed by their owners**, at the places that their ordinals say. -/
structure ParamsListed (params : List ParamRecord) (paramsOf : ParamOwner → List Nat) : Prop where
  listing : ∀ owner, Listing (params.map (·.owner)) owner (paramsOf owner)
  ordinal : ∀ owner j p, (paramsOf owner)[j]? = some p →
    (params[p]?).map (·.ordinal) = some (j % Nat.pow 2 16)

/-- **Tables that agree with each other.**  Names lead to what is named, special types to what has
their names; and who lists what is what stands around what. -/
structure Consistent (t : SymbolTables) : Prop where
  before : ContainedBefore t.defs
  byName : ∀ name id, t.defByName? name = some id ↔ id < t.defs.length ∧ t.metadata id = name
  special : ∀ s id, t.specialDef? s = some id ↔ id < t.defs.length ∧ t.metadata id = s.metadata
  nested : ∀ id, Listing (t.defs.map (·.containing?)) (some id) (t.nestedOf id)
  methods : ∀ id, Listing (t.methods.map (·.containing)) id (t.methodsOf id)
  params : ParamsListed t.params t.paramsOf

theorem consistent_empty : empty.Consistent where
  before := fun _ _ _ h => by cases h
  byName := by simp [empty, defByName?]
  special := by simp [empty, specialDef?]
  nested := fun _ => ⟨by simp [empty, nestedOf], .nil⟩
  methods := fun _ => ⟨by simp [empty, methodsOf], .nil⟩
  params :=
    { listing := fun owner => by cases owner <;> exact ⟨by simp [empty, paramsOf], .nil⟩
      ordinal := fun owner => by cases owner <;> simp [empty, paramsOf] }

section Lists

variable {params : List ParamRecord} {lists lists' : ParamOwner → List Nat} {new : ParamOwner}
  {docs : List TypeParamDoc}

@[simp] theorem length_paramRecords (owner : ParamOwner) (docs : List TypeParamDoc) :
    (paramRecords owner docs).length = docs.length := by
  rw [paramRecords, List.length_map, List.length_zipIdx]

theorem map_owner_paramRecords (owner : ParamOwner) (docs : List TypeParamDoc) :
    (paramRecords owner docs).map (·.owner) = List.replicate docs.length owner := by
  refine List.eq_replicate_iff.mpr ⟨by simp, fun b hb => ?_⟩
  simp only [paramRecords, List.map_map, List.mem_map, Function.comp_apply] at hb
  obtain ⟨_, -, rfl⟩ := hb
  rfl

/-- **Type parameters come in** with their owner. -/
theorem ParamsListed.grow (h : ParamsListed params lists)
    (hself : lists' new = List.range' params.length docs.length) (hnone : lists new = [])
    (hne : ∀ owner, new ≠ owner → lists' owner = lists owner) :
    ParamsListed (params ++ paramRecords new docs) lists' where
  listing := fun owner => by
    rw [List.map_append, map_owner_paramRecords]
    refine (h.listing owner).grow docs.length (fun e => ?_) (hne owner)
    rw [← e, hself, hnone, List.nil_append, List.length_map]
  ordinal := fun owner j p hp => by
    by_cases hnew : new = owner
    · rw [← hnew, hself] at hp
      obtain ⟨hj, rfl⟩ := List.getElem?_eq_some_iff.mp hp
      rw [List.getElem_range', Nat.one_mul, List.getElem?_append_right (Nat.le_add_right _ _),
        Nat.add_sub_cancel_left]
      rw [List.length_range'] at hj
      simp [paramRecords, hj]
    · rw [hne owner hnew] at hp
      have hlt := (h.listing owner).lt_length (List.mem_of_getElem? hp)
      rw [List.length_map] at hlt
      rw [List.getElem?_append_left hlt]
      exact h.ordinal owner j p hp

/-- What a change at one place does not touch. -/
theorem map_modify {α β : Type} {f : α → β} {change : α → α} (h : ∀ a, f (change a) = f a)
    (as : List α) (k : Nat) : (as.modify k change).map f = as.map f := by
  refine List.ext_getElem? fun j => ?_
  rw [List.getElem?_map, List.getElem?_map, List.getElem?_modify]
  cases as[j]? with
  | none => rfl
  | some a =>
    rw [Option.map_eq_map, Option.map_some, Option.map_some]
    split
    · rw [h, Option.map_some]
    · rfl

end Lists

/-! ## A new type -/

theorem modify_append_of_lt {α : Type} {as bs : List α} {k : Nat} (h : k < as.length)
    (f : α → α) : (as ++ bs).modify k f = as.modify k f ++ bs := by
  refine List.ext_getElem? fun j => ?_
  rw [List.getElem?_modify, List.getElem?_append, List.getElem?_append, List.getElem?_modify,
    List.length_modify]
  grind

theorem modify_concat {α : Type} (as : List α) (a : α) (f : α → α) :
    (as ++ [a]).modify as.length f = as ++ [f a] := by
  refine List.ext_getElem? fun j => ?_
  rw [List.getElem?_modify, List.getElem?_append, List.getElem?_append]
  grind

@[simp] theorem length_enterNested (outer? : Option Nat) (id : Nat) (defs : List DefRecord) :
    (enterNested outer? id defs).length = defs.length := by
  cases outer? <;> simp [enterNested]

theorem getElem?_enterNested (outer? : Option Nat) (id : Nat) (defs : List DefRecord) (k : Nat) :
    (enterNested outer? id defs)[k]? = (defs[k]?).map fun d =>
      if outer? = some k then { d with nested := d.nested ++ [id] } else d := by
  cases outer? with
  | none => simp [enterNested]
  | some outer => simp [enterNested, List.getElem?_modify]

section Opened

variable {t : SymbolTables} {outer? : Option Nat} {doc : TypeDoc}

/-- The record of a new type, once its type parameters are known. -/
def newDef (t : SymbolTables) (outer? : Option Nat) (doc : TypeDoc) : DefRecord :=
  { t.bareDef outer? doc with params := t.newParams doc.typeParams }

/-- **The definitions with a new type**: it comes last, and the one around it knows it. -/
theorem defs_opened (houter : ∀ outer ∈ outer?, outer < t.defs.length) :
    (t.opened outer? doc).defs =
      enterNested outer? t.defs.length t.defs ++ [t.newDef outer? doc] := by
  have hlast : ∀ defs : List DefRecord, defs.length = t.defs.length →
      (defs ++ [t.bareDef outer? doc]).modify t.defs.length
        (fun d => { d with params := t.newParams doc.typeParams }) =
      defs ++ [t.newDef outer? doc] := fun defs h => h ▸ modify_concat defs _ _
  cases outer? with
  | none => exact hlast t.defs rfl
  | some outer =>
    rw [← hlast _ (length_enterNested _ _ _)]
    simp only [opened, enterNested, modify_append_of_lt (houter outer rfl)]

theorem length_defs_opened (houter : ∀ outer ∈ outer?, outer < t.defs.length) :
    (t.opened outer? doc).defs.length = t.defs.length + 1 := by
  rw [defs_opened houter, List.length_append, length_enterNested, List.length_singleton]

theorem getElem?_defs_opened (houter : ∀ outer ∈ outer?, outer < t.defs.length) (k : Nat) :
    (t.opened outer? doc).defs[k]? =
      if k = t.defs.length then some (t.newDef outer? doc)
      else (t.defs[k]?).map fun d =>
        if outer? = some k then { d with nested := d.nested ++ [t.defs.length] } else d := by
  rw [defs_opened houter]
  split
  · rename_i hk
    rw [hk, List.getElem?_append_right (by simp)]
    simp
  · rename_i hk
    rw [← getElem?_enterNested]
    rcases Nat.lt_or_gt_of_ne hk with hlt | hgt
    · rw [List.getElem?_append_left (by simpa using hlt)]
    · rw [List.getElem?_eq_none (by simp; omega), List.getElem?_eq_none (by simp; omega)]

/-- The parts of the old definitions that a new type inside of one does not touch. -/
theorem map_defs_opened {β : Type} {f : DefRecord → β}
    (hf : ∀ d nested, f { d with nested } = f d)
    (houter : ∀ outer ∈ outer?, outer < t.defs.length) :
    (t.opened outer? doc).defs.map f = t.defs.map f ++ [f (t.newDef outer? doc)] := by
  rw [defs_opened houter, List.map_append, List.map_singleton]
  congr 1
  cases outer? with
  | none => rfl
  | some outer => exact map_modify (fun d => hf d _) _ _

theorem nestedOf_opened_self {outer : Nat} (houter : outer < t.defs.length) :
    (t.opened (some outer) doc).nestedOf outer = t.nestedOf outer ++ [t.defs.length] := by
  rw [nestedOf, getElem?_defs_opened (by simpa using houter), if_neg (Nat.ne_of_lt houter), nestedOf,
    List.getElem?_eq_getElem houter]
  simp

theorem nestedOf_opened (houter : ∀ outer ∈ outer?, outer < t.defs.length) {id : Nat}
    (h : outer? ≠ some id) : (t.opened outer? doc).nestedOf id = t.nestedOf id := by
  rw [nestedOf, getElem?_defs_opened houter, nestedOf]
  split
  · rename_i hid
    rw [hid, List.getElem?_eq_none (Nat.le_refl _)]
    rfl
  · simp only [Option.map_id_fun']
    rfl

theorem methodsOf_opened (houter : ∀ outer ∈ outer?, outer < t.defs.length) (id : Nat) :
    (t.opened outer? doc).methodsOf id = t.methodsOf id := by
  rw [methodsOf, getElem?_defs_opened houter, methodsOf]
  split
  · rename_i hid
    rw [hid, List.getElem?_eq_none (Nat.le_refl _)]
    rfl
  · cases t.defs[id]? with
    | none => rfl
    | some d => simp only [Option.map_some]; split <;> rfl

theorem paramsOf_opened_self (houter : ∀ outer ∈ outer?, outer < t.defs.length) :
    (t.opened outer? doc).paramsOf (.type t.defs.length) = t.newParams doc.typeParams := by
  rw [paramsOf, getElem?_defs_opened houter, if_pos rfl]
  rfl

theorem paramsOf_opened (houter : ∀ outer ∈ outer?, outer < t.defs.length) {owner : ParamOwner}
    (h : .type t.defs.length ≠ owner) :
    (t.opened outer? doc).paramsOf owner = t.paramsOf owner := by
  cases owner with
  | method id => rfl
  | type id =>
    rw [paramsOf, getElem?_defs_opened houter, if_neg fun e => h (congrArg ParamOwner.type e.symm),
      paramsOf]
    cases t.defs[id]? with
    | none => rfl
    | some d => simp only [Option.map_some]; split <;> rfl

theorem before_opened (hbefore : ContainedBefore t.defs)
    (houter : ∀ outer ∈ outer?, outer < t.defs.length) :
    ContainedBefore (t.opened outer? doc).defs := by
  intro id d outer hd hcontaining
  rw [getElem?_defs_opened houter] at hd
  split at hd
  · rename_i hid
    cases hd
    exact hid ▸ houter outer hcontaining
  · obtain ⟨old, hold, rfl⟩ := Option.map_eq_some_iff.mp hd
    refine hbefore id old outer hold ?_
    split at hcontaining <;> exact hcontaining

theorem containing?_opened_self (houter : ∀ outer ∈ outer?, outer < t.defs.length) :
    (t.opened outer? doc).containing? t.defs.length = outer? := by
  rw [containing?, getElem?_defs_opened houter, if_pos rfl]
  rfl

theorem containing?_opened (houter : ∀ outer ∈ outer?, outer < t.defs.length) {id : Nat}
    (hid : id < t.defs.length) : (t.opened outer? doc).containing? id = t.containing? id := by
  rw [containing?, getElem?_defs_opened houter, if_neg (Nat.ne_of_lt hid), containing?]
  cases t.defs[id]? with
  | none => rfl
  | some d => simp only [Option.map_some, Option.bind_some]; split <;> rfl

/-- Old names stay. -/
theorem metadata_opened (hbefore : ContainedBefore t.defs)
    (houter : ∀ outer ∈ outer?, outer < t.defs.length) {id : Nat} (hid : id < t.defs.length) :
    (t.opened outer? doc).metadata id = t.metadata id := by
  refine metadataIn_congr hbefore fun j hj => ?_
  rw [← List.getElem?_map, ← List.getElem?_map, map_defs_opened (fun _ _ => rfl) houter,
    List.getElem?_append_left (by simpa using Nat.lt_of_le_of_lt hj hid)]

/-- **The name by the document is the name by the tables.** -/
theorem metadata_opened_self (hbefore : ContainedBefore t.defs)
    (houter : ∀ outer ∈ outer?, outer < t.defs.length) :
    (t.opened outer? doc).metadata t.defs.length = t.documentName outer? doc := by
  have hlast : (t.opened outer? doc).defs[t.defs.length]? = some (t.newDef outer? doc) := by
    rw [getElem?_defs_opened houter, if_pos rfl]
  have harity : (t.newDef outer? doc).params.length = doc.typeParams.length :=
    List.length_range'
  rw [metadata, metadataIn_eq (before_opened hbefore houter) hlast, harity, documentName]
  cases outer? with
  | none => rfl
  | some outer =>
    exact congrArg (spelling · _ _ _) (congrArg some (metadata_opened hbefore houter
      (houter outer rfl)))

theorem byName_opened (hbefore : ContainedBefore t.defs)
    (houter : ∀ outer ∈ outer?, outer < t.defs.length) :
    (t.opened outer? doc).byName = (t.documentName outer? doc, t.defs.length) :: t.byName := by
  rw [← metadata_opened_self hbefore houter]
  rfl

theorem defByName?_opened (hbefore : ContainedBefore t.defs)
    (houter : ∀ outer ∈ outer?, outer < t.defs.length) (name : String) :
    (t.opened outer? doc).defByName? name =
      if name = t.documentName outer? doc then some t.defs.length else t.defByName? name := by
  rw [defByName?, byName_opened hbefore houter, List.lookup_cons]
  by_cases hname : name = t.documentName outer? doc
  · simp [hname]
  · rw [if_neg hname, beq_false_of_ne hname]
    rfl

theorem specialDef?_opened (s : Special) :
    (t.opened outer? doc).specialDef? s =
      if s.metadata = t.documentName outer? doc then some t.defs.length else t.specialDef? s := by
  have hspecial : (t.opened outer? doc).special =
      ((Special.ofMetadata? (t.documentName outer? doc)).map (·, t.defs.length)).toList ++ t.special :=
    rfl
  rw [specialDef?, hspecial]
  by_cases hname : s.metadata = t.documentName outer? doc
  · rw [if_pos hname, ← hname, Special.ofMetadata?_metadata]
    simp
  · rw [if_neg hname]
    cases hfound : Special.ofMetadata? (t.documentName outer? doc) with
    | none => rfl
    | some other =>
      have hother : s ≠ other := fun e => hname (e ▸ Special.metadata_of_ofMetadata? hfound)
      simp [List.lookup_cons, beq_false_of_ne hother, specialDef?]

/-- **A new type under a free name** keeps tables consistent. -/
theorem Consistent.opened (h : t.Consistent) (houter : ∀ outer ∈ outer?, outer < t.defs.length)
    (hfree : t.defByName? (t.documentName outer? doc) = none) :
    (t.opened outer? doc).Consistent := by
  have hlength : (t.opened outer? doc).defs.length = t.defs.length + 1 := length_defs_opened houter
  have hself : (t.opened outer? doc).metadata t.defs.length = t.documentName outer? doc :=
    metadata_opened_self h.before houter
  -- The new id has the new name, and no old one has it.
  have hname : ∀ id, id < (t.opened outer? doc).defs.length ∧
      (t.opened outer? doc).metadata id = t.documentName outer? doc ↔ id = t.defs.length := by
    intro id
    rw [hlength]
    constructor
    · rintro ⟨hid, hmetadata⟩
      refine (Nat.lt_succ_iff_lt_or_eq.mp hid).resolve_left fun hid => ?_
      rw [metadata_opened h.before houter hid] at hmetadata
      rw [(h.byName _ id).mpr ⟨hid, hmetadata⟩] at hfree
      cases hfree
    · rintro rfl
      exact ⟨Nat.lt_succ_self _, hself⟩
  have hold : ∀ name, name ≠ t.documentName outer? doc → ∀ id,
      (id < (t.opened outer? doc).defs.length ∧ (t.opened outer? doc).metadata id = name ↔
        id < t.defs.length ∧ t.metadata id = name) := by
    intro name hne id
    rw [hlength]
    constructor
    · rintro ⟨hid, rfl⟩
      obtain hid | rfl := Nat.lt_succ_iff_lt_or_eq.mp hid
      · exact ⟨hid, (metadata_opened h.before houter hid).symm⟩
      · exact absurd hself hne
    · rintro ⟨hid, rfl⟩
      exact ⟨Nat.lt_succ_of_lt hid, metadata_opened h.before houter hid⟩
  refine ⟨before_opened h.before houter, fun name id => ?_, fun s id => ?_, fun id => ?_,
    fun id => ?_, ?_⟩
  · rw [defByName?_opened h.before houter]
    split
    · rename_i hnew
      rw [hnew, hname, Option.some_inj, eq_comm]
    · rename_i hne
      rw [hold name hne, h.byName]
  · rw [specialDef?_opened]
    split
    · rename_i hnew
      rw [hnew, hname, Option.some_inj, eq_comm]
    · rename_i hne
      rw [hold _ hne, h.special]
  · rw [map_defs_opened (fun _ _ => rfl) houter]
    refine (h.nested id).grow 1 (fun e => ?_) (nestedOf_opened houter)
    obtain rfl : outer? = some id := e
    rw [nestedOf_opened_self (houter id rfl), List.length_map]
    rfl
  · rw [methodsOf_opened houter]
    exact h.methods id
  · exact h.params.grow (paramsOf_opened_self houter) (by simp [paramsOf])
      fun owner => paramsOf_opened houter

end Opened

/-! ## A new method -/

section WithMethod

variable {t : SymbolTables} {outer : Nat} {doc : MethodDoc}

/-- The parts of the definitions that a new method does not touch. -/
theorem map_defs_withMethod {β : Type} {f : DefRecord → β}
    (hf : ∀ d methods, f { d with methods } = f d) :
    (t.withMethod outer doc).defs.map f = t.defs.map f :=
  map_modify (fun d => hf d _) _ _

theorem getElem?_defs_withMethod {β : Type} {f : DefRecord → β}
    (hf : ∀ d methods, f { d with methods } = f d) (k : Nat) :
    ((t.withMethod outer doc).defs[k]?).map f = (t.defs[k]?).map f := by
  rw [← List.getElem?_map, map_defs_withMethod hf, List.getElem?_map]

/-- **The methods with a new one**: it comes last. -/
theorem methods_withMethod : (t.withMethod outer doc).methods = t.methods ++
    [{ name := doc.name, containing := outer, params := t.newParams doc.typeParams }] :=
  modify_concat _ _ _

/-- A method changes no name. -/
theorem metadata_withMethod (hbefore : ContainedBefore t.defs) (id : Nat) :
    (t.withMethod outer doc).metadata id = t.metadata id :=
  metadataIn_congr hbefore fun j _ => getElem?_defs_withMethod (fun _ _ => rfl) j

theorem containing?_withMethod (id : Nat) :
    (t.withMethod outer doc).containing? id = t.containing? id :=
  Option.ext fun around => by
    rw [containing?_eq_some_iff, map_defs_withMethod fun _ _ => rfl, containing?_eq_some_iff]

theorem nestedOf_withMethod (id : Nat) : (t.withMethod outer doc).nestedOf id = t.nestedOf id :=
  congrArg (Option.getD · []) (getElem?_defs_withMethod (fun _ _ => rfl) id)

theorem methodsOf_withMethod_self (houter : outer < t.defs.length) :
    (t.withMethod outer doc).methodsOf outer = t.methodsOf outer ++ [t.methods.length] := by
  simp [methodsOf, withMethod, List.getElem?_eq_getElem houter]

theorem methodsOf_withMethod {id : Nat} (h : outer ≠ id) :
    (t.withMethod outer doc).methodsOf id = t.methodsOf id := by
  simp [methodsOf, withMethod, h]

theorem paramsOf_withMethod_self :
    (t.withMethod outer doc).paramsOf (.method t.methods.length) = t.newParams doc.typeParams := by
  rw [paramsOf, methods_withMethod, List.getElem?_concat_length]
  rfl

theorem paramsOf_withMethod {owner : ParamOwner} (h : .method t.methods.length ≠ owner) :
    (t.withMethod outer doc).paramsOf owner = t.paramsOf owner := by
  cases owner with
  | type id => exact congrArg (Option.getD · []) (getElem?_defs_withMethod (fun _ _ => rfl) id)
  | method id =>
    have hid : id ≠ t.methods.length := fun e => h (congrArg ParamOwner.method e.symm)
    rw [paramsOf, methods_withMethod, paramsOf]
    rcases Nat.lt_or_gt_of_ne hid with hlt | hgt
    · rw [List.getElem?_append_left hlt]
    · rw [List.getElem?_eq_none (Nat.le_of_lt hgt), List.getElem?_eq_none]
      rw [List.length_append, List.length_singleton]
      exact hgt

/-- **A new method** of a definition keeps tables consistent. -/
theorem Consistent.withMethod (h : t.Consistent) (houter : outer < t.defs.length) :
    (t.withMethod outer doc).Consistent where
  before := fun id d containing hd hcontaining => by
    have hsame : ((t.withMethod outer doc).defs[id]?).map (·.containing?) =
        (t.defs[id]?).map (·.containing?) := getElem?_defs_withMethod (fun _ _ => rfl) id
    rw [hd, Option.map_some, eq_comm, Option.map_eq_some_iff] at hsame
    obtain ⟨old, hold, hsame⟩ := hsame
    exact h.before id old containing hold (hsame.trans hcontaining)
  byName := fun name id => by
    rw [metadata_withMethod h.before]
    exact (h.byName name id).trans (by simp [SymbolTables.withMethod])
  special := fun s id => by
    rw [metadata_withMethod h.before]
    exact (h.special s id).trans (by simp [SymbolTables.withMethod])
  nested := fun id => by
    rw [map_defs_withMethod fun _ _ => rfl, nestedOf_withMethod]
    exact h.nested id
  methods := fun id => by
    rw [methods_withMethod, List.map_append]
    refine (h.methods id).grow 1 (fun e => ?_) methodsOf_withMethod
    obtain rfl : outer = id := e
    rw [methodsOf_withMethod_self houter, List.length_map]
    rfl
  params := h.params.grow paramsOf_withMethod_self (by simp [paramsOf])
    fun _ => paramsOf_withMethod

end WithMethod

/-! ## Runs -/

/-- **A step of loading** that comes to an end: a type is declared at the top or inside of another
one, or a method is. -/
inductive Step (t : SymbolTables) : SymbolTables → Prop
  | type {outer? : Option Nat} {doc : TypeDoc} {t' : SymbolTables}
    (houter : ∀ outer ∈ outer?, outer < t.defs.length) (h : t.openType outer? doc = .ok t') :
    Step t t'
  | method {outer : Nat} {doc : MethodDoc} {t' : SymbolTables} (houter : outer < t.defs.length)
    (h : t.declareMethod outer doc = .ok t') : Step t t'

/-- Several steps. -/
def Reaches : SymbolTables → SymbolTables → Prop := Relation.ReflTransGen Step

variable {t t' : SymbolTables}

theorem openType_eq_ok {outer? : Option Nat} {doc : TypeDoc}
    (h : t.openType outer? doc = .ok t') :
    t.defByName? (t.documentName outer? doc) = none ∧ t' = t.opened outer? doc := by
  rw [openType] at h
  split at h
  · cases h
  · rename_i hfree
    cases h
    exact ⟨by simpa using hfree, rfl⟩

theorem declareMethod_eq_ok {outer : Nat} {doc : MethodDoc}
    (h : t.declareMethod outer doc = .ok t') : t' = t.withMethod outer doc := by
  rw [declareMethod] at h
  split at h
  · cases h
  · cases h
    rfl

/-- **A step keeps tables consistent.** -/
theorem Consistent.step (h : t.Consistent) (hstep : t.Step t') : t'.Consistent := by
  cases hstep with
  | type houter hopen =>
    obtain ⟨hfree, rfl⟩ := openType_eq_ok hopen
    exact h.opened houter hfree
  | method houter hmethod =>
    obtain rfl := declareMethod_eq_ok hmethod
    exact h.withMethod houter

/-- **So does a run.** -/
theorem Consistent.reaches (h : t.Consistent) (hrun : t.Reaches t') : t'.Consistent := by
  induction hrun with
  | refl => exact h
  | tail _ hstep ih => exact ih.step hstep

/-- Definitions are only added. -/
theorem Step.length_le (h : t.Step t') : t.defs.length ≤ t'.defs.length := by
  cases h with
  | type houter hopen =>
    obtain ⟨-, rfl⟩ := openType_eq_ok hopen
    exact Nat.le_of_lt (length_defs_opened houter ▸ Nat.lt_succ_self _)
  | method houter hmethod =>
    obtain rfl := declareMethod_eq_ok hmethod
    simp [withMethod]

theorem Reaches.length_le (h : t.Reaches t') : t.defs.length ≤ t'.defs.length := by
  induction h with
  | refl => exact Nat.le_refl _
  | tail _ hstep ih => exact Nat.le_trans ih hstep.length_le

theorem reaches_foldlM_declareMethod {outer : Nat} {docs : List MethodDoc}
    (houter : outer < t.defs.length) (h : docs.foldlM (declareMethod · outer) t = .ok t') :
    t.Reaches t' := by
  induction docs generalizing t with
  | nil =>
    cases h
    exact .refl
  | cons doc docs ih =>
    obtain ⟨next, hnext, h⟩ := bind_eq_ok_iff.mp h
    have hstep : t.Step next := .method houter hnext
    exact .head hstep (ih (Nat.lt_of_lt_of_le houter hstep.length_le) h)

/-- A type with its methods is declared in a run, and has its id then. -/
theorem reaches_declareOuter {outer? : Option Nat} {doc : TypeDoc} {docs : List MethodDoc}
    {opened : SymbolTables} (houter : ∀ outer ∈ outer?, outer < t.defs.length)
    (hopened : t.openType outer? doc = .ok opened)
    (hmethods : docs.foldlM (declareMethod · t.defs.length) opened = .ok t') :
    t.Reaches t' ∧ t.defs.length < t'.defs.length := by
  have hid : t.defs.length < opened.defs.length := by
    rw [(openType_eq_ok hopened).2, length_defs_opened houter]
    exact Nat.lt_succ_self _
  have hstep : t.Step opened := .type houter hopened
  have hrun := reaches_foldlM_declareMethod hid hmethods
  exact ⟨.head hstep hrun, Nat.lt_of_lt_of_le hid hrun.length_le⟩

mutual

/-- **Declaring a type is a run**, by induction on what is nested in it. -/
theorem reaches_declareType : (doc : TypeDoc) → {outer? : Option Nat} → {t t' : SymbolTables} →
    (∀ outer ∈ outer?, outer < t.defs.length) → declareType outer? t doc = .ok t' → t.Reaches t'
  | doc@⟨kind, name, space, typeParams, base?, interfaces, isPartial, isStatic, methods, members,
      nested, location⟩, outer?, t, t', houter, h => by
    rw [declareType] at h
    obtain ⟨opened, hopened, h⟩ := bind_eq_ok_iff.mp h
    obtain ⟨filled, hfilled, h⟩ := bind_eq_ok_iff.mp h
    obtain ⟨hreaches, hself⟩ := reaches_declareOuter houter hopened hfilled
    exact hreaches.trans (reaches_declareTypes nested (fun outer e => Option.some_inj.mp e ▸ hself) h)

theorem reaches_declareTypes : (docs : List TypeDoc) → {outer? : Option Nat} →
    {t t' : SymbolTables} → (∀ outer ∈ outer?, outer < t.defs.length) →
    declareTypes outer? t docs = .ok t' → t.Reaches t'
  | [], _, _, _, _, h => by
    rw [declareTypes] at h
    cases h
    exact .refl
  | doc :: docs, outer?, t, t', houter, h => by
    rw [declareTypes] at h
    obtain ⟨next, hnext, h⟩ := bind_eq_ok_iff.mp h
    have hfirst := reaches_declareType doc houter hnext
    exact hfirst.trans (reaches_declareTypes docs (fun outer e =>
      Nat.lt_of_lt_of_le (houter outer e) hfirst.length_le) h)

end

theorem reaches_foldlM_declareTypes {docs : List GraphDocument}
    (h : docs.foldlM (fun t doc => declareTypes none t doc.types) t = .ok t') : t.Reaches t' := by
  induction docs generalizing t with
  | nil =>
    cases h
    exact .refl
  | cons doc docs ih =>
    obtain ⟨next, hnext, h⟩ := bind_eq_ok_iff.mp h
    exact (reaches_declareTypes doc.types (fun _ e => by cases e) hnext).trans (ih h)

/-- **The tables of documents are consistent**, whatever the documents say. -/
theorem consistent_of_declare {docs : List GraphDocument} (h : declare docs = .ok t) :
    t.Consistent :=
  consistent_empty.reaches (reaches_foldlM_declareTypes h)

end SymbolTables

end LateBridge
