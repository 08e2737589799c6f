import LateBridge.Proofs.Document.Derived
import LateBridge.Proofs.Numbering.Tables
import Mathlib.Data.List.Perm.Basic
import Mathlib.Logic.Equiv.Fin.Basic

/-!
# Proofs/Document/Order — the order of documents only renames

    documents ──entries──▸ declarations ──outline──▸ bound declarations

Every entry is declared by itself, and what its references denote depends on the other declarations
only through the names they are found by (`Entry.loads_congr`).  No name is declared twice, so
names lead to the same declarations in every order (`Graph.find?_perm`).  The declarations of a
reordered list of documents are therefore the same ones, reordered (`exists_load_perm`): the two
graphs differ by a renaming of their numbers (`load_order_independent`).
-/

namespace LateBridge

/-! ## Names decide what references denote -/

namespace Graph

section Congruence

variable {g g' : Graph} (h : g.find? = g'.find?)

include h

theorem isValueType_congr : g.isValueType = g'.isValueType := by
  have hdecl : g.decl? = g'.decl? := funext fun n => congrFun h n.metadata
  have hmethod : g.method? = g'.method? := funext fun id => by rw [method?, method?, hdecl]
  have hparam : g.typeParam? = g'.typeParam? := funext fun v => by
    simp only [typeParam?, hdecl, hmethod]
  funext t
  cases t with
  | named n args => rw [isValueType, isValueType, hdecl]
  | var v => rw [isValueType, isValueType, constraints, constraints, hparam]
  | _ => rfl

theorem nullableOf_congr : g.nullableOf = g'.nullableOf := by
  funext t
  rw [nullableOf, nullableOf, isValueType_congr h, h]

theorem wordType?_congr : g.wordType? = g'.wordType? := by
  funext s word
  simp only [wordType?, special?, h]

theorem lookup?_congr {α : Type} : g.lookup? (α := α) = g'.lookup? := by
  have hsplit : g.lookupSplit? (α := α) = g'.lookupSplit? := by
    funext segments splits lead
    rw [lookupSplit?, lookupSplit?, h]
  funext s rooted segments
  rw [lookup?, lookup?, hsplit]

end Congruence

mutual

/-- **A reference denotes the same over graphs with the same names.** -/
theorem resolve_congr {g g' : Graph} {s : Scope} (h : g.find? = g'.find?) :
    (written : TypeSyntax) → g.resolve s written = g'.resolve s written
  | .array element rank => by rw [resolve, resolve, resolve_congr h element]
  | .pointer target => by rw [resolve, resolve, resolve_congr h target]
  | .nullable inner => by rw [resolve, resolve, resolve_congr h inner, nullableOf_congr h]
  | .fnptr params ret => by
    rw [resolve, resolve, resolveList_congr h params, resolve_congr h ret]
  | .name rooted segments => by
    rw [resolve, resolve, wordType?_congr h, lookup?_congr h, resolveSegments_congr h segments]

theorem resolveList_congr {g g' : Graph} {s : Scope} (h : g.find? = g'.find?) :
    (written : List TypeSyntax) → g.resolveList s written = g'.resolveList s written
  | [] => by rw [resolveList, resolveList]
  | type :: types => by
    rw [resolveList, resolveList, resolve_congr h type, resolveList_congr h types]

theorem resolveSegments_congr {g g' : Graph} {s : Scope} (h : g.find? = g'.find?) :
    (segments : List (Segment TypeSyntax)) →
      g.resolveSegments s segments = g'.resolveSegments s segments
  | [] => by rw [resolveSegments, resolveSegments]
  | segment :: segments => by
    rw [resolveSegments, resolveSegments, resolveSegment_congr h segment,
      resolveSegments_congr h segments]

theorem resolveSegment_congr {g g' : Graph} {s : Scope} (h : g.find? = g'.find?) :
    (segment : Segment TypeSyntax) → g.resolveSegment s segment = g'.resolveSegment s segment
  | ⟨_, args⟩ => by rw [resolveSegment, resolveSegment, resolveList_congr h args]

end

section Binding

variable {g g' : Graph} (h : g.find? = g'.find?)

include h

theorem bindType_congr : g.bindType = g'.bindType := by
  funext s context text
  simp only [bindType, resolve_congr h]

theorem bindAttribute_congr : g.bindAttribute = g'.bindAttribute := by
  have hargument : g.bindArgument = g'.bindArgument := by
    funext s arg
    cases arg <;> simp only [bindArgument, bindType_congr h]
  funext s doc
  simp only [bindAttribute, hargument]

theorem bindParams_congr : g.bindParams = g'.bindParams := by
  funext s context declared docs
  simp only [bindParams, bindParam, bindType_congr h, bindAttribute_congr h]

theorem bindGenerics_congr : g.bindGenerics = g'.bindGenerics := by
  funext e d
  simp only [bindGenerics, bindParams_congr h]

theorem bindHead_congr : g.bindHead = g'.bindHead := by
  funext e
  simp only [bindHead, bindType_congr h, defaultBase?, h]

theorem bindDecl_congr : g.bindDecl = g'.bindDecl := by
  have hparam : g.bindMethodParam = g'.bindMethodParam := by
    funext s context doc
    simp only [bindMethodParam, bindType_congr h]
  have hmethod : g.bindMethod = g'.bindMethod := by
    funext e m doc typeParams
    simp only [bindMethod, hparam, bindType_congr h, bindAttribute_congr h]
  funext b
  simp only [bindDecl, bindMethods, hmethod]

end Binding

end Graph

/-- **An entry is loaded the same over outlines with the same names.** -/
theorem Entry.loads_congr {outline outline' : Graph} (h : outline.find? = outline'.find?)
    {e : Entry} {d : TypeDecl} : e.Loads outline d ↔ e.Loads outline' d := by
  simp only [Entry.Loads, Graph.bindGenerics_congr h, Graph.bindHead_congr h,
    Graph.bindDecl_congr h]

/-! ## Declarations in another order -/

/-- **Names lead to the same declarations in every order.** -/
theorem Graph.find?_perm {g g' : Graph} (h : g.decls.Perm g'.decls)
    (hg : (g.decls.map (·.metadata)).Nodup) : g.find? = g'.find? := by
  have hg' : (g'.decls.map (·.metadata)).Nodup := (h.map _).nodup_iff.mp hg
  funext name
  refine Option.ext fun d => ?_
  rw [find?_eq_some_iff hg, find?_eq_some_iff hg', h.mem_iff]

/-- **Declaring succeeds** if no name is taken twice and every entry can be declared. -/
theorem Entry.declareAll_eq_ok_iff {taken : List String} {es : List Entry} {ds : List TypeDecl} :
    declareAll taken es = .ok ds ↔ ((es.map (·.name.metadata)).Nodup ∧
      ∀ e ∈ es, e.name.metadata ∉ taken) ∧ List.Forall₂ (fun e d => e.declare = .ok d) es ds := by
  constructor
  · exact fun h => ⟨nodup_of_declareAll h, forall₂_declareAll h⟩
  · rintro ⟨⟨hnodup, hfree⟩, h⟩
    induction h generalizing taken with
    | nil => rfl
    | @cons e d es ds hd _ ih =>
      obtain ⟨hfresh, hfree⟩ := List.forall_mem_cons.mp hfree
      obtain ⟨hnew, hnodup⟩ := List.nodup_cons.mp hnodup
      have htaken : ∀ e' ∈ es, e'.name.metadata ∉ e.name.metadata :: taken := fun e' he' hmem =>
        (List.mem_cons.mp hmem).elim (fun heq => hnew (List.mem_map.mpr ⟨e', he', heq⟩))
          (hfree e' he')
      rw [declareAll, if_neg (by simpa using hfresh), bind_eq_ok_iff]
      exact ⟨d, hd, bind_eq_ok_iff.mpr ⟨ds, ih hnodup htaken, rfl⟩⟩

/-- Entries that are loaded one by one are bound together. -/
theorem Graph.exists_parts {g : Graph} {es : List Entry} {declared ds : List TypeDecl}
    (hdeclared : List.Forall₂ (fun e d => e.declare = .ok d) es declared)
    (h : List.Forall₂ (fun e d => e.Loads g d) es ds) :
    ∃ generics heads,
      ((es.zip declared).mapM fun (e, d) => g.bindGenerics e d) = .ok generics ∧
      es.mapM g.bindHead = .ok heads ∧
      (((es.zip declared).zip (generics.zip heads)).mapM fun ((entry, decl), (generics, head)) =>
        g.bindDecl { entry, decl, generics, head }) = .ok ds := by
  induction hdeclared generalizing ds with
  | nil =>
    cases h
    exact ⟨[], [], rfl, rfl, rfl⟩
  | cons hd _ ih =>
    obtain ⟨d, ds, ⟨declared, generics, head, hd', hgenerics, hhead, hbind⟩, hds, rfl⟩ :=
      List.forall₂_cons_left_iff.mp h
    cases hd.symm.trans hd'
    obtain ⟨generics', heads', hgenerics', hheads', hbind'⟩ := ih hds
    refine ⟨generics :: generics', head :: heads', ?_, ?_, ?_⟩
    · simp [hgenerics, hgenerics', bind_eq_ok_iff]
    · simp [hhead, hheads', bind_eq_ok_iff]
    · simp [hbind, hbind', bind_eq_ok_iff]

/-- **What loading asks for**: names that differ, and that every entry by itself is declared, and
loaded over the outline of all declarations. -/
theorem load_eq_ok_iff {docs : List GraphDocument} {g : Graph} : load docs = .ok g ↔
    ∃ declared decls, Entry.declareAll [] (loadedEntries docs) = .ok declared ∧
      (∀ e ∈ (withCoreLibrary docs).flatMap GraphDocument.entriesUp,
        discard (Graph.bindHead { decls := declared } e) = .ok ()) ∧
      List.Forall₂ (fun e d => e.Loads { decls := declared } d) (loadedEntries docs) decls ∧
      g = { decls } := by
  constructor
  · intro h
    obtain ⟨declared, hdeclared, h⟩ := bind_eq_ok_iff.mp h
    obtain ⟨generics, hgenerics, h⟩ := bind_eq_ok_iff.mp h
    obtain ⟨_, hup, h⟩ := bind_eq_ok_iff.mp h
    obtain ⟨heads, hheads, h⟩ := bind_eq_ok_iff.mp h
    obtain ⟨decls, hdecls, h⟩ := bind_eq_ok_iff.mp h
    cases h
    exact ⟨declared, decls, hdeclared, forM_eq_ok_iff.mp hup,
      Graph.forall₂_bindDecl (Entry.forall₂_declareAll hdeclared) (forall₂_of_mapM hgenerics)
        (forall₂_of_mapM hheads) (forall₂_of_mapM hdecls), rfl⟩
  · rintro ⟨declared, decls, hdeclared, hup, hloads, rfl⟩
    obtain ⟨generics, heads, hgenerics, hheads, hdecls⟩ :=
      Graph.exists_parts (Entry.forall₂_declareAll hdeclared) hloads
    exact bind_eq_ok_iff.mpr ⟨declared, hdeclared, bind_eq_ok_iff.mpr ⟨generics, hgenerics,
      bind_eq_ok_iff.mpr ⟨(), forM_eq_ok_iff.mpr hup, bind_eq_ok_iff.mpr ⟨heads, hheads,
        bind_eq_ok_iff.mpr ⟨decls, hdecls, rfl⟩⟩⟩⟩⟩

/-! ## Documents in another order -/

theorem withCoreLibrary_perm {docs docs' : List GraphDocument} (h : docs.Perm docs') :
    (withCoreLibrary docs).Perm (withCoreLibrary docs') := by
  have hany : docs.any (·.coreLibrary) = docs'.any (·.coreLibrary) := h.any_eq
  rw [withCoreLibrary, withCoreLibrary, hany]
  split
  · exact h.cons _
  · exact h

/-- **Reordered documents load, and their declarations are the same ones, reordered.** -/
theorem exists_load_perm {docs docs' : List GraphDocument} (h : docs.Perm docs') {g : Graph}
    (hg : load docs = .ok g) : ∃ g', load docs' = .ok g' ∧ g.decls.Perm g'.decls := by
  have hdocs := withCoreLibrary_perm h
  have hentries : (loadedEntries docs').Perm (loadedEntries docs) := hdocs.symm.flatMap_right _
  obtain ⟨declared, decls, hdeclared, hup, hloads, rfl⟩ := load_eq_ok_iff.mp hg
  obtain ⟨⟨hnodup, -⟩, hall⟩ := Entry.declareAll_eq_ok_iff.mp hdeclared
  obtain ⟨declared', hall', hperm⟩ := List.perm_comp_forall₂ hentries hall
  obtain ⟨decls', hloads', hperm'⟩ := List.perm_comp_forall₂ hentries hloads
  have hdeclared' : Entry.declareAll [] (loadedEntries docs') = .ok declared' :=
    Entry.declareAll_eq_ok_iff.mpr
      ⟨⟨(hentries.map _).nodup_iff.mpr hnodup, fun _ _ => List.not_mem_nil⟩, hall'⟩
  -- The two outlines hold the same declarations, each under its own name.
  have hnames : (declared.map (·.metadata)).Nodup := by
    have hsame := map_name_of_forall₂ (fun _ _ => Entry.name_of_declare) hall
    have hmetadata := congrArg (List.map DeclName.metadata) hsame
    rw [List.map_map, List.map_map] at hmetadata
    exact hmetadata.symm ▸ hnodup
  have hfind : Graph.find? { decls := declared } = Graph.find? { decls := declared' } :=
    Graph.find?_perm hperm.symm hnames
  refine ⟨{ decls := decls' }, load_eq_ok_iff.mpr ⟨declared', decls', hdeclared', ?_, ?_, rfl⟩,
    hperm'.symm⟩
  · intro e he
    rw [← Graph.bindHead_congr hfind]
    exact hup e ((hdocs.flatMap_right _).mem_iff.mpr he)
  · exact hloads'.imp fun _ _ => (Entry.loads_congr hfind).mp

/-! ## Types inside a type

The types nested in a type all come from its own document, so that their order does not depend on
the order of the documents. -/

/-- A list put together from pieces, at most one of which has something in it, is the same whatever
the order of the pieces. -/
theorem flatMap_eq_of_perm {α β : Type} {f : α → List β} {as as' : List α} (h : as.Perm as')
    (hone : as.Pairwise fun a b => f a = [] ∨ f b = []) : as.flatMap f = as'.flatMap f := by
  induction h with
  | nil => rfl
  | cons a _ ih =>
    rw [List.flatMap_cons, List.flatMap_cons, ih (List.pairwise_cons.mp hone).2]
  | swap a b as =>
    obtain ⟨hb, -⟩ := List.pairwise_cons.mp hone
    simp only [List.flatMap_cons]
    obtain hempty | hempty := hb a List.mem_cons_self <;> simp [hempty]
  | trans h _ ih ih' =>
    exact (ih hone).trans (ih' (hone.perm h Or.symm))

/-- The entries directly inside a type. -/
def entriesInside (n : DeclName) (es : List Entry) : List Entry := es.filter (·.name.outer? == some n)

/-- A document with an entry inside a type has an entry for the type. -/
theorem GraphDocument.exists_entry_of_inside {doc : GraphDocument} {n : DeclName}
    (h : entriesInside n doc.entries ≠ []) : ∃ e ∈ doc.entries, e.name = n := by
  obtain ⟨e, he⟩ := List.exists_mem_of_ne_nil _ h
  obtain ⟨he, houter⟩ := List.mem_filter.mp he
  have hchain : n ∈ e.name.chain := by
    cases hname : e.name with
    | top space name params => simp [hname, DeclName.outer?] at houter
    | nested outer name params =>
      obtain rfl : outer = n := by simpa [hname, DeclName.outer?] using houter
      exact List.mem_append_left _ (List.mem_of_getLast? outer.getLast?_chain)
  obtain h | ⟨around, houter, -⟩ :=
    TypeDoc.around_entriesList doc.usings none doc.types e he n hchain
  · exact h
  · cases houter

theorem entriesInside_perm {docs docs' : List GraphDocument} (h : docs.Perm docs')
    (hnodup : ((loadedEntries docs).map (·.name.metadata)).Nodup) (n : DeclName) :
    entriesInside n (loadedEntries docs) = entriesInside n (loadedEntries docs') := by
  simp only [entriesInside, loadedEntries, List.filter_flatMap]
  refine flatMap_eq_of_perm (withCoreLibrary_perm h) ?_
  rw [loadedEntries, List.map_flatMap, List.nodup_flatMap] at hnodup
  refine hnodup.2.imp fun {doc doc'} hdisjoint => ?_
  by_contra hboth
  obtain ⟨hinside, hinside'⟩ := not_or.mp hboth
  obtain ⟨e, he, rfl⟩ := doc.exists_entry_of_inside hinside
  obtain ⟨e', he', hname⟩ := doc'.exists_entry_of_inside hinside'
  exact hdisjoint (List.mem_map_of_mem he) (List.mem_map.mpr ⟨e', he', by rw [hname]⟩)

theorem nodup_entries_of_load {docs : List GraphDocument} {g : Graph} (h : load docs = .ok g) :
    ((loadedEntries docs).map (·.name.metadata)).Nodup := by
  obtain ⟨declared, hdeclared, -⟩ := forall₂_loads h
  exact (Entry.nodup_of_declareAll hdeclared).1

/-- The types inside a type are those of the entries inside it. -/
theorem nestedIn_eq {docs : List GraphDocument} {g : Graph} (h : load docs = .ok g) (n : DeclName) :
    g.nestedIn n = (entriesInside n (loadedEntries docs)).filterMap fun e => g.decl? e.name := by
  obtain ⟨outline, hbinds⟩ := forall₂_binds h
  have hfound : ∀ d ∈ g.decls, g.decl? d.name = some d := fun d => decl?_of_mem h
  rw [Graph.nestedIn, entriesInside]
  generalize g.decls = ds, loadedEntries docs = es at hbinds hfound
  induction hbinds with
  | nil => rfl
  | @cons e d es ds hbind _ ih =>
    obtain ⟨hd, hfound⟩ := List.forall_mem_cons.mp hfound
    rw [hbind.name] at hd
    simp only [List.filter_cons, hbind.name]
    split
    · rw [List.filterMap_cons, hd, ih hfound]
    · exact ih hfound

/-! ## The numbers of a graph -/

namespace Graph

/-- **All type parameters**: those of each type, then those of its methods. -/
def typeParams (g : Graph) : List TypeParam :=
  g.decls.flatMap fun d => d.typeParams ++ d.methods.flatMap (·.typeParams)

/-- All types that declarations refer to. -/
def storedTypes (g : Graph) : List Ty :=
  g.decls.flatMap fun d => d.storedTypes ++ d.methods.flatMap Method.storedTypes

section Stored

variable {g : Graph}

/-- A type parameter is declared by a type or by a method. -/
theorem mem_of_typeParam? {v : TypeVar} {p : TypeParam} (h : g.typeParam? v = some p) :
    ∃ d ∈ g.decls, p ∈ d.typeParams ∨ ∃ m ∈ d.methods, p ∈ m.typeParams := by
  unfold typeParam? at h
  split at h
  · obtain ⟨d, hd, hp⟩ := Option.bind_eq_some_iff.mp h
    exact ⟨d, mem_decls_of_find? hd, .inl (List.mem_of_getElem? hp)⟩
  · obtain ⟨m, hm, hp⟩ := Option.bind_eq_some_iff.mp h
    obtain ⟨d, hd, hm⟩ := Option.bind_eq_some_iff.mp hm
    exact ⟨d, mem_decls_of_find? hd, .inr ⟨m, List.mem_of_getElem? hm, List.mem_of_getElem? hp⟩⟩

/-- The types stored with a method of a graph. -/
theorem mem_storedTypes_of_method {m : Method} (hm : m ∈ g.methods) {t : Ty}
    (ht : t ∈ m.storedTypes) : t ∈ g.storedTypes := by
  obtain ⟨d, hd, hmd⟩ := List.mem_flatMap.mp hm
  exact List.mem_flatMap.mpr
    ⟨d, hd, List.mem_append_right _ (List.mem_flatMap.mpr ⟨m, hmd, ht⟩)⟩

/-- **The constraint types of a variable are stored.** -/
theorem mem_storedTypes_of_constraintTypes {v : TypeVar} {t : Ty} (ht : t ∈ g.constraintTypes v) :
    t ∈ g.storedTypes := by
  rw [constraintTypes] at ht
  cases hp : g.typeParam? v with
  | none =>
    rw [hp] at ht
    cases ht
  | some p =>
    rw [hp] at ht
    have hstored : t ∈ p.storedTypes := List.mem_append_left _ ht
    obtain ⟨d, hd, hmem | ⟨m, hm, hmem⟩⟩ := mem_of_typeParam? hp
    · exact List.mem_flatMap.mpr ⟨d, hd, List.mem_append_left _
        (List.mem_append_right _ (List.mem_flatMap.mpr ⟨p, hmem, hstored⟩))⟩
    · refine mem_storedTypes_of_method (List.mem_flatMap.mpr ⟨d, hd, hm⟩) ?_
      rw [Method.storedTypes, List.append_assoc, List.append_assoc]
      exact List.mem_append_left _ (List.mem_flatMap.mpr ⟨p, hmem, hstored⟩)

end Stored

/-- The numbers of the types that declarations refer to, as they come. -/
def numbers (g : Graph) : Numbers := Interner.ofTypes g.storedTypes

/-- **A renaming of a graph**: types, methods, type parameters and interned types of one graph are
those of the other one under new numbers.  Declarations refer to each other by name, so that equal
declarations refer to what has the same name. -/
structure Renaming (g g' : Graph) where
  types : Fin g.decls.length ≃ Fin g'.decls.length
  methods : Fin g.methods.length ≃ Fin g'.methods.length
  typeParams : Fin g.typeParams.length ≃ Fin g'.typeParams.length
  interned : Fin g.numbers.size ≃ Fin g'.numbers.size
  type_eq : ∀ k, g'.decls[types k] = g.decls[k]
  method_eq : ∀ k, g'.methods[methods k] = g.methods[k]
  typeParam_eq : ∀ k, g'.typeParams[typeParams k] = g.typeParams[k]
  denotes_iff : ∀ (t : Ty) (id : Fin g.numbers.size),
    g.numbers.Denotes t id ↔ g'.numbers.Denotes t (interned id)
  /-- Every name leads to the same declaration. -/
  find?_eq : ∀ name, g'.find? name = g.find? name
  /-- Every type has the same types inside it, in the same order. -/
  nestedIn_eq : ∀ n, g'.nestedIn n = g.nestedIn n
  visitLimit_eq : g'.visitLimit = g.visitLimit

end Graph

/-- A reordered list has the same elements at other places. -/
theorem exists_equiv_of_perm {α : Type} {as as' : List α} (h : as.Perm as') :
    ∃ σ : Fin as.length ≃ Fin as'.length, ∀ k, as'[σ k] = as[k] := by
  induction h with
  | nil => exact ⟨Equiv.refl _, fun k => k.elim0⟩
  | cons a _ ih =>
    obtain ⟨σ, hσ⟩ := ih
    refine ⟨(finSuccEquiv _).trans (σ.optionCongr.trans (finSuccEquiv _).symm), fun k => ?_⟩
    cases k using Fin.cases with
    | zero => rfl
    | succ k => exact hσ k
  | swap a b as =>
    let σ : Equiv.Perm (Fin (as.length + 2)) := Equiv.swap 0 1
    refine ⟨σ, fun k => ?_⟩
    have at_place {j k : Fin (as.length + 2)} (hjk : σ k = j) :
        (a :: b :: as)[σ k] = (a :: b :: as)[j] := congrArg (fun j => (a :: b :: as)[j]) hjk
    cases k using Fin.cases with
    | zero => exact at_place (Equiv.swap_apply_left 0 1)
    | succ k =>
      cases k using Fin.cases with
      | zero => exact at_place (Equiv.swap_apply_right 0 1)
      | succ k => exact at_place (Equiv.swap_apply_of_ne_of_ne (by simp) (by simp [Fin.ext_iff]))
  | trans _ _ ih ih' =>
    obtain ⟨σ, hσ⟩ := ih
    obtain ⟨τ, hτ⟩ := ih'
    exact ⟨σ.trans τ, fun k => (hτ (σ k)).trans (hσ k)⟩

/-- **Loading does not depend on the order of documents.**  A reordered list of documents loads
exactly if the list itself does, and then the two graphs differ by a renaming of their numbers. -/
theorem load_order_independent {docs docs' : List GraphDocument} (h : docs.Perm docs') :
    ((∃ g, load docs = .ok g) ↔ ∃ g', load docs' = .ok g') ∧
      ∀ g g', load docs = .ok g → load docs' = .ok g' → Nonempty (g.Renaming g') := by
  refine ⟨⟨fun ⟨g, hg⟩ => (exists_load_perm h hg).imp fun _ => And.left,
    fun ⟨g', hg'⟩ => (exists_load_perm h.symm hg').imp fun _ => And.left⟩, fun g g' hg hg' => ?_⟩
  obtain ⟨g'', hg'', hperm⟩ := exists_load_perm h hg
  obtain rfl : g'' = g' := Except.ok.inj (hg''.symm.trans hg')
  have hfind : g.find? = g''.find? := Graph.find?_perm hperm (nodup_of_load hg)
  obtain ⟨types, htypes⟩ := exists_equiv_of_perm hperm
  obtain ⟨methods, hmethods⟩ := exists_equiv_of_perm (hperm.flatMap_right (·.methods))
  obtain ⟨typeParams, htypeParams⟩ := exists_equiv_of_perm
    (hperm.flatMap_right fun d => d.typeParams ++ d.methods.flatMap (·.typeParams))
  obtain ⟨interned, hinterned⟩ := Interner.renaming_of_perm
    (hperm.flatMap_right fun d => d.storedTypes ++ d.methods.flatMap Method.storedTypes)
  have hdecl : g.decl? = g''.decl? := funext fun n => congrFun hfind n.metadata
  have hnested : ∀ n, g''.nestedIn n = g.nestedIn n := fun n => by
    rw [nestedIn_eq hg, nestedIn_eq hg', hdecl, entriesInside_perm h (nodup_entries_of_load hg)]
  have hlimit : g''.visitLimit = g.visitLimit := by
    obtain ⟨_, _, -, -, -, rfl⟩ := load_eq_ok_iff.mp hg
    obtain ⟨_, _, -, -, -, rfl⟩ := load_eq_ok_iff.mp hg'
    rfl
  exact ⟨{ types, methods, typeParams, interned, type_eq := htypes, method_eq := hmethods
           typeParam_eq := htypeParams, denotes_iff := hinterned
           find?_eq := fun name => (congrFun hfind name).symm, nestedIn_eq := hnested
           visitLimit_eq := hlimit }⟩

/-! Two documents that need each other: a crate is a box of the other document, and a box holds
crates. -/

namespace Crates

/-- The document of the box. -/
def boxes : GraphDocument :=
  { coreLibrary := false, usings := ["Yard"]
    types := [{ CoreLibrary.classType "Shop" "Box" with
      typeParams := [{ CoreLibrary.param "T" with constraints := ["Crate"] }]
      nested := [CoreLibrary.classType "Shop" "Lid"] }] }

/-- The document of the crate. -/
def crates : GraphDocument :=
  { coreLibrary := false, usings := ["Shop"]
    types := [{ CoreLibrary.classType "Yard" "Crate" with base? := some "Box<Crate>" }] }

/-- The names that documents declare, if they load. -/
def names (docs : List GraphDocument) : Option (List String) :=
  match load docs with
  | .error _ => none
  | .ok g => some (g.decls.map (·.metadata))

theorem exists_of_names {docs : List GraphDocument} {found : List String}
    (h : names docs = some found) : ∃ g, load docs = .ok g ∧ g.decls.map (·.metadata) = found := by
  rw [names] at h
  split at h
  · cases h
  · rename_i g hload
    exact ⟨g, hload, Option.some.inj h⟩

end Crates

/-- The documents in both orders: the types change places, and nothing else does. -/
theorem load_order_independent_crates : ∃ g g', load [Crates.boxes, Crates.crates] = .ok g ∧
    load [Crates.crates, Crates.boxes] = .ok g' ∧
    g.decls.map (·.metadata) = ["Shop.Box`1", "Shop.Box`1+Lid", "Yard.Crate"] ∧
    g'.decls.map (·.metadata) = ["Yard.Crate", "Shop.Box`1", "Shop.Box`1+Lid"] ∧
    Nonempty (g.Renaming g') := by
  have hnames : Crates.names [Crates.boxes, Crates.crates] =
      some ["Shop.Box`1", "Shop.Box`1+Lid", "Yard.Crate"] := by decide +kernel
  have hnames' : Crates.names [Crates.crates, Crates.boxes] =
      some ["Yard.Crate", "Shop.Box`1", "Shop.Box`1+Lid"] := by decide +kernel
  obtain ⟨g, hg, hfound⟩ := Crates.exists_of_names hnames
  obtain ⟨g', hg', hfound'⟩ := Crates.exists_of_names hnames'
  exact ⟨g, g', hg, hg', hfound, hfound',
    (load_order_independent (List.Perm.swap Crates.crates Crates.boxes [])).2 g g' hg hg'⟩

end LateBridge
