import LateBridge.Proofs.Document.Order

/-!
# Proofs/Document/Stripping — documents without the methods of a namespace

    documents ──load──▸ graph
        │                 │
      strip             strip
        ▾                 ▾
    documents ──load──▸ graph

Stripping takes the methods out of all types of one namespace.  What a reference denotes depends on
types by their names and on type parameters by their constraints; the parameters of a method are
in scope only inside the method.  So references in what is left denote what they did
(`Graph.resolve_strip`), and stripped documents load into the stripped graph (`load_strip`).
-/

namespace LateBridge

/-! ## Stripping -/

mutual

/-- A type without its methods and those of the types nested in it. -/
def TypeDoc.withoutMethods : TypeDoc → TypeDoc
  | doc@{ nested, .. } => { doc with methods := [], nested := TypeDoc.withoutMethodsList nested }

/-- Several types without methods. -/
def TypeDoc.withoutMethodsList : List TypeDoc → List TypeDoc
  | [] => []
  | doc :: docs => doc.withoutMethods :: TypeDoc.withoutMethodsList docs

end

/-- A type without methods, if it is in a namespace. -/
def TypeDoc.strip (space : Option String) (doc : TypeDoc) : TypeDoc :=
  if (doc.nameIn none).space = space then doc.withoutMethods else doc

/-- **A document without the methods of a namespace.** -/
def GraphDocument.strip (space : Option String) (d : GraphDocument) : GraphDocument :=
  { d with types := d.types.map (TypeDoc.strip space) }

/-- An entry without methods, if its type is in a namespace. -/
def Entry.strip (space : Option String) (e : Entry) : Entry :=
  if e.name.space = space then { e with doc := e.doc.withoutMethods } else e

/-- A declaration without methods, if its type is in a namespace. -/
def TypeDecl.strip (space : Option String) (d : TypeDecl) : TypeDecl :=
  { d with methods := if d.name.space = space then [] else d.methods }

/-- **A graph without the methods of a namespace.** -/
def Graph.strip (space : Option String) (g : Graph) : Graph :=
  { decls := g.decls.map (TypeDecl.strip space), visitLimit := g.visitLimit }

variable {space : Option String}

theorem TypeDecl.strip_of_eq {d : TypeDecl} (h : d.name.space = space) :
    d.strip space = { d with methods := [] } := by
  rw [strip, if_pos h]

theorem TypeDecl.strip_of_ne {d : TypeDecl} (h : d.name.space ≠ space) : d.strip space = d := by
  rw [strip, if_neg h]

/-! ## Entries -/

namespace TypeDoc

mutual

theorem entries_withoutMethods (usings : List String) (outer : Option DeclName) :
    (doc : TypeDoc) → doc.withoutMethods.entries usings outer =
      (doc.entries usings outer).map fun e => { e with doc := e.doc.withoutMethods }
  | .mk kind name space typeParams base? interfaces isPartial isStatic methods members nested
      location => by
    rw [withoutMethods, entries, entries, List.map_cons, ← entriesList_withoutMethods usings]
    rfl

theorem entriesList_withoutMethods (usings : List String) (outer : Option DeclName) :
    (docs : List TypeDoc) → entriesList usings outer (withoutMethodsList docs) =
      (entriesList usings outer docs).map fun e => { e with doc := e.doc.withoutMethods }
  | [] => rfl
  | doc :: docs => by
    rw [withoutMethodsList, entriesList, entriesList, List.map_append,
      entries_withoutMethods usings outer doc, entriesList_withoutMethods usings outer docs]

end

mutual

/-- **The types of a type are in its namespace.** -/
theorem space_of_mem_entries (usings : List String) (outer : Option DeclName) :
    (doc : TypeDoc) → ∀ e ∈ doc.entries usings outer, e.name.space = (doc.nameIn outer).space
  | .mk kind name space typeParams base? interfaces isPartial isStatic methods members nested
      location, e, he => by
    obtain rfl | hnested := mem_entries.mp he
    · rfl
    · exact space_of_mem_entriesList usings _ nested e hnested

theorem space_of_mem_entriesList (usings : List String) (outer : DeclName) :
    (docs : List TypeDoc) → ∀ e ∈ entriesList usings (some outer) docs, e.name.space = outer.space
  | [], e, he => by cases he
  | doc :: docs, e, he => by
    rw [entriesList] at he
    obtain he | he := List.mem_append.mp he
    · exact space_of_mem_entries usings (some outer) doc e he
    · exact space_of_mem_entriesList usings outer docs e he

end

theorem entries_strip (usings : List String) (doc : TypeDoc) :
    (doc.strip space).entries usings none = (doc.entries usings none).map (Entry.strip space) := by
  have hspace := space_of_mem_entries usings none doc
  rw [strip]
  split
  · rename_i hin
    rw [entries_withoutMethods]
    exact List.map_congr_left fun e he => by rw [Entry.strip, if_pos ((hspace e he).trans hin)]
  · rename_i hout
    refine (List.map_id _).symm.trans (List.map_congr_left fun e he => ?_)
    rw [Entry.strip, if_neg fun hin => hout ((hspace e he).symm.trans hin), id]

end TypeDoc

theorem GraphDocument.entries_strip (d : GraphDocument) :
    (d.strip space).entries = d.entries.map (Entry.strip space) := by
  rw [entries, entries, strip]
  generalize d.types = types
  induction types with
  | nil => rfl
  | cons doc types ih =>
    rw [List.map_cons, TypeDoc.entriesList, TypeDoc.entriesList, List.map_append, ← ih,
      ← TypeDoc.entries_strip]

/-- The core library has no methods. -/
theorem CoreLibrary.strip_document : document.strip space = document := by
  have hbare : types.map TypeDoc.withoutMethods = types.map id := rfl
  have hstrip : types.map (TypeDoc.strip space) = types := by
    refine (List.map_congr_left fun doc hdoc => ?_).trans types.map_id
    rw [TypeDoc.strip, List.map_inj_left.mp hbare doc hdoc, id, ite_self]
  rw [GraphDocument.strip, document, hstrip]

theorem loadedEntries_strip (docs : List GraphDocument) :
    loadedEntries (docs.map (·.strip space)) = (loadedEntries docs).map (Entry.strip space) := by
  have hasks : (docs.map (·.strip space)).any (·.coreLibrary) = docs.any (·.coreLibrary) := by
    rw [List.any_map]
    rfl
  have hdocs : withCoreLibrary (docs.map (·.strip space)) =
      (withCoreLibrary docs).map (·.strip space) := by
    rw [withCoreLibrary, withCoreLibrary, hasks]
    split
    · rw [List.map_cons, CoreLibrary.strip_document]
    · rfl
  rw [loadedEntries, loadedEntries, hdocs, List.flatMap_map, List.map_flatMap]
  exact List.flatMap_congr fun d _ => d.entries_strip

/-! ## What is left of a graph -/

namespace Graph

variable {g : Graph}

@[simp] theorem find?_strip (name : String) :
    (g.strip space).find? name = (g.find? name).map (TypeDecl.strip space) := by
  rw [find?_eq, find?_eq, strip, List.find?_map]
  rfl

@[simp] theorem decl?_strip (n : DeclName) :
    (g.strip space).decl? n = (g.decl? n).map (TypeDecl.strip space) := find?_strip n.metadata

@[simp] theorem special?_strip (s : Special) : (g.strip space).special? s = g.special? s := by
  simp [special?, TypeDecl.strip, Function.comp_def]

@[simp] theorem kind?_strip (t : Ty) : (g.strip space).kind? t = g.kind? t := by
  simp [kind?, TypeDecl.strip, Function.comp_def]

/-- **A variable whose type parameter stripping leaves in the graph.** -/
def Keeps (space : Option String) (g : Graph) (v : TypeVar) : Prop :=
  (g.strip space).typeParam? v = g.typeParam? v

theorem keeps_of_ofType {v : TypeVar} (hv : v.OfType) : g.Keeps space v := by
  obtain ⟨n, hn⟩ := hv
  simp only [Keeps, typeParam?, hn, decl?_strip, Option.bind_map]
  rfl

theorem keeps_of_method {v : TypeVar} {id : MethodId} (hv : v.owner = .method id) {d : TypeDecl}
    (hd : g.decl? id.type = some d) (hspace : d.name.space ≠ space) : g.Keeps space v := by
  simp [Keeps, typeParam?, hv, method?, hd, TypeDecl.strip, hspace]

theorem constraints_strip {v : TypeVar} (hv : g.Keeps space v) :
    (g.strip space).constraints v = g.constraints v := by
  rw [constraints, constraints, hv]

theorem constraintTypes_strip {v : TypeVar} (hv : g.Keeps space v) :
    (g.strip space).constraintTypes v = g.constraintTypes v := by
  rw [constraintTypes, constraintTypes, hv]

theorem isValueType_strip {t : Ty} (ht : ∀ v ∈ t.vars, g.Keeps space v) :
    (g.strip space).isValueType t = g.isValueType t := by
  cases t with
  | named n args =>
    rw [isValueType, isValueType, decl?_strip, Option.any_map]
    rfl
  | var v =>
    rw [isValueType, isValueType, constraints_strip (ht v (Ty.mem_vars_var.mpr rfl))]
  | _ => rfl

/-! ## References in what is left -/

theorem nullableOf_strip {t : Ty} (ht : ∀ v ∈ t.vars, g.Keeps space v) :
    (g.strip space).nullableOf t = g.nullableOf t := by
  rw [nullableOf, nullableOf, isValueType_strip ht, find?_strip]
  cases g.find? "System.Nullable`1" <;> rfl

theorem wordType?_strip (s : Scope) (word : String) :
    (g.strip space).wordType? s word = g.wordType? s word := by
  simp only [wordType?, special?_strip]

theorem lookup?_strip {α : Type} (s : Scope) (rooted : Bool) (segments : List (Segment α)) :
    (g.strip space).lookup? s rooted segments =
      (g.lookup? s rooted segments).map (TypeDecl.strip space) := by
  have hsplit : ∀ splits lead, (g.strip space).lookupSplit? segments splits lead =
      (g.lookupSplit? segments splits lead).map (TypeDecl.strip space) := by
    intro splits lead
    rw [lookupSplit?, lookupSplit?, List.map_findSome?]
    refine congrArg₂ List.findSome? (funext fun split => ?_) rfl
    rw [Function.comp_apply, Option.map_bind]
    exact congrArg _ (funext fun name => find?_strip name)
  have hall : ∀ (splits : Nat) (leads : List String),
      leads.findSome? ((g.strip space).lookupSplit? segments splits) =
        (leads.findSome? (g.lookupSplit? segments splits)).map (TypeDecl.strip space) := by
    intro splits leads
    rw [List.map_findSome?]
    exact congrArg₂ List.findSome? (funext fun lead => hsplit splits lead) rfl
  rw [lookup?, lookup?]
  split
  · exact hsplit _ _
  · rw [hall, hall, hall, Option.map_or, Option.map_or]

/-- **A scope that stripping leaves alone**: it knows the parameters of no method that goes. -/
def KeepsScope (space : Option String) (g : Graph) (s : Scope) : Prop :=
  ∀ v ∈ s.methodVars, g.Keeps space v

theorem keeps_of_covers {s : Scope} (hs : g.KeepsScope space s) {t : Ty} (ht : s.Covers t) :
    ∀ v ∈ t.vars, g.Keeps space v :=
  fun v hv => (ht v hv).elim (hs v) keeps_of_ofType

mutual

/-- **A reference in what is left denotes what it did.** -/
theorem resolve_strip {s : Scope} (hs : g.KeepsScope space s) :
    (written : TypeSyntax) → (g.strip space).resolve s written = g.resolve s written
  | .array element rank => by rw [resolve, resolve, resolve_strip hs element]
  | .pointer target => by rw [resolve, resolve, resolve_strip hs target]
  | .nullable inner => by
    rw [resolve, resolve, resolve_strip hs inner]
    split
    · rename_i hinner
      rw [nullableOf_strip (keeps_of_covers hs (referenceClosed_covers.of_resolve hinner))]
    · rfl
  | .fnptr params ret => by
    rw [resolve, resolve, resolveList_strip hs params, resolve_strip hs ret]
  | .name rooted segments => by
    rw [resolve, resolve, funext (wordType?_strip s), lookup?_strip, resolveSegments_strip hs]
    cases g.lookup? s rooted segments <;> rfl

theorem resolveList_strip {s : Scope} (hs : g.KeepsScope space s) :
    (written : List TypeSyntax) → (g.strip space).resolveList s written = g.resolveList s written
  | [] => by rw [resolveList, resolveList]
  | type :: types => by
    rw [resolveList, resolveList, resolve_strip hs type, resolveList_strip hs types]

theorem resolveSegments_strip {s : Scope} (hs : g.KeepsScope space s) :
    (segments : List (Segment TypeSyntax)) →
      (g.strip space).resolveSegments s segments = g.resolveSegments s segments
  | [] => by rw [resolveSegments, resolveSegments]
  | segment :: segments => by
    rw [resolveSegments, resolveSegments, resolveSegment_strip hs segment,
      resolveSegments_strip hs segments]

theorem resolveSegment_strip {s : Scope} (hs : g.KeepsScope space s) :
    (segment : Segment TypeSyntax) →
      (g.strip space).resolveSegment s segment = g.resolveSegment s segment
  | ⟨_, args⟩ => by rw [resolveSegment, resolveSegment, resolveList_strip hs args]

end

/-! ## Binding in what is left -/

section Binding

variable {s : Scope} (hs : g.KeepsScope space s)

include hs

theorem bindType_strip (context text : String) :
    (g.strip space).bindType s context text = g.bindType s context text := by
  simp only [bindType, resolve_strip hs]

theorem bindAttribute_strip (doc : AttributeDoc) :
    (g.strip space).bindAttribute s doc = g.bindAttribute s doc := by
  have hargument : (g.strip space).bindArgument s = g.bindArgument s := by
    funext arg
    cases arg <;> simp only [bindArgument, bindType_strip hs]
  simp only [bindAttribute, hargument]

theorem bindParams_strip (context : String) (declared : List TypeParam)
    (docs : List TypeParamDoc) :
    (g.strip space).bindParams s context declared docs = g.bindParams s context declared docs := by
  simp only [bindParams, bindParam, funext (bindType_strip hs context),
    funext (bindAttribute_strip hs)]

theorem bindMethodParam_strip (context : String) (doc : ParamDoc) :
    (g.strip space).bindMethodParam s context doc = g.bindMethodParam s context doc := by
  simp only [bindMethodParam, bindType_strip hs]

end Binding

theorem keepsScope_entry (e : Entry) : g.KeepsScope space e.scope :=
  fun _ hv => absurd hv List.not_mem_nil

/-- **What is bound of an entry is bound the same in what is left.** -/
theorem bindGenerics_strip {e : Entry} {d : TypeDecl}
    (hd : ∀ m ∈ d.methods, g.KeepsScope space (methodScope e m)) :
    (g.strip space).bindGenerics e d = g.bindGenerics e d := by
  rw [bindGenerics, bindGenerics, bindParams_strip (keepsScope_entry e)]
  refine congrArg _ (funext fun own => congrArg (· >>= _) (mapM_congr fun x hx => ?_))
  exact bindParams_strip (hd x.1 (List.of_mem_zip hx).1) _ _ _

theorem bindHead_strip (e : Entry) : (g.strip space).bindHead e = g.bindHead e := by
  have hdefault : (g.strip space).defaultBase? e = g.defaultBase? e := by
    simp only [defaultBase?, Option.map_bind]
    refine congrArg _ (funext fun name => ?_)
    simp [TypeDecl.strip, Function.comp_def]
  simp only [bindHead, bindType_strip (keepsScope_entry e), hdefault,
    funext (bindType_strip (keepsScope_entry e) e.context)]

theorem bindMethods_strip {e : Entry} {d : TypeDecl} {generics : Generics}
    (hd : ∀ m ∈ d.methods, g.KeepsScope space (methodScope e m)) :
    (g.strip space).bindMethods e d generics = g.bindMethods e d generics := by
  refine mapM_congr fun x hx => ?_
  have hs := hd x.1 (List.of_mem_zip hx).1
  simp only [bindMethod, bindType_strip hs, funext (bindMethodParam_strip hs _),
    funext (bindAttribute_strip hs)]

end Graph

/-! ## Loading what is left -/

namespace Entry

variable {e : Entry} {d : TypeDecl}

@[simp] theorem strip_name (e : Entry) : (e.strip space).name = e.name := by
  rw [strip]
  split <;> rfl

theorem strip_of_ne (h : e.name.space ≠ space) : e.strip space = e := if_neg h

/-- An entry that loses its methods keeps everything that heads and type parameters are made of. -/
theorem strip_of_eq (h : e.name.space = space) : e.strip space =
    { e with
      doc := { e.doc with methods := [], nested := TypeDoc.withoutMethodsList e.doc.nested } } := by
  obtain ⟨doc, name, usings⟩ := e
  cases doc
  exact if_pos h

/-- **An entry of what is left is declared as what is left of its type.** -/
theorem declare_strip (h : e.declare = .ok d) : (e.strip space).declare = .ok (d.strip space) := by
  have hname := name_of_declare h
  by_cases hspace : e.name.space = space
  · rw [strip_of_eq hspace, TypeDecl.strip_of_eq (hname ▸ hspace)]
    obtain ⟨methods, -, hd⟩ := bind_eq_ok_iff.mp h
    cases hd
    rfl
  · rw [strip_of_ne hspace, TypeDecl.strip_of_ne (hname ▸ hspace), h]

/-- The methods of an entry that keeps them have scopes of their own. -/
theorem keepsScope_of_declare {g : Graph} (hspace : e.name.space ≠ space) (h : e.declare = .ok d)
    (hfound : g.decl? e.name = some d) :
    ∀ m ∈ d.methods, g.KeepsScope space (Graph.methodScope e m) := by
  intro m hm v hv
  have hname := name_of_declare h
  obtain ⟨methods, hmethods, hd⟩ := bind_eq_ok_iff.mp h
  obtain rfl : methods = d.methods := congrArg TypeDecl.methods (Except.ok.inj hd)
  obtain ⟨⟨doc, position⟩, -, hdeclared⟩ := exists_of_mem_mapM hmethods hm
  obtain ⟨hid, hparams⟩ := declareMethod_eq_ok hdeclared
  obtain ⟨q, hq, rfl⟩ := List.mem_map.mp hv
  have howner : q.var.owner = .method (e.methodId position) :=
    hid ▸ owner_of_mem_declareParams (hparams ▸ hq)
  exact Graph.keeps_of_method howner hfound (hname ▸ hspace)

/-- **An entry of what is left is loaded as what is left of its type.** -/
theorem Loads.strip {outline : Graph} (h : e.Loads outline d)
    (hfound : ∀ declared, e.declare = .ok declared → outline.decl? e.name = some declared) :
    (e.strip space).Loads (outline.strip space) (d.strip space) := by
  obtain ⟨declared, generics, head, hdeclared, hgenerics, hhead, hbind⟩ := h
  have hname := name_of_declare hdeclared
  obtain ⟨methods, hmethods, hd⟩ := bind_eq_ok_iff.mp hbind
  have hname' : d.name = e.name := by
    cases hd
    exact hname
  by_cases hspace : e.name.space = space
  · obtain ⟨own, hown, hgenerics⟩ := bind_eq_ok_iff.mp hgenerics
    obtain ⟨ofMethods, -, hgenerics⟩ := bind_eq_ok_iff.mp hgenerics
    cases hgenerics
    refine ⟨declared.strip space, ⟨own, []⟩, head, declare_strip hdeclared, ?_, ?_, ?_⟩
    all_goals rw [strip_of_eq hspace]
    · rw [TypeDecl.strip_of_eq (hname ▸ hspace)]
      refine bind_eq_ok_iff.mpr ⟨own, ?_, rfl⟩
      rw [Graph.bindParams_strip (Graph.keepsScope_entry _)]
      exact hown
    · rw [Graph.bindHead_strip]
      exact hhead
    · rw [TypeDecl.strip_of_eq (hname ▸ hspace), TypeDecl.strip_of_eq (hname' ▸ hspace)]
      cases hd
      rfl
  · have hkeeps := keepsScope_of_declare hspace hdeclared (hfound declared hdeclared)
    rw [strip_of_ne hspace, TypeDecl.strip_of_ne (hname' ▸ hspace)]
    refine ⟨declared, generics, head, hdeclared, ?_, ?_, ?_⟩
    · rw [Graph.bindGenerics_strip hkeeps, hgenerics]
    · rw [Graph.bindHead_strip, hhead]
    · rw [Graph.bindDecl, Graph.bindMethods_strip hkeeps, hmethods]
      exact hd

end Entry

/-! ### The order of heads

Heads are bound twice, once with containers last to find the first fault, and once with containers
first; whoever is bound first was bound then. -/

mutual

theorem TypeDoc.mem_entries_of_up (usings : List String) (outer : Option DeclName) :
    (doc : TypeDoc) → ∀ e ∈ doc.entriesUp usings outer, e ∈ doc.entries usings outer
  | .mk kind name space typeParams base? interfaces isPartial isStatic methods members nested
      location, e, he => by
    rw [TypeDoc.entriesUp] at he
    obtain he | he := List.mem_append.mp he
    · exact TypeDoc.mem_entries.mpr (.inr (TypeDoc.mem_entriesList_of_up usings _ nested e he))
    · exact TypeDoc.mem_entries.mpr (.inl (List.mem_singleton.mp he))

theorem TypeDoc.mem_entriesList_of_up (usings : List String) (outer : Option DeclName) :
    (docs : List TypeDoc) → ∀ e ∈ TypeDoc.entriesUpList usings outer docs,
      e ∈ TypeDoc.entriesList usings outer docs
  | [], e, he => by cases he
  | doc :: docs, e, he => by
    rw [TypeDoc.entriesUpList] at he
    rw [TypeDoc.entriesList]
    refine List.mem_append.mpr ((List.mem_append.mp he).imp ?_ ?_)
    · exact TypeDoc.mem_entries_of_up usings outer doc e
    · exact TypeDoc.mem_entriesList_of_up usings outer docs e

end

/-- **Loading is declaring and loading every entry**, over the outline of all declarations. -/
theorem load_of_loads {docs : List GraphDocument} {declared decls : List TypeDecl}
    (hdeclared : Entry.declareAll [] (loadedEntries docs) = .ok declared)
    (hloads : List.Forall₂ (fun e d => e.Loads { decls := declared } d) (loadedEntries docs)
      decls) : load docs = .ok { decls } := by
  refine load_eq_ok_iff.mpr ⟨declared, decls, hdeclared, fun e he => ?_, hloads, rfl⟩
  obtain ⟨doc, hdoc, he⟩ := List.mem_flatMap.mp he
  have hmem : e ∈ loadedEntries docs :=
    List.mem_flatMap.mpr ⟨doc, hdoc, TypeDoc.mem_entriesList_of_up _ _ _ e he⟩
  obtain ⟨i, hi, rfl⟩ := List.mem_iff_getElem.mp hmem
  obtain ⟨_, _, head, -, -, hhead, -⟩ := hloads.get hi (hloads.length_eq ▸ hi)
  rw [List.get_eq_getElem] at hhead
  rw [discard, hhead]
  rfl

/-- **The outline of all declarations finds each by its name.** -/
theorem Entry.found_of_declareAll {es : List Entry} {declared : List TypeDecl}
    (h : declareAll [] es = .ok declared) {e : Entry} (he : e ∈ es) {d : TypeDecl}
    (hd : e.declare = .ok d) : Graph.decl? { decls := declared } e.name = some d := by
  obtain ⟨⟨hnodup, -⟩, hall⟩ := declareAll_eq_ok_iff.mp h
  have hnames : declared.map (·.metadata) = es.map (·.name.metadata) := by
    have hmap := congrArg (List.map DeclName.metadata)
      (map_name_of_forall₂ (fun _ _ => name_of_declare) hall)
    rwa [List.map_map, List.map_map] at hmap
  obtain ⟨i, hi, rfl⟩ := List.mem_iff_getElem.mp he
  have hmem : d ∈ declared := by
    have hplace := hall.get hi (hall.length_eq ▸ hi)
    rw [List.get_eq_getElem, List.get_eq_getElem, hd] at hplace
    rw [Except.ok.inj hplace]
    exact List.getElem_mem _
  refine (Graph.find?_eq_some_iff (hnames ▸ hnodup)).mpr ⟨hmem, ?_⟩
  rw [TypeDecl.metadata, name_of_declare hd]

/-- **Stripped documents load into the stripped graph.** -/
theorem load_strip {docs : List GraphDocument} {g : Graph} (h : load docs = .ok g) :
    load (docs.map (·.strip space)) = .ok (g.strip space) := by
  obtain ⟨declared, decls, hdeclared, -, hloads, rfl⟩ := load_eq_ok_iff.mp h
  obtain ⟨⟨hnodup, -⟩, hall⟩ := Entry.declareAll_eq_ok_iff.mp hdeclared
  have hentries : loadedEntries (docs.map (·.strip space)) =
      (loadedEntries docs).map (Entry.strip space) := loadedEntries_strip docs
  refine @load_of_loads _ (declared.map (TypeDecl.strip space)) _ ?_ ?_
  · refine Entry.declareAll_eq_ok_iff.mpr ⟨⟨?_, fun _ _ => List.not_mem_nil⟩, ?_⟩
    · rw [hentries, List.map_map]
      simpa [Function.comp_def] using hnodup
    · rw [hentries, List.forall₂_map_left_iff, List.forall₂_map_right_iff]
      exact hall.imp fun _ _ => Entry.declare_strip
  · rw [hentries, List.forall₂_map_left_iff, List.forall₂_map_right_iff]
    obtain ⟨hlength, hall⟩ := List.forall₂_iff_zip.mp hloads
    refine List.forall₂_iff_zip.mpr ⟨hlength, fun hmem => (hall hmem).strip fun _ => ?_⟩
    exact Entry.found_of_declareAll hdeclared (List.of_mem_zip hmem).1

end LateBridge
