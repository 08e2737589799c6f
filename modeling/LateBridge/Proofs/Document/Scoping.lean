import LateBridge.Proofs.Document.Loading
import LateBridge.Proofs.Document.Lookup
import LateBridge.Proofs.Syntax.TypeReferences

/-!
# Proofs/Document/Scoping — loaded types are well formed

    written reference ──resolve in a scope──▸ type over the scope's variables

A type is well formed over some variables if every named type in it is declared and takes all its
arguments, and no other variable occurs.  What a reference denotes is well formed over the variables
of its scope (`Graph.wellFormed_of_resolve`), and loading stores nothing but such types
(`stored_types_wellFormed`).
-/

namespace LateBridge

/-! ## Well-formed types -/

/-- **A well-formed type**: named types are declared and have one argument for each type parameter
along their containing chain, variables are in scope, arrays have a dimension, and nothing is left
undetermined. -/
inductive Ty.WellFormed (names : List DeclName) (vars : List TypeVar) : Ty → Prop where
  | named {n : DeclName} {args : List Ty} (declared : n ∈ names)
      (arity : args.length = n.totalArity) (inside : ∀ a ∈ args, WellFormed names vars a) :
      WellFormed names vars (.named n args)
  | array {element : Ty} {rank : Nat} (h : WellFormed names vars element) (pos : 1 ≤ rank)
      (le : rank ≤ TypeReader.maxRank) : WellFormed names vars (.array element rank)
  | var {v : TypeVar} (inScope : v ∈ vars) : WellFormed names vars (.var v)
  | pointer {target : Ty} (h : WellFormed names vars target) : WellFormed names vars (.pointer target)
  | fnptr {params : List Ty} {ret : Ty} (hparams : ∀ p ∈ params, WellFormed names vars p)
      (hret : WellFormed names vars ret) : WellFormed names vars (.fnptr params ret)
  | void : WellFormed names vars .void
  | dynamic : WellFormed names vars .dynamic

namespace Ty

theorem wellFormed_plain {names : List DeclName} {vars : List TypeVar} {n : DeclName}
    (declared : n ∈ names) (h : n.totalArity = 0) : (plain n).WellFormed names vars :=
  .named declared (by rw [h, List.length_nil]) (by simp)

/-- A well-formed type mentions only what is in scope. -/
theorem WellFormed.mem_vars {names : List DeclName} {vars : List TypeVar} {t : Ty}
    (h : t.WellFormed names vars) {v : TypeVar} (hv : v ∈ t.vars) : v ∈ vars := by
  induction h with
  | named _ _ _ ih =>
    obtain ⟨a, ha, hva⟩ := mem_vars_named.mp hv
    exact ih a ha hva
  | array _ _ _ ih => exact ih (mem_vars_array.mp hv)
  | var inScope => exact mem_vars_var.mp hv ▸ inScope
  | pointer _ ih => exact ih (mem_vars_pointer.mp hv)
  | fnptr _ _ hparams hret =>
    obtain ⟨p, hp, hvp⟩ | hvr := mem_vars_fnptr.mp hv
    · exact hparams p hp hvp
    · exact hret hvr
  | void | dynamic => cases hv

end Ty

/-! ## Types that are looked for by their metadata names -/

namespace DeclName

/-- A metadata name without marks is that of a type without parameters. -/
theorem totalArity_of_unmarked {n : DeclName} (h : Text.Unmarked n.metadata.toList) :
    n.totalArity = 0 := by
  cases n with
  | top space name params =>
    have htext : (top space name params).metadata =
        stepText (spacePrefix space ++ name, params.length) := rfl
    rw [htext, toList_stepText] at h
    by_contra hne
    have hlength : params.length ≠ 0 := hne
    rw [if_neg hlength] at h
    exact h.2 (List.mem_append_right _ List.mem_cons_self)
  | nested outer name params =>
    refine absurd ?_ h.1
    simp [metadata]

/-- The wrapper of value types takes one argument. -/
theorem totalArity_nullable {n : DeclName} (h : n.wellNamed = true)
    (hn : n.metadata = "System.Nullable`1") : n.totalArity = 1 := by
  have hsteps : n.steps = (top (some "System") "Nullable" ["T"]).steps :=
    steps_eq_of_metadata h (by decide) hn
  rw [← sum_steps, hsteps]
  rfl

end DeclName

theorem Special.unmarked_metadata (s : Special) : Text.Unmarked s.metadata.toList := by
  cases s <;> simp [Text.Unmarked, metadata]

namespace Graph

variable {g : Graph} {s : Scope} {vars : List TypeVar}

theorem mem_names_of_find? {name : String} {d : TypeDecl} (h : g.find? name = some d) :
    d.name ∈ g.names :=
  List.mem_map_of_mem (mem_decls_of_find? h)

theorem wellFormed_of_find? {name : String} {d : TypeDecl} (h : g.find? name = some d)
    (hname : Text.Unmarked name.toList) : (Ty.plain d.name).WellFormed g.names vars := by
  refine Ty.wellFormed_plain (mem_names_of_find? h) (DeclName.totalArity_of_unmarked ?_)
  rwa [metadata_of_find? h]

theorem wellFormed_of_special? {special : Special} {t : Ty} (h : g.special? special = some t) :
    t.WellFormed g.names vars := by
  obtain ⟨d, hd, rfl⟩ := Option.map_eq_some_iff.mp h
  exact wellFormed_of_find? hd special.unmarked_metadata

theorem wellFormed_of_defaultBase? {e : Entry} {b : Ty} (h : g.defaultBase? e = some b) :
    b.WellFormed g.names vars := by
  obtain ⟨d, hd, rfl⟩ := Option.map_eq_some_iff.mp h
  obtain ⟨root, hroot, hd⟩ := Option.bind_eq_some_iff.mp hd
  refine wellFormed_of_find? hd ?_
  have hroots : root ∈ ["System.Object", "System.ValueType", "System.Enum",
      "System.MulticastDelegate"] := by
    split at hroot
    · cases hroot
    · split at hroot <;> cases hroot
      simp
    all_goals
      cases hroot
      simp
  have hplain : ∀ root ∈ ["System.Object", "System.ValueType", "System.Enum",
      "System.MulticastDelegate"], Text.Unmarked root.toList := by
    simp [Text.Unmarked]
  exact hplain root hroots

theorem wellFormed_nullableOf (hg : DeclName.Coherent g.names) {t : Ty}
    (h : t.WellFormed g.names vars) : (g.nullableOf t).WellFormed g.names vars := by
  rw [nullableOf]
  split
  · split
    · rename_i d hd
      have hname := mem_names_of_find? hd
      have harity := DeclName.totalArity_nullable (hg.wellNamed _ hname) (metadata_of_find? hd)
      exact .named hname (by rw [harity, List.length_singleton]) (List.forall_mem_singleton.mpr h)
    · exact h
  · exact h

/-! ## References -/

theorem WordType.wellFormed {t : Ty} (h : g.WordType s t) :
    t.WellFormed g.names (s.type.vars ++ s.methodVars) := by
  cases h with
  | void => exact .void
  | dynamic => exact .dynamic
  | special hspecial => exact wellFormed_of_special? hspecial
  | var hv =>
    obtain hmethod | htype := List.mem_append.mp (List.mem_of_find?_eq_some hv)
    · exact .var (List.mem_append_right _ hmethod)
    · exact .var (List.mem_append_left _ (Scope.mem_typeVars.mp htype))

/-- The arguments that are filled in complete those that are written. -/
theorem wellFormed_completeArgs {names : List DeclName} {n : DeclName} {args : List Ty}
    {missing : Nat} (declared : n ∈ names) (harity : n.totalArity = missing + args.length)
    (hmissing : ∀ v ∈ n.vars.take missing, v ∈ vars)
    (hargs : ∀ a ∈ args, a.WellFormed names vars) :
    (Ty.named n (completeArgs n args)).WellFormed names vars := by
  have hsub : n.totalArity - args.length = missing := by omega
  refine .named declared ?_ ?_ <;> rw [completeArgs, hsub]
  · rw [List.length_append, List.length_map, List.length_take, n.length_vars]
    omega
  · refine List.forall_mem_append.mpr ⟨List.forall_mem_map.mpr fun v hv => ?_, hargs⟩
    exact .var (hmissing v hv)

/-- A found type with its arguments is well formed if these are. -/
theorem wellFormed_of_lookup? (hg : DeclName.Coherent g.names) (hs : s.type ∈ g.names)
    {rooted : Bool} {segments : List (Segment TypeSyntax)} (nonempty : segments ≠ [])
    (names : ∀ x ∈ segments, Text.isName x.name = true) {d : TypeDecl} {args : List Ty}
    (hd : g.lookup? s rooted segments = some d) (hcount : argCount segments = args.length)
    (hargs : ∀ a ∈ args, a.WellFormed g.names (s.type.vars ++ s.methodVars)) :
    (Ty.named d.name (completeArgs d.name args)).WellFormed g.names
      (s.type.vars ++ s.methodVars) := by
  obtain ⟨hname, missing, harity, hmissing⟩ := missing_of_lookup? hg hs names nonempty hd
  exact wellFormed_completeArgs hname (hcount ▸ harity)
    (fun v hv => List.mem_append_left _ (hmissing v hv)) hargs

/-- **What a reference denotes is well formed over the variables of its scope.** -/
theorem wellFormed_of_resolve (hg : DeclName.Coherent g.names) (hs : s.type ∈ g.names)
    {depth : Nat} {written : TypeSyntax} (hw : written.Writable depth) {t : Ty}
    (h : g.resolve s written = .ok t) : t.WellFormed g.names (s.type.vars ++ s.methodVars) := by
  induction hw generalizing t with
  | @name depth rooted segments nonempty names _ ih =>
    cases resolved_of_resolve h with
    | word hword => exact hword.wellFormed
    | named found hall =>
      refine wellFormed_of_lookup? hg hs nonempty names found hall.length_eq fun a ha => ?_
      obtain ⟨own, hown, hresolve⟩ := exists_of_mem_forall₂ hall ha
      obtain ⟨x, hx, hmem⟩ := List.mem_flatMap.mp hown
      exact ih x hx own hmem hresolve
  | fnptr _ _ hparams hret =>
    cases resolved_of_resolve h with
    | fnptr hps hr =>
      refine .fnptr (fun p hp => ?_) (hret hr)
      obtain ⟨own, hown, hresolve⟩ := exists_of_mem_forall₂ hps hp
      exact hparams own hown hresolve
  | @array depth element rank _ pos le ih =>
    cases resolved_of_resolve h with
    | array helement =>
      rw [Nat.max_eq_left pos]
      exact .array (ih helement) pos le
  | pointer _ ih =>
    cases resolved_of_resolve h with
    | pointer htarget => exact .pointer (ih htarget)
  | nullable _ ih =>
    cases resolved_of_resolve h with
    | nullable hinner => exact wellFormed_nullableOf hg (ih hinner)

theorem wellFormed_of_bindType (hg : DeclName.Coherent g.names) (hs : s.type ∈ g.names)
    {context text : String} {t : Ty} (h : g.bindType s context text = .ok t) :
    t.WellFormed g.names (s.type.vars ++ s.methodVars) := by
  obtain ⟨written, hread, hresolve⟩ := exists_of_bindType h
  exact wellFormed_of_resolve hg hs (TypeSyntax.writable_of_read hread) hresolve

end Graph

/-! ## The names of a loaded graph -/

/-- **An entry made of names**: its type's and its imports'. -/
def Entry.wellNamed (e : Entry) : Bool := e.name.wellNamed && e.usings.all Text.isDotted

theorem Entry.name_wellNamed {e : Entry} (h : e.wellNamed = true) : e.name.wellNamed = true :=
  (Bool.and_eq_true_iff.mp h).1

theorem Entry.name_of_declare {e : Entry} {d : TypeDecl} (h : e.declare = .ok d) :
    d.name = e.name := by
  obtain ⟨methods, -, h⟩ := bind_eq_ok_iff.mp h
  cases h
  rfl

theorem map_name_of_forall₂ {R : Entry → TypeDecl → Prop} (hR : ∀ e d, R e d → d.name = e.name)
    {es : List Entry} {ds : List TypeDecl} (h : List.Forall₂ R es ds) :
    ds.map (·.name) = es.map (·.name) := by
  induction h with
  | nil => rfl
  | cons hd _ ih => rw [List.map_cons, List.map_cons, hR _ _ hd, ih]

/-- Each metadata name is declared once. -/
theorem Entry.nodup_of_declareAll {taken : List String} {es : List Entry} {ds : List TypeDecl}
    (h : declareAll taken es = .ok ds) :
    (es.map (·.name.metadata)).Nodup ∧ ∀ e ∈ es, e.name.metadata ∉ taken := by
  induction es generalizing taken ds with
  | nil => simp
  | cons e es ih =>
    rw [declareAll] at h
    split at h
    · cases h
    rename_i htaken
    obtain ⟨d, -, h⟩ := bind_eq_ok_iff.mp h
    obtain ⟨ds', hds, -⟩ := bind_eq_ok_iff.mp h
    obtain ⟨hnodup, hfresh⟩ := ih hds
    have hself : e.name.metadata ∉ taken := by simpa using htaken
    refine ⟨?_, List.forall_mem_cons.mpr ⟨hself, fun e' he' hmem => ?_⟩⟩
    · rw [List.map_cons, List.nodup_cons]
      refine ⟨fun hmem => ?_, hnodup⟩
      obtain ⟨e', he', hsame⟩ := List.mem_map.mp hmem
      exact hfresh e' he' (hsame ▸ List.mem_cons_self)
    · exact hfresh e' he' (List.mem_cons_of_mem _ hmem)

/-- A type stands in its container's chain, after it. -/
theorem TypeDoc.mem_chain_nameIn {outer : Option DeclName} {doc : TypeDoc} {n : DeclName}
    (h : n ∈ (doc.nameIn outer).chain) :
    n = doc.nameIn outer ∨ ∃ around, outer = some around ∧ n ∈ around.chain := by
  cases outer with
  | none => exact .inl (List.mem_singleton.mp h)
  | some around =>
    obtain h | h := List.mem_append.mp h
    · exact .inr ⟨around, rfl, h⟩
    · exact .inl (List.mem_singleton.mp h)

theorem TypeDoc.mem_entries {usings : List String} {outer : Option DeclName} {doc : TypeDoc}
    {e : Entry} : e ∈ doc.entries usings outer ↔ e = ⟨doc, doc.nameIn outer, usings⟩ ∨
      e ∈ TypeDoc.entriesList usings (some (doc.nameIn outer)) doc.nested := by
  obtain ⟨⟩ := doc
  rw [TypeDoc.entries, List.mem_cons]

theorem TypeDoc.around_self (usings : List String) {outer : Option DeclName} {doc : TypeDoc}
    {n : DeclName} (h : n ∈ (doc.nameIn outer).chain) :
    (∃ e ∈ doc.entries usings outer, e.name = n) ∨ ∃ around, outer = some around ∧
      n ∈ around.chain := by
  refine (TypeDoc.mem_chain_nameIn h).imp_left fun hname => ?_
  exact ⟨⟨doc, doc.nameIn outer, usings⟩, TypeDoc.mem_entries.mpr (.inl rfl), hname.symm⟩

mutual

/-- **The types around an entry** are entries too, or stand around the whole document. -/
theorem TypeDoc.around_entries (usings : List String) (outer : Option DeclName) :
    (doc : TypeDoc) → ∀ e ∈ doc.entries usings outer, ∀ n ∈ e.name.chain,
      (∃ e' ∈ doc.entries usings outer, e'.name = n) ∨ ∃ around, outer = some around ∧
        n ∈ around.chain
  | .mk kind name space typeParams base? interfaces isPartial isStatic methods members nested
      location, e, he, n, hn => by
    obtain rfl | hnested := TypeDoc.mem_entries.mp he
    · exact TypeDoc.around_self usings hn
    · obtain ⟨e', he', hname⟩ | ⟨around, houter, hmem⟩ :=
        TypeDoc.around_entriesList usings _ nested e hnested n hn
      · exact .inl ⟨e', TypeDoc.mem_entries.mpr (.inr he'), hname⟩
      · obtain rfl := Option.some.inj houter
        exact TypeDoc.around_self usings hmem

theorem TypeDoc.around_entriesList (usings : List String) (outer : Option DeclName) :
    (docs : List TypeDoc) → ∀ e ∈ TypeDoc.entriesList usings outer docs, ∀ n ∈ e.name.chain,
      (∃ e' ∈ TypeDoc.entriesList usings outer docs, e'.name = n) ∨ ∃ around, outer = some around ∧
        n ∈ around.chain
  | [], e, he, _, _ => by cases he
  | doc :: docs, e, he, n, hn => by
    rw [TypeDoc.entriesList] at he ⊢
    obtain he | he := List.mem_append.mp he
    · refine (TypeDoc.around_entries usings outer doc e he n hn).imp_left ?_
      exact fun ⟨e', he', hname⟩ => ⟨e', List.mem_append_left _ he', hname⟩
    · refine (TypeDoc.around_entriesList usings outer docs e he n hn).imp_left ?_
      exact fun ⟨e', he', hname⟩ => ⟨e', List.mem_append_right _ he', hname⟩

end

theorem exists_entry_around {docs : List GraphDocument} {e : Entry} (he : e ∈ loadedEntries docs)
    {n : DeclName} (hn : n ∈ e.name.chain) : ∃ e' ∈ loadedEntries docs, e'.name = n := by
  obtain ⟨doc, hdoc, he⟩ := List.mem_flatMap.mp he
  obtain ⟨e', he', hname⟩ | ⟨around, houter, -⟩ :=
    TypeDoc.around_entriesList doc.usings none doc.types e he n hn
  · exact ⟨e', List.mem_flatMap.mpr ⟨doc, hdoc, he'⟩, hname⟩
  · cases houter

/-- The core library is made of names. -/
theorem CoreLibrary.wellNamed_entries : ∀ e ∈ document.entries, e.wellNamed = true := by
  decide +kernel

/-- What holds of the entries of all documents and of the core library holds of all loaded ones. -/
theorem forall_mem_loadedEntries {P : Entry → Prop} {docs : List GraphDocument}
    (hcore : ∀ e ∈ CoreLibrary.document.entries, P e)
    (h : ∀ doc ∈ docs, ∀ e ∈ doc.entries, P e) : ∀ e ∈ loadedEntries docs, P e := by
  intro e he
  obtain ⟨doc, hdoc, he⟩ := List.mem_flatMap.mp he
  rw [withCoreLibrary] at hdoc
  split at hdoc
  · obtain rfl | hdoc := List.mem_cons.mp hdoc
    · exact hcore e he
    · exact h doc hdoc e he
  · exact h doc hdoc e he

/-- **The names of loaded types fit together.** -/
theorem coherent_of_declareAll {docs : List GraphDocument} {declared : List TypeDecl}
    (h : Entry.declareAll [] (loadedEntries docs) = .ok declared)
    (hnames : ∀ doc ∈ docs, ∀ e ∈ doc.entries, e.name.wellNamed = true) :
    DeclName.Coherent ((loadedEntries docs).map (·.name)) where
  wellNamed := List.forall_mem_map.mpr (forall_mem_loadedEntries
    (fun e he => Entry.name_wellNamed (CoreLibrary.wellNamed_entries e he)) hnames)
  distinct := by
    intro m hm n hn hsame
    obtain ⟨d, hd, rfl⟩ := List.mem_map.mp hm
    obtain ⟨e, he, rfl⟩ := List.mem_map.mp hn
    rw [List.inj_on_of_nodup_map (Entry.nodup_of_declareAll h).1 hd he hsame]
  around := by
    intro n hn outer houter
    obtain ⟨e, he, rfl⟩ := List.mem_map.mp hn
    obtain ⟨e', he', hname⟩ := exists_entry_around he houter
    exact List.mem_map.mpr ⟨e', he', hname⟩

/-! ## Stored types -/

/-- The types in the arguments of an attribute. -/
def Attribute.types (a : Attribute) : List Ty :=
  (a.args ++ a.named.map (·.2)).filterMap fun
    | .type t => some t
    | _ => none

/-- The types stored with a type parameter. -/
def TypeParam.storedTypes (p : TypeParam) : List Ty :=
  p.types ++ p.attributes.flatMap Attribute.types

/-- The types stored with a method. -/
def Method.storedTypes (m : Method) : List Ty :=
  m.typeParams.flatMap TypeParam.storedTypes ++ m.params.map (·.type) ++ [m.returns] ++
    m.attributes.flatMap Attribute.types

/-- The types stored with a declared type, its methods apart. -/
def TypeDecl.storedTypes (d : TypeDecl) : List Ty :=
  d.base?.toList ++ d.interfaces ++ d.typeParams.flatMap TypeParam.storedTypes

namespace Graph

variable {g : Graph} {s : Scope}

/-- Only a type reference makes an argument a type. -/
theorem exists_of_bindArgument {arg : ArgumentDoc} {t : Ty} (h : g.bindArgument s arg = .type t) :
    ∃ text, g.bindType s "" text = .ok t := by
  unfold bindArgument at h
  split at h
  · rename_i text
    split at h
    · rename_i hbind
      cases h
      exact ⟨text, hbind⟩
    · cases h
  · cases h
  · cases h
  · split at h <;> cases h

theorem mem_types {a : Attribute} {t : Ty} (h : t ∈ a.types) :
    .type t ∈ a.args ++ a.named.map (·.2) := by
  obtain ⟨value, hvalue, htype⟩ := List.mem_filterMap.mp h
  split at htype
  · cases htype
    exact hvalue
  · cases htype

theorem wellFormed_of_bindAttribute (hg : DeclName.Coherent g.names) (hs : s.type ∈ g.names)
    {doc : AttributeDoc} {t : Ty} (h : t ∈ (g.bindAttribute s doc).types) :
    t.WellFormed g.names (s.type.vars ++ s.methodVars) := by
  have hbound : ∃ arg, g.bindArgument s arg = .type t := by
    obtain hmem | hmem := List.mem_append.mp (mem_types h)
    · obtain ⟨arg, -, harg⟩ := List.mem_map.mp hmem
      exact ⟨arg, harg⟩
    · obtain ⟨x, hx, hxt⟩ := List.mem_map.mp hmem
      obtain ⟨named, -, rfl⟩ := List.mem_map.mp hx
      exact ⟨named.value, hxt⟩
  obtain ⟨arg, harg⟩ := hbound
  obtain ⟨text, hbind⟩ := exists_of_bindArgument harg
  exact wellFormed_of_bindType hg hs hbind

theorem wellFormed_of_bindAttributes (hg : DeclName.Coherent g.names) (hs : s.type ∈ g.names)
    {docs : List AttributeDoc} {t : Ty}
    (h : t ∈ (docs.map (g.bindAttribute s)).flatMap Attribute.types) :
    t.WellFormed g.names (s.type.vars ++ s.methodVars) := by
  obtain ⟨a, ha, ht⟩ := List.mem_flatMap.mp h
  obtain ⟨doc, -, rfl⟩ := List.mem_map.mp ha
  exact wellFormed_of_bindAttribute hg hs ht

theorem wellFormed_of_bindParams (hg : DeclName.Coherent g.names) (hs : s.type ∈ g.names)
    {context : String} {declared bound : List TypeParam} {docs : List TypeParamDoc}
    (h : g.bindParams s context declared docs = .ok bound) {t : Ty}
    (ht : t ∈ bound.flatMap TypeParam.storedTypes) :
    t.WellFormed g.names (s.type.vars ++ s.methodVars) := by
  obtain ⟨p, hp, ht⟩ := List.mem_flatMap.mp ht
  obtain ⟨⟨q, doc⟩, -, hbind⟩ := exists_of_mem_mapM h hp
  obtain ⟨types, htypes, hbind⟩ := bind_eq_ok_iff.mp hbind
  cases hbind
  obtain ht | ht := List.mem_append.mp ht
  · obtain ⟨text, -, hbind⟩ := exists_of_mem_mapM htypes ht
    exact wellFormed_of_bindType hg hs hbind
  · exact wellFormed_of_bindAttributes hg hs ht

theorem bindType_of_bindMethodParam {context : String} {doc : ParamDoc} {p : Param}
    (h : g.bindMethodParam s context doc = .ok p) :
    g.bindType s context doc.type = .ok p.type := by
  obtain ⟨type, htype, h⟩ := bind_eq_ok_iff.mp h
  dsimp only at h
  split at h
  · cases h
    exact htype
  · split at h
    · cases h
      exact htype
    · cases h

/-- A method's types are bound in the scope of its own parameters. -/
theorem LoadsMethod.wellFormed (hg : DeclName.Coherent g.names) {e : Entry}
    (he : e.name ∈ g.names) {doc : MethodDoc} {m : Method} (h : g.LoadsMethod e doc m) {t : Ty}
    (ht : t ∈ m.storedTypes) : t.WellFormed g.names (e.name.vars ++ m.vars) := by
  obtain ⟨position, declared, typeParams, hdeclared, hparams, hbind⟩ := h
  obtain ⟨params, hps, hbind⟩ := bind_eq_ok_iff.mp hbind
  obtain ⟨returns, hreturns, hbind⟩ := bind_eq_ok_iff.mp hbind
  cases hbind
  have hs : (methodScope e declared).type ∈ g.names := he
  have hlength : declared.typeParams.length = doc.typeParams.length := by
    rw [(Entry.declareMethod_eq_ok hdeclared).2, Entry.length_declareParams]
  have hvars : typeParams.map (·.var) = declared.vars :=
    map_var_core (core_bindParams hparams hlength)
  suffices hscope : t.WellFormed g.names (e.name.vars ++ declared.vars) by
    rwa [← hvars] at hscope
  obtain ht | ht := List.mem_append.mp ht
  · obtain ht | ht := List.mem_append.mp ht
    · obtain ht | ht := List.mem_append.mp ht
      · exact wellFormed_of_bindParams hg hs hparams ht
      · obtain ⟨p, hp, rfl⟩ := List.mem_map.mp ht
        obtain ⟨paramDoc, -, hparam⟩ := exists_of_mem_mapM hps hp
        exact wellFormed_of_bindType hg hs (bindType_of_bindMethodParam hparam)
    · obtain rfl := List.mem_singleton.mp ht
      exact wellFormed_of_bindType hg hs hreturns
  · exact wellFormed_of_bindAttributes hg hs ht

theorem wellFormed_of_bindHead (hg : DeclName.Coherent g.names) {e : Entry}
    (he : e.name ∈ g.names) {head : Head} (h : g.bindHead e = .ok head) {t : Ty}
    (ht : t ∈ head.base?.toList ++ head.interfaces) :
    t.WellFormed g.names (e.name.vars ++ []) :=
  forall_mem_head (fun _ _ => wellFormed_of_bindType hg he)
    (fun _ => wellFormed_of_defaultBase?) h t ht

end Graph

/-- A declared type's own types are bound in its own scope. -/
theorem Entry.Loads.wellFormed {outline : Graph} (hg : DeclName.Coherent outline.names) {e : Entry}
    (he : e.name ∈ outline.names) {d : TypeDecl} (h : e.Loads outline d) {t : Ty}
    (ht : t ∈ d.storedTypes) : t.WellFormed outline.names d.name.vars := by
  obtain ⟨declared, generics, head, hdeclared, hgenerics, hhead, hbind⟩ := h
  obtain ⟨methods, -, hbind⟩ := bind_eq_ok_iff.mp hbind
  have hname := Entry.name_of_declare hdeclared
  cases hbind
  suffices hscope : t.WellFormed outline.names (e.name.vars ++ []) by
    rw [hname]
    rwa [List.append_nil] at hscope
  obtain ht | ht := List.mem_append.mp ht
  · exact Graph.wellFormed_of_bindHead hg he hhead ht
  · obtain ⟨own, hown, hgenerics⟩ := bind_eq_ok_iff.mp hgenerics
    obtain ⟨ofMethods, -, hgenerics⟩ := bind_eq_ok_iff.mp hgenerics
    cases hgenerics
    exact Graph.wellFormed_of_bindParams hg he hown ht

/-- The types of its methods are bound in their scopes. -/
theorem Entry.Loads.wellFormed_method {outline : Graph} (hg : DeclName.Coherent outline.names)
    {e : Entry} (he : e.name ∈ outline.names) {d : TypeDecl} (h : e.Loads outline d)
    {m : Method} (hm : m ∈ d.methods) {t : Ty} (ht : t ∈ m.storedTypes) :
    t.WellFormed outline.names (d.name.vars ++ m.vars) := by
  obtain ⟨declared, generics, head, hdeclared, hgenerics, -, hbind⟩ := h
  obtain ⟨methods, hmethods, hbind⟩ := bind_eq_ok_iff.mp hbind
  have hname := Entry.name_of_declare hdeclared
  cases hbind
  rw [hname]
  obtain ⟨doc, -, hloads⟩ := Graph.exists_loadsMethod hdeclared hgenerics hmethods m hm
  exact hloads.wellFormed hg he ht

theorem names_of_load {docs : List GraphDocument} {g : Graph} (h : load docs = .ok g) :
    g.names = (loadedEntries docs).map (·.name) := by
  obtain ⟨declared, -, hall⟩ := forall₂_loads h
  exact map_name_of_forall₂ (fun _ _ hloads => hloads.binds.name) hall

theorem coherent_of_load {docs : List GraphDocument} {g : Graph} (h : load docs = .ok g)
    (hnames : ∀ doc ∈ docs, ∀ e ∈ doc.entries, e.name.wellNamed = true) :
    DeclName.Coherent g.names := by
  obtain ⟨declared, hdeclared, -⟩ := forall₂_loads h
  exact names_of_load h ▸ coherent_of_declareAll hdeclared hnames

/-- **Every declared type is loaded from an entry** of the program. -/
theorem exists_outline {docs : List GraphDocument} {g : Graph} (h : load docs = .ok g)
    {d : TypeDecl} (hd : d ∈ g.decls) :
    ∃ (outline : Graph) (e : Entry), outline.names = g.names ∧ e.name ∈ outline.names ∧
      e.Loads outline d := by
  obtain ⟨declared, hdeclared, hall⟩ := forall₂_loads h
  obtain ⟨e, he, hloads⟩ := exists_of_mem_forall₂ hall hd
  have houtline : ({ decls := declared } : Graph).names = g.names :=
    (map_name_of_forall₂ (fun _ _ => Entry.name_of_declare)
      (Entry.forall₂_declareAll hdeclared)).trans (names_of_load h).symm
  refine ⟨_, e, houtline, ?_, hloads⟩
  rw [houtline, names_of_load h]
  exact List.mem_map_of_mem he

theorem exists_loads_of_wellNamed {docs : List GraphDocument} {g : Graph}
    (hnames : ∀ doc ∈ docs, ∀ e ∈ doc.entries, e.name.wellNamed = true) (h : load docs = .ok g)
    {d : TypeDecl} (hd : d ∈ g.decls) :
    ∃ (outline : Graph) (e : Entry), outline.names = g.names ∧ DeclName.Coherent outline.names ∧
      e.name ∈ outline.names ∧ e.Loads outline d := by
  obtain ⟨outline, e, houtline, he, hloads⟩ := exists_outline h hd
  exact ⟨outline, e, houtline, houtline ▸ coherent_of_load h hnames, he, hloads⟩

theorem exists_loads {docs : List GraphDocument} {g : Graph}
    (hnames : ∀ doc ∈ docs, ∀ e ∈ doc.entries, e.wellNamed = true) (h : load docs = .ok g)
    {d : TypeDecl} (hd : d ∈ g.decls) :
    ∃ (outline : Graph) (e : Entry), outline.names = g.names ∧ DeclName.Coherent outline.names ∧
      e.name ∈ outline.names ∧ e.Loads outline d :=
  exists_loads_of_wellNamed (fun doc hdoc e he => Entry.name_wellNamed (hnames doc hdoc e he)) h hd

/-- **Loading yields only well-scoped, well-applied types.**  For documents made of names, every
type stored with a declared type is well formed over the type parameters along its containing chain,
and every type stored with a method over these and its own. -/
theorem stored_types_wellFormed {docs : List GraphDocument} {g : Graph}
    (hnames : ∀ doc ∈ docs, ∀ e ∈ doc.entries, e.wellNamed = true) (h : load docs = .ok g)
    {d : TypeDecl} (hd : d ∈ g.decls) :
    (∀ t ∈ d.storedTypes, t.WellFormed g.names d.name.vars) ∧
      ∀ m ∈ d.methods, ∀ t ∈ m.storedTypes, t.WellFormed g.names (d.name.vars ++ m.vars) := by
  obtain ⟨outline, e, houtline, hcoherent, hproper, hloads⟩ := exists_loads hnames h hd
  rw [← houtline]
  exact ⟨fun t => hloads.wellFormed hcoherent hproper,
    fun m hm t => hloads.wellFormed_method hcoherent hproper hm⟩

/-! A box inside a shelf, with a method that takes a box of another content: the shelf's own content
is filled in. -/

namespace Shelf

/-- The method of a box. -/
def swap : MethodDoc :=
  { name := "Swap", accessibility := "public", flags := {}
    typeParams := [{ CoreLibrary.param "T" with constraints := ["Box<T[]>"] }]
    params := [⟨"box", "Box<T>", .none, none, false, none⟩], returns := "B", attributes := []
    location := none }

/-- A shelf with a box inside. -/
def docs : List GraphDocument :=
  [{ coreLibrary := false, usings := []
     types := [{ CoreLibrary.classType "Shop" "Shelf" with
      typeParams := [CoreLibrary.param "A"]
      nested := [{ CoreLibrary.classType "Shop" "Box" with
        typeParams := [CoreLibrary.param "B"], methods := [swap] }] }] }]

/-- The shelf. -/
def shelf : DeclName := .top (some "Shop") "Shelf" ["A"]

/-- The box. -/
def box : DeclName := .nested shelf "Box" ["B"]

/-- A box of something on the same shelf. -/
def boxOf (t : Ty) : Ty := .named box [.var ⟨.type shelf, 0, "A"⟩, t]

/-- The type parameter of the method. -/
def item : Ty := .var ⟨.method ⟨box, 0⟩, 0, "T"⟩

/-- Whether documents load with a box whose method has the types it is written with. -/
def check (docs : List GraphDocument) : Bool :=
  match load docs with
  | .error _ => false
  | .ok g => g.decls.any fun d => d.name == box &&
      d.methods.any (·.storedTypes == [boxOf (.array item 1), boxOf item, .var ⟨.type box, 0, "B"⟩])

theorem exists_of_check {docs : List GraphDocument} (h : check docs = true) :
    ∃ g, load docs = .ok g ∧ ∃ d ∈ g.decls, d.name = box ∧ ∃ m ∈ d.methods,
      m.storedTypes = [boxOf (.array item 1), boxOf item, .var ⟨.type box, 0, "B"⟩] := by
  rw [check] at h
  split at h
  · cases h
  rename_i g hload
  simp only [List.any_eq_true, Bool.and_eq_true, beq_iff_eq] at h
  exact ⟨g, hload, h⟩

end Shelf

/-- The types of the box's method. -/
theorem stored_types_wellFormed_shelf : ∃ g, load Shelf.docs = .ok g ∧ ∃ d ∈ g.decls,
    ∃ m ∈ d.methods, (Shelf.boxOf Shelf.item).WellFormed g.names (d.name.vars ++ m.vars) := by
  have hcheck : Shelf.check Shelf.docs = true := by decide +kernel
  have hnames : ∀ doc ∈ Shelf.docs, ∀ e ∈ doc.entries, e.wellNamed = true := by decide +kernel
  obtain ⟨g, hload, d, hd, -, m, hm, htypes⟩ := Shelf.exists_of_check hcheck
  refine ⟨g, hload, d, hd, m, hm, (stored_types_wellFormed hnames hload hd).2 m hm _ ?_⟩
  rw [htypes]
  exact List.mem_cons_of_mem _ List.mem_cons_self

end LateBridge
