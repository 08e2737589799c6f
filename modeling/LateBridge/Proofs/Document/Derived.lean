import LateBridge.Proofs.Document.Scoping
import LateBridge.Proofs.Symbols.InterfaceClosure

/-!
# Proofs/Document/Derived — types that are looked up in a loaded graph

    well-formed type ──base type, interface──▸ well-formed type
    type parameter of a method ──constraint types──▸ types stored with the method

Base types and interfaces are stored over the parameters of the type they belong to; with arguments
put in they are well formed wherever the arguments are (`Graph.wellFormed_base?`), and so is
everything a type inherits.  A method is found by its place in its type (`method?_of_mem`), and with
it the constraint types of its parameters.
-/

namespace LateBridge

/-! ## Arguments put in -/

theorem Ty.WellFormed.subst {names : List DeclName} {vars more : List TypeVar} {r : Subst} {t : Ty}
    (h : t.WellFormed names vars) (hr : ∀ v ∈ vars, ((Ty.var v).subst r).WellFormed names more) :
    (t.subst r).WellFormed names more := by
  induction h with
  | named declared arity _ ih =>
    rw [subst_named]
    exact .named declared (by rw [List.length_map, arity]) (List.forall_mem_map.mpr ih)
  | array _ pos le ih =>
    rw [subst_array]
    exact .array ih pos le
  | var inScope => exact hr _ inScope
  | pointer _ ih =>
    rw [subst_pointer]
    exact .pointer ih
  | fnptr _ _ hparams hret =>
    rw [subst_fnptr]
    exact .fnptr (List.forall_mem_map.mpr hparams) hret
  | void => exact .void
  | dynamic => exact .dynamic

/-- Every parameter along the containing chain has its argument. -/
theorem exists_bindArgs {n : DeclName} {args : List Ty} (h : n.totalArity ≤ args.length)
    {v : TypeVar} (hv : v ∈ n.vars) : ∃ a ∈ args, (n.bindArgs args).lookup v = some a := by
  have hfst : (n.bindArgs args).map (·.1) = n.vars :=
    List.map_fst_zip (by rwa [n.length_vars])
  cases hlookup : (n.bindArgs args).lookup v with
  | some a => exact ⟨a, (List.of_mem_zip (mem_of_lookup hlookup)).2, rfl⟩
  | none =>
    rw [← hfst] at hv
    obtain ⟨p, hp, rfl⟩ := List.mem_map.mp hv
    simpa using List.lookup_eq_none_iff.mp hlookup p hp

/-- **A stored type with arguments put in is well formed wherever the arguments are.** -/
theorem Ty.WellFormed.subst_bindArgs {names : List DeclName} {vars : List TypeVar} {n : DeclName}
    {args : List Ty} {t : Ty} (h : t.WellFormed names n.vars) (harity : args.length = n.totalArity)
    (hargs : ∀ a ∈ args, a.WellFormed names vars) :
    (t.subst (n.bindArgs args)).WellFormed names vars := by
  refine h.subst fun v hv => ?_
  obtain ⟨a, ha, hlookup⟩ := exists_bindArgs harity.ge hv
  rw [subst_var, hlookup, Option.getD_some]
  exact hargs a ha

/-! ## What a type inherits -/

/-- **A graph that stores well-formed types**: names fit together, and the head of each type is
well formed over its own parameters. -/
structure Graph.WellStored (g : Graph) : Prop where
  coherent : DeclName.Coherent g.names
  heads : ∀ d ∈ g.decls, ∀ t ∈ d.base?.toList ++ d.interfaces, t.WellFormed g.names d.name.vars

namespace Graph.WellStored

variable {g : Graph} {vars : List TypeVar} {t u : Ty}

/-- A declared type is declared under its name. -/
theorem name_of_decl? (hg : g.WellStored) {n : DeclName} (hn : n ∈ g.names) {d : TypeDecl}
    (hd : g.decl? n = some d) : d.name = n :=
  hg.coherent.distinct _ (mem_names_of_find? hd) _ hn (metadata_of_find? hd)

/-- A type of a head, with arguments put in. -/
theorem wellFormed_head (hg : g.WellStored) {n : DeclName} {args : List Ty}
    (h : (Ty.named n args).WellFormed g.names vars) {d : TypeDecl} (hd : g.decl? n = some d)
    (ht : t ∈ d.base?.toList ++ d.interfaces) :
    (t.subst (n.bindArgs args)).WellFormed g.names vars := by
  cases h with
  | named declared arity inside =>
    have hstored := hg.heads d (mem_decls_of_find? hd) t ht
    rw [hg.name_of_decl? declared hd] at hstored
    exact hstored.subst_bindArgs arity inside

theorem wellFormed_base? (hg : g.WellStored) (h : t.WellFormed g.names vars)
    (hu : g.base? t = some u) : u.WellFormed g.names vars := by
  cases t with
  | named n args =>
    obtain ⟨d, b, hd, hb, rfl⟩ := base?_named_eq_some hu
    exact hg.wellFormed_head h hd (by simp [hb])
  | array element rank => exact wellFormed_of_special? hu
  | _ => cases hu

theorem wellFormed_extends (hg : g.WellStored) (h : t.WellFormed g.names vars)
    (hu : g.Extends t u) : u.WellFormed g.names vars := by
  obtain ⟨n, args, d, i, hi, rfl, hd, rfl⟩ := hu.exists_decl
  exact hg.wellFormed_head h hd (List.mem_append_right _ hi)

end Graph.WellStored

/-! ## Methods -/

theorem Entry.id_of_declare {e : Entry} {d : TypeDecl} (h : e.declare = .ok d) {i : Nat}
    (hi : i < d.methods.length) : d.methods[i].id = e.methodId i := by
  obtain ⟨methods, hmethods, h⟩ := bind_eq_ok_iff.mp h
  cases h
  have hall := forall₂_of_mapM hmethods
  have hmethod := hall.get (hall.length_eq ▸ hi) hi
  simp only [List.get_eq_getElem, List.getElem_zipIdx, Nat.zero_add] at hmethod
  exact (declareMethod_eq_ok hmethod).1

/-- Binding keeps methods at their places. -/
theorem Graph.id_of_bindMethods {g : Graph} {e : Entry} {d : TypeDecl} {generics : Generics}
    {methods : List Method} (h : g.bindMethods e d generics = .ok methods) {i : Nat}
    (hi : i < methods.length) : ∃ hi' : i < d.methods.length, methods[i].id = d.methods[i].id := by
  have hall := forall₂_of_mapM h
  have hzip := hall.length_eq ▸ hi
  have hi' : i < d.methods.length := by
    rw [List.length_zip] at hzip
    omega
  have hmethod := hall.get hzip hi
  simp only [List.get_eq_getElem, List.getElem_zip] at hmethod
  obtain ⟨params, -, hmethod⟩ := bind_eq_ok_iff.mp hmethod
  obtain ⟨returns, -, hmethod⟩ := bind_eq_ok_iff.mp hmethod
  exact ⟨hi', by rw [← Except.ok.inj hmethod]⟩

/-- **The methods of a type have its name and their places.** -/
theorem Entry.Loads.id {outline : Graph} {e : Entry} {d : TypeDecl} (h : e.Loads outline d)
    {i : Nat} (hi : i < d.methods.length) : d.methods[i].id = ⟨d.name, i⟩ := by
  obtain ⟨declared, generics, head, hdeclared, -, -, hbind⟩ := h
  obtain ⟨methods, hmethods, hbind⟩ := bind_eq_ok_iff.mp hbind
  cases hbind
  obtain ⟨hi', hid⟩ := Graph.id_of_bindMethods hmethods hi
  rw [Entry.name_of_declare hdeclared]
  exact hid.trans (Entry.id_of_declare hdeclared hi')

section Loaded

variable {docs : List GraphDocument} {g : Graph} (h : load docs = .ok g)

include h

/-- Each metadata name is declared once. -/
theorem nodup_of_load : (g.decls.map (·.metadata)).Nodup := by
  obtain ⟨declared, hdeclared, -⟩ := forall₂_loads h
  have hnames : g.decls.map (·.metadata) = (loadedEntries docs).map (·.name.metadata) := by
    have hmap := congrArg (List.map DeclName.metadata) (names_of_load h)
    simpa [Graph.names, TypeDecl.metadata, Function.comp_def] using hmap
  exact hnames ▸ (Entry.nodup_of_declareAll hdeclared).1

/-- **A declaration is found by its name.** -/
theorem decl?_of_mem {d : TypeDecl} (hd : d ∈ g.decls) : g.decl? d.name = some d :=
  (Graph.find?_eq_some_iff (nodup_of_load h)).mpr ⟨hd, rfl⟩

/-- **The types around a declared one are declared.** -/
theorem exists_decl_around {d : TypeDecl} (hd : d ∈ g.decls) {n : DeclName}
    (hn : n ∈ d.name.chain) : ∃ around ∈ g.decls, around.name = n := by
  have hname : d.name ∈ (loadedEntries docs).map (·.name) :=
    names_of_load h ▸ List.mem_map_of_mem hd
  obtain ⟨e, he, hename⟩ := List.mem_map.mp hname
  obtain ⟨e', he', rfl⟩ := exists_entry_around he (hename ▸ hn)
  have hmem : e'.name ∈ g.names := names_of_load h ▸ List.mem_map_of_mem he'
  exact List.mem_map.mp hmem

/-- **A method is found by its place in its declaring type.** -/
theorem method?_of_mem {d : TypeDecl} (hd : d ∈ g.decls) {m : Method} (hm : m ∈ d.methods) :
    m.declaring = d.name ∧ g.method? m.id = some m := by
  obtain ⟨declared, -, hall⟩ := forall₂_loads h
  obtain ⟨e, -, hloads⟩ := exists_of_mem_forall₂ hall hd
  obtain ⟨i, hi, rfl⟩ := List.mem_iff_getElem.mp hm
  have hid : d.methods[i].id = ⟨d.name, i⟩ := hloads.id hi
  refine ⟨by rw [Method.declaring, hid], ?_⟩
  rw [Graph.method?, hid, decl?_of_mem h hd, Option.bind_some, List.getElem?_eq_getElem hi]

/-- **The type of a method is found by the name the method knows it by.** -/
theorem exists_declaring {m : Method} (hm : m ∈ g.methods) :
    ∃ d ∈ g.decls, m ∈ d.methods ∧ d.name = m.declaring ∧ g.decl? m.declaring = some d := by
  obtain ⟨d, hd, hmd⟩ := List.mem_flatMap.mp hm
  obtain ⟨hname, -⟩ := method?_of_mem h hd hmd
  exact ⟨d, hd, hmd, hname.symm, hname ▸ decl?_of_mem h hd⟩

/-- **The constraint types of a method's parameter are stored with the method.** -/
theorem constraintTypes_subset {m : Method} (hm : m ∈ g.methods) {v : TypeVar} (hv : v ∈ m.vars)
    {t : Ty} (ht : t ∈ g.constraintTypes v) : t ∈ m.typeParams.flatMap (·.types) := by
  obtain ⟨d, hd, hmd⟩ := List.mem_flatMap.mp hm
  obtain ⟨-, hmethod⟩ := method?_of_mem h hd hmd
  have howner : v.owner = .method m.id := (vars_of_load h hm).2 v hv
  have hparam : g.typeParam? v = m.typeParams[v.index]? := by
    simp only [Graph.typeParam?, howner, hmethod, Option.bind_some]
  rw [Graph.constraintTypes, hparam] at ht
  cases hp : m.typeParams[v.index]? with
  | none =>
    rw [hp] at ht
    cases ht
  | some p =>
    rw [hp] at ht
    exact List.mem_flatMap.mpr ⟨p, List.mem_of_getElem? hp, ht⟩

/-- **What is stored with a method is well formed over the parameters around it and its own.** -/
theorem wellFormed_of_wellNamed
    (hnames : ∀ doc ∈ docs, ∀ e ∈ doc.entries, e.name.wellNamed = true) {m : Method}
    (hm : m ∈ g.methods) {t : Ty} (ht : t ∈ m.storedTypes) :
    t.WellFormed g.names (m.declaring.vars ++ m.vars) := by
  obtain ⟨d, hd, hmd⟩ := List.mem_flatMap.mp hm
  obtain ⟨hname, -⟩ := method?_of_mem h hd hmd
  obtain ⟨outline, e, houtline, hcoherent, he, hloads⟩ := exists_loads_of_wellNamed hnames h hd
  exact houtline ▸ hname ▸ hloads.wellFormed_method hcoherent he hmd ht

variable (hnames : ∀ doc ∈ docs, ∀ e ∈ doc.entries, e.wellNamed = true)

include hnames

theorem wellStored_of_load : g.WellStored where
  coherent := coherent_of_load h fun doc hdoc e he => Entry.name_wellNamed (hnames doc hdoc e he)
  heads d hd t ht := by
    obtain ⟨outline, e, houtline, hcoherent, hproper, hloads⟩ := exists_loads hnames h hd
    exact houtline ▸ hloads.wellFormed hcoherent hproper (List.mem_append_left _ ht)

theorem wellFormed_of_mem_methods {m : Method} (hm : m ∈ g.methods) {t : Ty}
    (ht : t ∈ m.storedTypes) : t.WellFormed g.names (m.declaring.vars ++ m.vars) :=
  wellFormed_of_wellNamed h (fun doc hdoc e he => Entry.name_wellNamed (hnames doc hdoc e he)) hm ht

end Loaded

end LateBridge
