import LateBridge.Proofs.Document.References
import LateBridge.Proofs.Symbols.Assignability
import LateBridge.Symbols.WellKnown
import Mathlib.Data.List.Nodup

/-!
# Proofs/Document/Loading — what every loaded graph has

Loading keeps entries and declarations in step: each declaration of the graph is bound from the
entry at its place (`forall₂_binds`).  What a reference denotes can then be read off its scope.  In
the head of a type no parameter of a method is in scope, so that instantiating methods leaves the
hierarchy alone (`untouched_of_load`); and the core library comes first, so that its roots are the
ones found (`rooted_of_load`).
-/

namespace LateBridge

/-! ## What a reference mentions -/

/-- A variable that stands for a parameter of a type. -/
def TypeVar.OfType (v : TypeVar) : Prop := ∃ n, v.owner = .type n

/-- **A type fits a scope**: it mentions only parameters of the enclosing method and of types. -/
def Scope.Covers (s : Scope) (t : Ty) : Prop := ∀ v ∈ t.vars, v ∈ s.methodVars ∨ v.OfType

theorem ofType_of_mem_ownVars {n : DeclName} {v : TypeVar} (h : v ∈ n.ownVars) : v.OfType := by
  rw [DeclName.ownVars, List.mem_map] at h
  obtain ⟨x, -, rfl⟩ := h
  exact ⟨n, rfl⟩

theorem ofType_of_mem_vars {n : DeclName} {v : TypeVar} (h : v ∈ n.vars) : v.OfType := by
  induction n with
  | top space name params => exact ofType_of_mem_ownVars h
  | nested outer name params ih =>
    rw [DeclName.vars, List.mem_append] at h
    obtain h | h := h
    · exact ih h
    · exact ofType_of_mem_ownVars h

theorem ofType_of_mem_typeVars {s : Scope} {v : TypeVar} (h : v ∈ s.typeVars) : v.OfType := by
  rw [Scope.typeVars, List.mem_flatMap] at h
  obtain ⟨n, -, hv⟩ := h
  exact ofType_of_mem_ownVars hv

namespace Graph

variable {g : Graph} {s : Scope}

theorem covers_plain (n : DeclName) : s.Covers (.plain n) := by
  simp [Scope.Covers, Ty.plain]

theorem WordType.covers {t : Ty} (h : g.WordType s t) : s.Covers t := by
  cases h with
  | void | dynamic => simp [Scope.Covers, Ty.vars]
  | special hspecial =>
    obtain ⟨d, -, rfl⟩ := Option.map_eq_some_iff.mp hspecial
    exact covers_plain d.name
  | var hv =>
    intro w hw
    obtain rfl := Ty.mem_vars_var.mp hw
    obtain hmethod | htype := List.mem_append.mp (List.mem_of_find?_eq_some hv)
    · exact .inl hmethod
    · exact .inr (ofType_of_mem_typeVars htype)

theorem covers_nullableOf {t : Ty} (h : s.Covers t) : s.Covers (g.nullableOf t) := by
  unfold nullableOf
  split
  · split
    · intro v hv
      obtain ⟨a, ha, hva⟩ := Ty.mem_vars_named.mp hv
      obtain rfl := List.mem_singleton.mp ha
      exact h v hva
    · exact h
  · exact h

theorem covers_named {n : DeclName} {args : List Ty} (h : ∀ a ∈ args, s.Covers a) :
    s.Covers (.named n (completeArgs n args)) := by
  intro v hv
  obtain ⟨a, ha, hva⟩ := Ty.mem_vars_named.mp hv
  obtain ha | ha := List.mem_append.mp ha
  · obtain ⟨w, hw, rfl⟩ := List.mem_map.mp ha
    obtain rfl := Ty.mem_vars_var.mp hva
    exact .inr (ofType_of_mem_vars (List.mem_of_mem_take hw))
  · exact h a ha v hva

theorem referenceClosed_covers : g.ReferenceClosed s s.Covers where
  word := WordType.covers
  array h v hv := h v (Ty.mem_vars_array.mp hv)
  pointer h v hv := h v (Ty.mem_vars_pointer.mp hv)
  nullable := covers_nullableOf
  fnptr hparams hret v hv :=
    (Ty.mem_vars_fnptr.mp hv).elim (fun ⟨p, hp, hvp⟩ => hparams p hp v hvp) (hret v)
  named _ := covers_named

/-- **A reference mentions only what its scope knows.** -/
theorem covers_of_bindType {context text : String} {t : Ty}
    (h : g.bindType s context text = .ok t) : s.Covers t :=
  referenceClosed_covers.of_bindType h

end Graph

/-! ## Entries and their declarations

Binding adds what refers to types and keeps the rest: the variable and the keyword constraints of a
type parameter are those it was declared with. -/

/-- What a type parameter has from its declaration. -/
def TypeParam.core (p : TypeParam) : TypeVar × Constraints := (p.var, p.constraints)

/-- **A bound type of an entry**: its head is the one bound over the outline, and its type
parameters and those of its methods are the declared ones. -/
structure Entry.Binds (outline : Graph) (e : Entry) (d : TypeDecl) : Prop where
  name : d.name = e.name
  kind : d.kind = e.doc.kind
  head : outline.bindHead e = .ok ⟨d.base?, d.interfaces⟩
  typeParams : d.typeParams.map TypeParam.core =
    (declareParams (.type e.name) e.doc.typeParams).map TypeParam.core
  methods : ∀ m ∈ d.methods, ∃ docs, m.typeParams.map TypeParam.core =
    (declareParams (.method m.id) docs).map TypeParam.core

theorem Entry.length_declareParams (owner : Owner) (docs : List TypeParamDoc) :
    (declareParams owner docs).length = docs.length := by
  rw [declareParams, List.length_map, List.length_zipIdx]

/-- Binding type parameters keeps what was declared. -/
theorem Graph.core_bindParams {g : Graph} {s : Scope} {context : String}
    {declared bound : List TypeParam} {docs : List TypeParamDoc}
    (h : g.bindParams s context declared docs = .ok bound)
    (hlength : declared.length = docs.length) :
    bound.map TypeParam.core = declared.map TypeParam.core := by
  induction declared generalizing docs bound with
  | nil =>
    cases h
    rfl
  | cons p declared ih =>
    cases docs with
    | nil => simp at hlength
    | cons doc docs =>
      rw [bindParams, List.zip_cons_cons, List.mapM_cons, bind_eq_ok_iff] at h
      obtain ⟨p', hp', h⟩ := h
      obtain ⟨bound', hbound, h⟩ := bind_eq_ok_iff.mp h
      cases h
      obtain ⟨types, -, hp'⟩ := bind_eq_ok_iff.mp hp'
      cases hp'
      rw [List.map_cons, List.map_cons, ih hbound (Nat.succ.inj hlength)]
      rfl

/-- **A method is loaded from its document**: declared, then its type parameters and the rest of it
bound. -/
def Graph.LoadsMethod (g : Graph) (e : Entry) (doc : MethodDoc) (m : Method) : Prop :=
  ∃ position declared typeParams, e.declareMethod doc position = .ok declared ∧
    g.bindParams (methodScope e declared) (e.methodContext doc) declared.typeParams
      doc.typeParams = .ok typeParams ∧ g.bindMethod e declared doc typeParams = .ok m

/-- **The methods of a type are loaded from their documents**, one by one. -/
theorem Graph.forall₂_loadsMethod {g : Graph} {e : Entry} {d : TypeDecl} {generics : Generics}
    {methods : List Method} (hdeclared : e.declare = .ok d)
    (hgenerics : g.bindGenerics e d = .ok generics)
    (hmethods : g.bindMethods e d generics = .ok methods) :
    List.Forall₂ (g.LoadsMethod e) e.doc.methods methods := by
  obtain ⟨declared, hall, hd⟩ := bind_eq_ok_iff.mp hdeclared
  cases hd
  obtain ⟨own, -, hgenerics⟩ := bind_eq_ok_iff.mp hgenerics
  obtain ⟨ofMethods, hof, hgenerics⟩ := bind_eq_ok_iff.mp hgenerics
  cases hgenerics
  have hall := forall₂_of_mapM hall
  have hof := forall₂_of_mapM hof
  have hmethods := forall₂_of_mapM hmethods
  have hlength := hall.length_eq
  have hlengthOf := hof.length_eq
  have hlengthMethods := hmethods.length_eq
  simp only [List.length_zip, List.length_zipIdx] at hlength hlengthOf hlengthMethods
  -- The three lists run in step; at the place of the method they hold what it was made of.
  refine List.forall₂_of_length_eq_of_get (by omega) fun i hi hm => ?_
  have hmethod := hall.get (i := i) (by simpa using hi) (by omega)
  have hparams := hof.get (i := i) (by simp; omega) (by omega)
  have hbind := hmethods.get (i := i) (by simp; omega) hm
  simp only [List.getElem_zip, List.get_eq_getElem, List.getElem_zipIdx] at hmethod hparams hbind
  exact ⟨_, _, _, hmethod, hparams, hbind⟩

theorem Graph.exists_loadsMethod {g : Graph} {e : Entry} {d : TypeDecl} {generics : Generics}
    {methods : List Method} (hdeclared : e.declare = .ok d)
    (hgenerics : g.bindGenerics e d = .ok generics)
    (hmethods : g.bindMethods e d generics = .ok methods) :
    ∀ m ∈ methods, ∃ doc ∈ e.doc.methods, g.LoadsMethod e doc m := fun _ hm =>
  exists_of_mem_forall₂ (forall₂_loadsMethod hdeclared hgenerics hmethods) hm

theorem Entry.declareMethod_eq_ok {e : Entry} {doc : MethodDoc} {position : Nat} {m : Method}
    (h : e.declareMethod doc position = .ok m) : m.id = e.methodId position ∧
      m.typeParams = declareParams (.method m.id) doc.typeParams := by
  rw [declareMethod] at h
  split at h
  · cases h
  · cases h
    exact ⟨rfl, rfl⟩

/-- A bound method keeps its place and its type parameters. -/
theorem Graph.LoadsMethod.core {g : Graph} {e : Entry} {doc : MethodDoc} {m : Method}
    (h : g.LoadsMethod e doc m) : m.typeParams.map TypeParam.core =
      (Entry.declareParams (.method m.id) doc.typeParams).map TypeParam.core := by
  obtain ⟨position, declared, typeParams, hdeclared, hparams, hbind⟩ := h
  obtain ⟨params, -, hbind⟩ := bind_eq_ok_iff.mp hbind
  obtain ⟨returns, -, hbind⟩ := bind_eq_ok_iff.mp hbind
  cases hbind
  obtain ⟨-, htypeParams⟩ := Entry.declareMethod_eq_ok hdeclared
  have hlength : declared.typeParams.length = doc.typeParams.length := by
    rw [htypeParams, Entry.length_declareParams]
  rw [Graph.core_bindParams hparams hlength, htypeParams]

theorem Entry.forall₂_declareAll {taken : List String} {es : List Entry} {ds : List TypeDecl}
    (h : Entry.declareAll taken es = .ok ds) :
    List.Forall₂ (fun e d => e.declare = .ok d) es ds := by
  induction es generalizing taken ds with
  | nil =>
    cases h
    exact .nil
  | cons e es ih =>
    rw [declareAll] at h
    split at h
    · cases h
    · obtain ⟨d, hd, h⟩ := bind_eq_ok_iff.mp h
      obtain ⟨ds', hds, h⟩ := bind_eq_ok_iff.mp h
      cases h
      exact .cons hd (ih hds)

/-- One entry with its declaration, its type parameters and its head gives a bound type. -/
theorem Graph.binds_bindDecl {g : Graph} {e : Entry} {declared d : TypeDecl} {generics : Generics}
    {head : Head} (hdeclared : e.declare = .ok declared)
    (hgenerics : g.bindGenerics e declared = .ok generics) (hhead : g.bindHead e = .ok head)
    (h : g.bindDecl ⟨e, declared, generics, head⟩ = .ok d) : e.Binds g d := by
  obtain ⟨methods, hmethods, h⟩ := bind_eq_ok_iff.mp h
  cases h
  have hof : ∀ m ∈ methods, ∃ docs, m.typeParams.map TypeParam.core =
      (Entry.declareParams (.method m.id) docs).map TypeParam.core := fun m hm =>
    let ⟨doc, _, hloads⟩ := exists_loadsMethod hdeclared hgenerics hmethods m hm
    ⟨doc.typeParams, hloads.core⟩
  obtain ⟨_, -, hd⟩ := bind_eq_ok_iff.mp hdeclared
  cases hd
  obtain ⟨own, hown, hgenerics⟩ := bind_eq_ok_iff.mp hgenerics
  obtain ⟨_, -, hgenerics⟩ := bind_eq_ok_iff.mp hgenerics
  cases hgenerics
  exact ⟨rfl, rfl, hhead, core_bindParams hown (Entry.length_declareParams _ _), hof⟩

/-- **A declaration is loaded from an entry**: declared, then bound over the outline. -/
def Entry.Loads (outline : Graph) (e : Entry) (d : TypeDecl) : Prop :=
  ∃ declared generics head, e.declare = .ok declared ∧
    outline.bindGenerics e declared = .ok generics ∧ outline.bindHead e = .ok head ∧
    outline.bindDecl ⟨e, declared, generics, head⟩ = .ok d

theorem Entry.Loads.binds {outline : Graph} {e : Entry} {d : TypeDecl} (h : e.Loads outline d) :
    e.Binds outline d := by
  obtain ⟨declared, generics, head, hdeclared, hgenerics, hhead, hbind⟩ := h
  exact Graph.binds_bindDecl hdeclared hgenerics hhead hbind

/-- Binding goes through the entries and their parts in step. -/
theorem Graph.forall₂_bindDecl {g : Graph} {es : List Entry} {declared ds : List TypeDecl}
    {generics : List Generics} {heads : List Head}
    (hdeclared : List.Forall₂ (fun e d => e.declare = .ok d) es declared)
    (hgenerics : List.Forall₂ (fun p b => g.bindGenerics p.1 p.2 = .ok b) (es.zip declared)
      generics)
    (hheads : List.Forall₂ (fun e b => g.bindHead e = .ok b) es heads)
    (hds : List.Forall₂ (fun p d => g.bindDecl ⟨p.1.1, p.1.2, p.2.1, p.2.2⟩ = .ok d)
      ((es.zip declared).zip (generics.zip heads)) ds) :
    List.Forall₂ (fun e d => e.Loads g d) es ds := by
  induction hdeclared generalizing generics heads ds with
  | nil =>
    cases hds
    exact .nil
  | cons hd _ ih =>
    cases hgenerics with
    | cons hgeneric hgenerics =>
      cases hheads with
      | cons hhead hheads =>
        cases hds with
        | cons hbind hds =>
          exact .cons ⟨_, _, _, hd, hgeneric, hhead, hbind⟩ (ih hgenerics hheads hds)

/-- The entries that documents are loaded from. -/
def loadedEntries (docs : List GraphDocument) : List Entry :=
  (withCoreLibrary docs).flatMap GraphDocument.entries

/-- **The declarations of a loaded graph are loaded from the entries of its documents**, one by one,
over the outline of all declarations. -/
theorem forall₂_loads {docs : List GraphDocument} {g : Graph} (h : load docs = .ok g) :
    ∃ declared, Entry.declareAll [] (loadedEntries docs) = .ok declared ∧
      List.Forall₂ (fun e d => e.Loads { decls := declared } d) (loadedEntries docs) g.decls := by
  obtain ⟨declared, hdeclared, h⟩ := bind_eq_ok_iff.mp h
  obtain ⟨generics, hgenerics, h⟩ := bind_eq_ok_iff.mp h
  obtain ⟨_, -, h⟩ := bind_eq_ok_iff.mp h
  obtain ⟨heads, hheads, h⟩ := bind_eq_ok_iff.mp h
  obtain ⟨decls, hdecls, h⟩ := bind_eq_ok_iff.mp h
  cases h
  exact ⟨declared, hdeclared, Graph.forall₂_bindDecl (Entry.forall₂_declareAll hdeclared)
    (forall₂_of_mapM hgenerics) (forall₂_of_mapM hheads) (forall₂_of_mapM hdecls)⟩

theorem forall₂_binds {docs : List GraphDocument} {g : Graph} (h : load docs = .ok g) :
    ∃ outline, List.Forall₂ (fun e d => e.Binds outline d) (loadedEntries docs) g.decls := by
  obtain ⟨declared, -, hall⟩ := forall₂_loads h
  exact ⟨_, hall.imp fun _ _ => Entry.Loads.binds⟩

theorem exists_binds {docs : List GraphDocument} {g : Graph} (h : load docs = .ok g)
    {d : TypeDecl} (hd : d ∈ g.decls) :
    ∃ outline, ∃ e ∈ loadedEntries docs, e.Binds outline d := by
  obtain ⟨outline, hall⟩ := forall₂_binds h
  obtain ⟨i, hi, rfl⟩ := List.mem_iff_getElem.mp hd
  have hi' : i < (loadedEntries docs).length := hall.length_eq ▸ hi
  exact ⟨outline, _, List.getElem_mem hi', hall.get hi' hi⟩

/-! ## Heads -/

/-- **A head**: the base type is the written one or the default of its kind, and the interfaces are
the written ones. -/
theorem Graph.bindHead_eq_ok {g : Graph} {e : Entry} {head : Head} (h : g.bindHead e = .ok head) :
    ((∃ text b, e.doc.base? = some text ∧ g.bindType e.scope e.context text = .ok b ∧
        head.base? = some b) ∨ (e.doc.base? = none ∧ head.base? = g.defaultBase? e)) ∧
      e.doc.interfaces.mapM (g.bindType e.scope e.context) = .ok head.interfaces := by
  rw [bindHead] at h
  split at h
  · rename_i text hdoc
    cases hb : g.bindType e.scope e.context text with
    | error fault => rw [hb] at h; cases h
    | ok b =>
      rw [hb] at h
      obtain ⟨base?, hbase, h⟩ := bind_eq_ok_iff.mp h
      cases hbase
      obtain ⟨interfaces, hinterfaces, h⟩ := bind_eq_ok_iff.mp h
      cases h
      exact ⟨.inl ⟨text, b, hdoc, hb, rfl⟩, hinterfaces⟩
  · rename_i hdoc
    obtain ⟨base?, hbase, h⟩ := bind_eq_ok_iff.mp h
    cases hbase
    obtain ⟨interfaces, hinterfaces, h⟩ := bind_eq_ok_iff.mp h
    cases h
    exact ⟨.inr ⟨hdoc, rfl⟩, hinterfaces⟩

theorem Graph.exists_plain_of_defaultBase? {g : Graph} {e : Entry} {b : Ty}
    (h : g.defaultBase? e = some b) : ∃ n, b = .plain n := by
  obtain ⟨d, -, rfl⟩ := Option.map_eq_some_iff.mp h
  exact ⟨d.name, rfl⟩

/-- **What holds of written types and of default bases holds of a head.** -/
theorem Graph.forall_mem_head {g : Graph} {e : Entry} {head : Head} {P : Ty → Prop}
    (hwritten : ∀ text t, g.bindType e.scope e.context text = .ok t → P t)
    (hdefault : ∀ b, g.defaultBase? e = some b → P b) (h : g.bindHead e = .ok head) :
    ∀ t ∈ head.base?.toList ++ head.interfaces, P t := by
  obtain ⟨hbase, hinterfaces⟩ := bindHead_eq_ok h
  refine List.forall_mem_append.mpr ⟨fun t ht => ?_, fun t ht => ?_⟩
  · rw [Option.mem_toList] at ht
    obtain ⟨text, b, -, hb, hhead⟩ | ⟨-, hhead⟩ := hbase
    · obtain rfl : b = t := Option.some.inj (hhead.symm.trans ht)
      exact hwritten text b hb
    · exact hdefault t (hhead.symm.trans ht)
  · obtain ⟨text, -, hbind⟩ := exists_of_mem_mapM hinterfaces ht
    exact hwritten text t hbind

/-- **Heads mention no parameter of a method.** -/
theorem Entry.Binds.ofType {outline : Graph} {e : Entry} {d : TypeDecl} (h : e.Binds outline d)
    {t : Ty} (ht : t ∈ d.base?.toList ++ d.interfaces) {v : TypeVar} (hv : v ∈ t.vars) :
    v.OfType := by
  have hcovers : ∀ t ∈ d.base?.toList ++ d.interfaces, e.scope.Covers t := by
    refine Graph.forall_mem_head (fun _ _ => Graph.covers_of_bindType) (fun b hb => ?_) h.head
    obtain ⟨n, rfl⟩ := Graph.exists_plain_of_defaultBase? hb
    exact Graph.covers_plain n
  exact (hcovers t ht v hv).resolve_left List.not_mem_nil

/-- **Instantiating methods leaves the hierarchy alone.** -/
theorem untouched_of_load {docs : List GraphDocument} {g : Graph} (h : load docs = .ok g)
    {s : Ty.Subst} {m : MethodId} (hs : ∀ p ∈ s, p.1.owner = .method m) : g.Untouched s := by
  intro d hd t ht v hv
  obtain ⟨outline, e, -, hbinds⟩ := exists_binds h hd
  obtain ⟨n, hn⟩ := hbinds.ofType ht hv
  rw [List.lookup_eq_none_iff]
  intro p hp
  have hne : v ≠ p.1 := by
    rintro rfl
    exact Owner.noConfusion ((hs p hp).symm.trans hn)
  simpa using hne

/-! ## Type parameters -/

/-- The variables of declared type parameters differ by their places. -/
theorem Entry.nodup_vars_declareParams (owner : Owner) (docs : List TypeParamDoc) :
    ((declareParams owner docs).map (·.var)).Nodup := by
  refine List.Nodup.of_map TypeVar.index ?_
  have hindex : ((declareParams owner docs).map (·.var)).map TypeVar.index
      = List.range docs.length := by
    refine List.ext_getElem (by simp [length_declareParams]) fun i _ _ => ?_
    simp [declareParams]
  rw [hindex]
  exact List.nodup_range

theorem Entry.owner_of_mem_declareParams {owner : Owner} {docs : List TypeParamDoc}
    {p : TypeParam} (h : p ∈ declareParams owner docs) : p.var.owner = owner := by
  rw [declareParams, List.mem_map] at h
  obtain ⟨_, -, rfl⟩ := h
  rfl

theorem Entry.index_lt_of_mem_declareParams {owner : Owner} {docs : List TypeParamDoc}
    {p : TypeParam} (h : p ∈ declareParams owner docs) : p.var.index < docs.length := by
  rw [declareParams, List.mem_map] at h
  obtain ⟨⟨doc, index⟩, hmem, rfl⟩ := h
  exact (List.getElem?_eq_some_iff.mp (List.mk_mem_zipIdx_iff_getElem?.mp hmem)).1

/-- Who asks for a type without references asks for a value type. -/
theorem Constraints.value_of_unmanaged_ofText? {text : String} {c : Constraints}
    (h : ofText? text = some c) (hc : c.unmanaged = true) : c.value = true := by
  unfold ofText? at h
  split at h <;> cases h <;> first | rfl | exact hc

theorem Constraints.value_of_unmanaged_foldl {cs : List Constraints} {c : Constraints}
    (hcs : ∀ c ∈ cs, c.unmanaged = true → c.value = true) (hc : c.unmanaged = true → c.value = true)
    (h : (cs.foldl union c).unmanaged = true) : (cs.foldl union c).value = true := by
  induction cs generalizing c with
  | nil => exact hc h
  | cons d cs ih =>
    refine ih (fun c hc => hcs c (List.mem_cons_of_mem _ hc)) (fun hu => ?_) h
    simp only [union, Bool.or_eq_true] at hu ⊢
    exact hu.imp hc (hcs d List.mem_cons_self)

theorem Entry.value_of_unmanaged {owner : Owner} {docs : List TypeParamDoc} {p : TypeParam}
    (h : p ∈ declareParams owner docs) (hp : p.constraints.unmanaged = true) :
    p.constraints.value = true := by
  rw [declareParams, List.mem_map] at h
  obtain ⟨⟨doc, index⟩, -, rfl⟩ := h
  refine Constraints.value_of_unmanaged_foldl (fun c hc => ?_) (fun h => absurd h (by simp)) hp
  obtain ⟨text, -, htext⟩ := List.mem_filterMap.mp hc
  exact Constraints.value_of_unmanaged_ofText? htext

theorem mem_core {declared bound : List TypeParam}
    (h : bound.map TypeParam.core = declared.map TypeParam.core) {p : TypeParam} (hp : p ∈ bound) :
    ∃ q ∈ declared, q.var = p.var ∧ q.constraints = p.constraints := by
  obtain ⟨q, hq, hcore⟩ := List.mem_map.mp (h ▸ List.mem_map_of_mem (f := TypeParam.core) hp)
  exact ⟨q, hq, congrArg Prod.fst hcore, congrArg Prod.snd hcore⟩

theorem map_var_core {declared bound : List TypeParam}
    (h : bound.map TypeParam.core = declared.map TypeParam.core) :
    bound.map (·.var) = declared.map (·.var) := by
  simpa [TypeParam.core, Function.comp_def] using congrArg (List.map Prod.fst) h

/-- **The type parameters of a loaded method** are its own and differ. -/
theorem vars_of_load {docs : List GraphDocument} {g : Graph} (h : load docs = .ok g) {m : Method}
    (hm : m ∈ g.methods) : m.vars.Nodup ∧ ∀ v ∈ m.vars, v.owner = .method m.id := by
  obtain ⟨d, hd, hmd⟩ := List.mem_flatMap.mp hm
  obtain ⟨outline, e, -, hbinds⟩ := exists_binds h hd
  obtain ⟨docs, hcore⟩ := hbinds.methods m hmd
  rw [Method.vars, map_var_core hcore]
  refine ⟨Entry.nodup_vars_declareParams _ _, fun v hv => ?_⟩
  obtain ⟨p, hp, rfl⟩ := List.mem_map.mp hv
  exact Entry.owner_of_mem_declareParams hp

theorem index_lt_of_load {docs : List GraphDocument} {g : Graph} (h : load docs = .ok g)
    {m : Method} (hm : m ∈ g.methods) {v : TypeVar} (hv : v ∈ m.vars) : v.index < m.arity := by
  obtain ⟨d, hd, hmd⟩ := List.mem_flatMap.mp hm
  obtain ⟨outline, e, -, hbinds⟩ := exists_binds h hd
  obtain ⟨docs, hcore⟩ := hbinds.methods m hmd
  have hvars := map_var_core hcore
  have hlength : m.arity = docs.length := by
    rw [Method.arity, ← List.length_map (f := fun p => p.var), hvars, List.length_map,
      Entry.length_declareParams]
  rw [Method.vars, hvars] at hv
  obtain ⟨p, hp, rfl⟩ := List.mem_map.mp hv
  exact hlength ▸ Entry.index_lt_of_mem_declareParams hp

theorem value_of_unmanaged_of_load {docs : List GraphDocument} {g : Graph} (h : load docs = .ok g)
    {v : TypeVar} (hv : (g.constraints v).unmanaged = true) : (g.constraints v).value = true := by
  rw [Graph.constraints] at hv ⊢
  cases hp : g.typeParam? v with
  | none =>
    rw [hp] at hv
    exact absurd hv (by simp)
  | some p =>
    rw [hp] at hv
    have hdeclared : ∃ owner docs, ∃ q ∈ Entry.declareParams owner docs,
        q.constraints = p.constraints := by
      rw [Graph.typeParam?] at hp
      split at hp
      · obtain ⟨d, hd, hpd⟩ := Option.bind_eq_some_iff.mp hp
        obtain ⟨outline, e, -, hbinds⟩ := exists_binds h (Graph.mem_decls_of_find? hd)
        obtain ⟨q, hq, -, hqp⟩ := mem_core hbinds.typeParams (List.mem_of_getElem? hpd)
        exact ⟨_, _, q, hq, hqp⟩
      · obtain ⟨m, hm, hpm⟩ := Option.bind_eq_some_iff.mp hp
        obtain ⟨d, hd, hmd⟩ := Option.bind_eq_some_iff.mp hm
        obtain ⟨outline, e, -, hbinds⟩ := exists_binds h (Graph.mem_decls_of_find? hd)
        obtain ⟨docs, hcore⟩ := hbinds.methods m (List.mem_of_getElem? hmd)
        obtain ⟨q, hq, -, hqp⟩ := mem_core hcore (List.mem_of_getElem? hpm)
        exact ⟨_, _, q, hq, hqp⟩
    obtain ⟨owner, docs, q, hq, hqp⟩ := hdeclared
    rw [Option.map_some, Option.getD_some, ← hqp] at hv ⊢
    exact Entry.value_of_unmanaged hq hv

/-! ## The roots -/

/-- The types of the core library come before all others: the root of all types, the root of the
value types, the base of the enumerations, and the array root. -/
theorem loadedEntries_of_coreLibrary {docs : List GraphDocument}
    (h : docs.any (·.coreLibrary) = true) :
    ∃ enum rest, loadedEntries docs =
      ⟨CoreLibrary.classType "System" "Object", .top (some "System") "Object" [], []⟩ ::
      ⟨CoreLibrary.classType "System" "ValueType", .top (some "System") "ValueType" [], []⟩ ::
      ⟨enum, .top (some "System") "Enum" [], []⟩ ::
      ⟨{ CoreLibrary.classType "System" "Array" with interfaces := ["System.Collections.IList"] },
        .top (some "System") "Array" [], []⟩ :: rest := by
  rw [loadedEntries, withCoreLibrary, if_pos h, List.flatMap_cons]
  exact ⟨_, _, rfl⟩

/-- A head without a written base type and without interfaces. -/
theorem Entry.Binds.bare {outline : Graph} {e : Entry} {d : TypeDecl} (h : e.Binds outline d)
    (hbase : e.doc.base? = none) (hinterfaces : e.doc.interfaces = []) :
    d.base? = outline.defaultBase? e ∧ d.interfaces = [] := by
  obtain ⟨hd, hds⟩ := Graph.bindHead_eq_ok h.head
  rw [hinterfaces, List.mapM_nil] at hds
  refine ⟨?_, (Except.ok.inj hds).symm⟩
  obtain ⟨text, b, hdoc, -⟩ | ⟨-, hd⟩ := hd
  · exact absurd (hbase.symm.trans hdoc) (Option.some_ne_none text).symm
  · exact hd

theorem find?_cons_of_ne {ds : List TypeDecl} {d : TypeDecl} {name : String}
    (h : d.name.metadata ≠ name) :
    (d :: ds).find? (·.metadata == name) = ds.find? (·.metadata == name) :=
  List.find?_cons_of_neg (by simpa [TypeDecl.metadata] using h)

theorem find?_cons_of_eq {ds : List TypeDecl} {d : TypeDecl} {name : String}
    (h : d.name.metadata = name) : (d :: ds).find? (·.metadata == name) = some d :=
  List.find?_cons_of_pos (by simpa [TypeDecl.metadata] using h)

/-- **A graph with the core library has its roots.** -/
theorem rooted_of_load {docs : List GraphDocument} {g : Graph} (h : load docs = .ok g)
    (hcore : docs.any (·.coreLibrary) = true) : g.Rooted := by
  obtain ⟨outline, hall⟩ := forall₂_binds h
  obtain ⟨enum, rest, hentries⟩ := loadedEntries_of_coreLibrary hcore
  rw [hentries] at hall
  generalize hdecls : g.decls = decls at hall
  obtain ⟨object, _, hobject, hall₁, rfl⟩ := List.forall₂_cons_left_iff.mp hall
  obtain ⟨valueType, _, hvalue, hall₂, rfl⟩ := List.forall₂_cons_left_iff.mp hall₁
  obtain ⟨enumDecl, _, henum, hall₃, rfl⟩ := List.forall₂_cons_left_iff.mp hall₂
  obtain ⟨array, _, harray, -, rfl⟩ := List.forall₂_cons_left_iff.mp hall₃
  obtain ⟨hnobase, hnone⟩ := hobject.bare rfl rfl
  obtain ⟨hbase, hnone'⟩ := hvalue.bare rfl rfl
  have hobjectName : object.name.metadata = Special.object.metadata := by rw [hobject.name]; rfl
  have hvalueName : valueType.name.metadata = Special.valueType.metadata := by
    rw [hvalue.name]
    rfl
  have henumName : enumDecl.name.metadata = Special.enum.metadata := by rw [henum.name]; rfl
  have harrayName : array.name.metadata = Special.array.metadata := by rw [harray.name]; rfl
  refine ⟨fun d hd => ?_, fun d hd => ?_, fun d hd => ?_⟩
  · rw [Graph.find?_eq, hdecls, find?_cons_of_eq hobjectName] at hd
    cases hd
    exact ⟨hobject.kind, hnobase, hnone⟩
  · rw [Graph.find?_eq, hdecls, find?_cons_of_ne (by rw [hobjectName]; decide),
      find?_cons_of_eq hvalueName] at hd
    cases hd
    refine ⟨fun b hb => ?_, hnone'⟩
    rw [hbase] at hb
    obtain ⟨d, hd, rfl⟩ := Option.map_eq_some_iff.mp hb
    have hname : d.name.metadata = Special.object.metadata := Graph.metadata_of_find? hd
    simp [Ty.isSpecial, Ty.special?, Ty.plain, Ty.declName?, DeclName.special?, hname]
  · rw [Graph.find?_eq, hdecls, find?_cons_of_ne (by rw [hobjectName]; decide),
      find?_cons_of_ne (by rw [hvalueName]; decide), find?_cons_of_ne (by rw [henumName]; decide),
      find?_cons_of_eq harrayName] at hd
    cases hd
    exact harray.kind

/-! ## Graphs that a compiler accepts -/

/-- **A graph loaded with the core library, with a hierarchy that a compiler accepts.**  Documents
may declare the same roots themselves instead. -/
structure Compiled (docs : List GraphDocument) (g : Graph) : Prop where
  loaded : load docs = .ok g
  roots : docs.any (·.coreLibrary) = true ∨ g.Rooted
  lawful : g.Lawful

theorem Compiled.rooted {docs : List GraphDocument} {g : Graph} (h : Compiled docs g) : g.Rooted :=
  h.roots.elim (rooted_of_load h.loaded) id

/-- The types that have to be there, with nothing in them: roots for a small program. -/
def CoreLibrary.bareTypes : List TypeDoc :=
  [classType "System" "Object", classType "System" "ValueType", classType "System" "Array",
    classType "System" "String", structType "System" "Boolean",
    classType "System" "ArgumentException",
    classType "Microsoft.CSharp.RuntimeBinder" "RuntimeBinderException"]

/-- Whether a small program loads, and something holds of its graph. -/
def loadsAs (docs : List GraphDocument) (asked : Graph → Bool) : Bool :=
  match load docs with
  | .error _ => false
  | .ok g => asked g

theorem exists_of_loadsAs {docs : List GraphDocument} {asked : Graph → Bool}
    (h : loadsAs docs asked = true) : ∃ g, load docs = .ok g ∧ asked g = true := by
  rw [loadsAs] at h
  split at h
  · cases h
  rename_i g hload
  exact ⟨g, hload, h⟩

/-- Whether a small program loads with the well-known types, and something holds of it. -/
def loadsWith (docs : List GraphDocument) (asked : Graph → WellKnown → Bool) : Bool :=
  match load docs with
  | .error _ => false
  | .ok g =>
    match WellKnown.resolve g with
    | .error _ => false
    | .ok known => asked g known

theorem exists_of_loadsWith {docs : List GraphDocument} {asked : Graph → WellKnown → Bool}
    (h : loadsWith docs asked = true) : ∃ g known, load docs = .ok g ∧
      WellKnown.resolve g = .ok known ∧ asked g known = true := by
  rw [loadsWith] at h
  split at h
  · cases h
  rename_i g hload
  split at h
  · cases h
  rename_i known hknown
  exact ⟨g, known, hload, hknown, h⟩

end LateBridge
