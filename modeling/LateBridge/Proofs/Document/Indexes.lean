import LateBridge.Proofs.Document.Order
import LateBridge.Proofs.Document.SymbolTables

/-!
# Proofs/Document/Indexes — the tables behind a loaded graph

    documents ──load──▸ graph ──find?, special?, nestedIn, methods, …──▸ answers
        ╰──declare──▸ tables ──names, special types, lists of ids──────────╯

A graph finds its declarations by going through all of them, tables look them up.  Both declare the
types of the documents in one order, so an id is a place among the declarations, the methods or the
type parameters of the graph.  Whatever is asked, the tables lead to the answer of the graph
(`SymbolTables.Answers`), and they agree with each other (`indexes_consistent`).
-/

namespace LateBridge

/-! ## Places -/

/-- **Where some things stand** in a list. -/
def Places {α : Type} (as : List α) (ids : List Nat) (bs : List α) : Prop :=
  ids.map (as[·]?) = bs.map some

namespace Places

variable {α : Type} {as bs : List α} {ids : List Nat}

theorem nil (as : List α) : Places as [] [] := rfl

/-- Places stay when a list grows. -/
theorem append (h : Places as ids bs) (cs : List α) : Places (as ++ cs) ids bs := by
  rw [Places, ← h]
  refine List.map_congr_left fun j hj => ?_
  have hmem : as[j]? ∈ bs.map some := h ▸ List.mem_map_of_mem hj
  obtain ⟨b, -, hb⟩ := List.mem_map.mp hmem
  rw [← hb, List.getElem?_append_left (List.getElem?_eq_some_iff.mp hb.symm).1]
  exact hb.symm

/-- **What a list grows by** stands behind what was there. -/
theorem new (as cs : List α) : Places (as ++ cs) (List.range' as.length cs.length) cs := by
  refine List.ext_getElem? fun j => ?_
  rw [List.getElem?_map, List.getElem?_map]
  by_cases hj : j < cs.length
  · rw [List.getElem?_range' hj, Option.map_some, Nat.one_mul,
      List.getElem?_append_right (Nat.le_add_right _ _), Nat.add_sub_cancel_left,
      List.getElem?_eq_getElem hj, Option.map_some]
  · rw [List.getElem?_eq_none (by simpa using hj), List.getElem?_eq_none (by simpa using hj)]
    rfl

theorem concat (h : Places as ids bs) (c : α) :
    Places (as ++ [c]) (ids ++ [as.length]) (bs ++ [c]) := by
  rw [Places, List.map_append, h.append [c], List.map_append]
  exact congrArg _ (new as [c])

end Places

namespace Listing

variable {α β : Type} {owners : List β} {owner : β} {ids ids' : List Nat}

/-- What belongs to an owner can be listed in one way. -/
theorem unique (h : Listing owners owner ids) (h' : Listing owners owner ids') : ids = ids' :=
  List.Perm.eq_of_pairwise (fun _ _ _ _ hab hba => absurd hab (Nat.lt_asymm hba)) h.increasing
    h'.increasing ((List.perm_ext_iff_of_nodup h.nodup h'.nodup).mpr fun j =>
      (h.mem j).trans (h'.mem j).symm)

theorem exists_places [BEq β] [LawfulBEq β] (f : α → β) (as : List α) (owner : β) :
    ∃ ids, Listing (as.map f) owner ids ∧ Places as ids (as.filter (f · == owner)) := by
  induction as using List.reverseRecOn with
  | nil => exact ⟨[], ⟨by simp, .nil⟩, .nil []⟩
  | append_singleton as a ih =>
    obtain ⟨ids, hlisting, hplaces⟩ := ih
    rw [List.map_append, List.filter_append]
    by_cases ha : f a = owner
    · refine ⟨ids ++ [as.length], hlisting.grow 1 (fun _ => ?_) (fun hne => absurd ha hne), ?_⟩
      · rw [List.length_map]
        rfl
      · rw [List.filter_cons_of_pos (by simpa using ha)]
        exact hplaces.concat a
    · refine ⟨ids, hlisting.grow 1 (fun h => absurd h ha) (fun _ => rfl), ?_⟩
      rw [List.filter_cons_of_neg (by simpa using ha)]
      exact List.append_nil _ ▸ hplaces.append [a]

/-- **A listing leads to what belongs to the owner.** -/
theorem places [BEq β] [LawfulBEq β] {f : α → β} {as : List α} (h : Listing (as.map f) owner ids) :
    Places as ids (as.filter (f · == owner)) := by
  obtain ⟨_, hlisting, hplaces⟩ := exists_places f as owner
  exact h.unique hlisting ▸ hplaces

end Listing

/-! ## Declarations and their tables -/

/-- **Type parameters as their documents have them**, with their ordinals. -/
def ParamsMatch (docs : List TypeParamDoc) (params : List TypeParam) : Prop :=
  params.map (fun p => (p.var.name, p.var.ordinal)) =
    docs.zipIdx.map fun (doc, index) => (doc.name, index % Nat.pow 2 16)

theorem ParamsMatch.length_eq {docs : List TypeParamDoc} {params : List TypeParam}
    (h : ParamsMatch docs params) : params.length = docs.length := by
  simpa using congrArg List.length h

/-- **A method as its document has it**, with an accessibility that can be read. -/
structure MethodMatches (doc : MethodDoc) (m : Method) : Prop where
  accessible : (Accessibility.ofText? doc.accessibility).isSome
  params : ParamsMatch doc.typeParams m.typeParams

/-- **A type as its entry has it.** -/
structure EntryMatches (e : Entry) (d : TypeDecl) : Prop where
  name : d.name = e.name
  params : ParamsMatch e.doc.typeParams d.typeParams
  methods : List.Forall₂ MethodMatches e.doc.methods d.methods

theorem TypeDoc.outer?_nameIn (outer : Option DeclName) (doc : TypeDoc) :
    (doc.nameIn outer).outer? = outer := by
  cases outer <;> rfl

theorem paramsMatch_of_core {owner : Owner} {docs : List TypeParamDoc} {params : List TypeParam}
    (h : params.map TypeParam.core = (Entry.declareParams owner docs).map TypeParam.core) :
    ParamsMatch docs params := by
  have hmap := congrArg (List.map fun c : TypeVar × Constraints => (c.1.name, c.1.ordinal)) h
  rw [List.map_map, List.map_map] at hmap
  refine hmap.trans ?_
  rw [Entry.declareParams, List.map_map]
  rfl

theorem Graph.LoadsMethod.matches {g : Graph} {e : Entry} {doc : MethodDoc} {m : Method}
    (h : g.LoadsMethod e doc m) : MethodMatches doc m := by
  refine ⟨?_, paramsMatch_of_core h.core⟩
  obtain ⟨position, declared, -, hdeclared, -⟩ := h
  rw [Entry.declareMethod] at hdeclared
  split at hdeclared
  · cases hdeclared
  · rename_i haccess
    rw [haccess]
    rfl

theorem Entry.Loads.matches {outline : Graph} {e : Entry} {d : TypeDecl}
    (h : e.Loads outline d) : EntryMatches e d := by
  have hbinds := h.binds
  refine ⟨hbinds.name, paramsMatch_of_core hbinds.typeParams, ?_⟩
  obtain ⟨declared, generics, head, hdeclared, hgenerics, -, hbind⟩ := h
  obtain ⟨methods, hmethods, hbind⟩ := bind_eq_ok_iff.mp hbind
  cases hbind
  exact (Graph.forall₂_loadsMethod hdeclared hgenerics hmethods).imp fun _ _ => (·.matches)

namespace SymbolTables

/-- **Tables that keep up with declarations**: ids are places, and lists of ids lead to what the
declarations hold. -/
structure Mirrors (t : SymbolTables) (decls : List TypeDecl) (methods : List Method)
    (params : List TypeParam) : Prop where
  length : t.defs.length = decls.length
  lengthMethods : t.methods.length = methods.length
  labels : t.params.map (fun p => (p.name, p.ordinal)) =
    params.map fun p => (p.var.name, p.var.ordinal)
  metadata : ∀ id d, decls[id]? = some d → t.metadata id = d.metadata
  containing : ∀ id d, decls[id]? = some d →
    d.name.outer? = (t.containing? id).bind fun outer => (decls[outer]?).map (·.name)
  methodsOf : ∀ id d, decls[id]? = some d → Places methods (t.methodsOf id) d.methods
  paramsOf : ∀ id d, decls[id]? = some d → Places params (t.paramsOf (.type id)) d.typeParams
  methodParams : ∀ id m, methods[id]? = some m →
    Places params (t.paramsOf (.method id)) m.typeParams

theorem mirrors_empty : empty.Mirrors [] [] [] where
  length := rfl
  lengthMethods := rfl
  labels := rfl
  metadata := by simp
  containing := by simp
  methodsOf := by simp
  paramsOf := by simp
  methodParams := by simp

/-- What stands in a list with a new end. -/
theorem getElem?_concat_cases {α : Type} {as : List α} {a b : α} {k : Nat}
    (h : (as ++ [a])[k]? = some b) : as[k]? = some b ∧ k < as.length ∨ k = as.length ∧ b = a := by
  rcases Nat.lt_trichotomy k as.length with hk | rfl | hk
  · rw [List.getElem?_append_left hk] at h
    exact .inl ⟨h, hk⟩
  · rw [List.getElem?_concat_length] at h
    exact .inr ⟨rfl, (Option.some_inj.mp h).symm⟩
  · rw [List.getElem?_append_right (Nat.le_of_lt hk), List.getElem?_eq_none] at h
    · cases h
    · exact Nat.le_sub_of_add_le' hk

theorem map_paramRecords {owner : ParamOwner} {docs : List TypeParamDoc} {params : List TypeParam}
    (h : ParamsMatch docs params) : (paramRecords owner docs).map (fun p => (p.name, p.ordinal)) =
      params.map fun p => (p.var.name, p.var.ordinal) := by
  rw [h, paramRecords, List.map_map]
  rfl

section Steps

variable {t : SymbolTables} {decls : List TypeDecl} {methods : List Method}
  {params : List TypeParam}

theorem Mirrors.length_params (h : t.Mirrors decls methods params) :
    t.params.length = params.length := by
  simpa using congrArg List.length h.labels

/-- The ids of new type parameters are their places. -/
theorem Mirrors.places_newParams (h : t.Mirrors decls methods params) {docs : List TypeParamDoc}
    {new : List TypeParam} (hnew : ParamsMatch docs new) :
    Places (params ++ new) (t.newParams docs) new := by
  rw [newParams, h.length_params, ← hnew.length_eq]
  exact .new params new

/-- **A new type** comes behind the declarations, still without its methods. -/
theorem Mirrors.opened (h : t.Mirrors decls methods params) (hbefore : ContainedBefore t.defs)
    {outer? : Option Nat} {doc : TypeDoc} (houter : ∀ outer ∈ outer?, outer < t.defs.length)
    {d : TypeDecl} (hmethods : d.methods = []) (hmetadata : t.documentName outer? doc = d.metadata)
    (hname : d.name.outer? = outer?.bind fun outer => (decls[outer]?).map (·.name))
    (hparams : ParamsMatch doc.typeParams d.typeParams) :
    (t.opened outer? doc).Mirrors (decls ++ [d]) methods (params ++ d.typeParams) where
  length := by rw [length_defs_opened houter, h.length, List.length_append, List.length_singleton]
  lengthMethods := h.lengthMethods
  labels := by
    rw [List.map_append, ← h.labels, ← map_paramRecords hparams, ← List.map_append]
    rfl
  metadata := fun id d' hd' => by
    rcases getElem?_concat_cases hd' with ⟨hd', hid⟩ | ⟨rfl, rfl⟩
    · rw [metadata_opened hbefore houter (h.length ▸ hid), h.metadata id d' hd']
    · rw [← h.length, metadata_opened_self hbefore houter, hmetadata]
  containing := fun id d' hd' => by
    have hvalid : ∀ around : Option Nat, (∀ outer ∈ around, outer < t.defs.length) →
        (around.bind fun outer => ((decls ++ [d])[outer]?).map (·.name)) =
          around.bind fun outer => (decls[outer]?).map (·.name) := by
      intro around haround
      cases around with
      | none => rfl
      | some outer =>
        rw [Option.bind_some, Option.bind_some,
          List.getElem?_append_left (h.length ▸ haround outer rfl)]
    rcases getElem?_concat_cases hd' with ⟨hd', hid⟩ | ⟨rfl, rfl⟩
    · rw [containing?_opened houter (h.length ▸ hid), hvalid, h.containing id d' hd']
      intro outer hcontaining
      obtain ⟨r, hr, hcontaining⟩ := Option.bind_eq_some_iff.mp hcontaining
      exact Nat.lt_trans (hbefore id r outer hr hcontaining) (h.length ▸ hid)
    · rw [← h.length, containing?_opened_self houter, hvalid outer? houter, hname]
  methodsOf := fun id d' hd' => by
    rw [methodsOf_opened houter]
    rcases getElem?_concat_cases hd' with ⟨hd', -⟩ | ⟨rfl, rfl⟩
    · exact h.methodsOf id d' hd'
    · rw [hmethods, ← h.length]
      simp [SymbolTables.methodsOf, Places]
  paramsOf := fun id d' hd' => by
    rcases getElem?_concat_cases hd' with ⟨hd', hid⟩ | ⟨rfl, rfl⟩
    · rw [paramsOf_opened houter fun e => Nat.ne_of_gt (h.length ▸ hid) (ParamOwner.type.inj e)]
      exact (h.paramsOf id d' hd').append d.typeParams
    · rw [← h.length, paramsOf_opened_self houter]
      exact h.places_newParams hparams
  methodParams := fun id m hm => (h.methodParams id m hm).append d.typeParams

/-- **A new method** of the last type comes behind the methods. -/
theorem Mirrors.withMethod {d : TypeDecl} (h : t.Mirrors (decls ++ [d]) methods params)
    (hbefore : ContainedBefore t.defs) {doc : MethodDoc} {m : Method}
    (hparams : ParamsMatch doc.typeParams m.typeParams) :
    (t.withMethod decls.length doc).Mirrors (decls ++ [{ d with methods := d.methods ++ [m] }])
      (methods ++ [m]) (params ++ m.typeParams) := by
  have hlast : (decls ++ [d])[decls.length]? = some d := List.getElem?_concat_length
  have hold : ∀ id d', decls[id]? = some d' ∧ id < decls.length →
      (decls ++ [d])[id]? = some d' := fun id d' ⟨hd', hid⟩ => by
    rwa [List.getElem?_append_left hid]
  have hnames : ∀ outer : Nat, ((decls ++ [{ d with methods := d.methods ++ [m] }])[outer]?).map
      TypeDecl.name = ((decls ++ [d])[outer]?).map TypeDecl.name := by
    intro outer
    rw [← List.getElem?_map, ← List.getElem?_map, List.map_append, List.map_append]
    rfl
  refine ⟨?_, ?_, ?_, fun id d' hd' => ?_, fun id d' hd' => ?_, fun id d' hd' => ?_,
    fun id d' hd' => ?_, fun id m' hm' => ?_⟩
  · simpa [SymbolTables.withMethod] using h.length
  · simp [methods_withMethod, h.lengthMethods]
  · rw [List.map_append, ← h.labels, ← map_paramRecords hparams, ← List.map_append]
    rfl
  · rw [metadata_withMethod hbefore]
    rcases getElem?_concat_cases hd' with hd' | ⟨rfl, rfl⟩
    · exact h.metadata id d' (hold id d' hd')
    · exact h.metadata _ d hlast
  · simp only [containing?_withMethod, hnames]
    rcases getElem?_concat_cases hd' with hd' | ⟨rfl, rfl⟩
    · exact h.containing id d' (hold id d' hd')
    · exact h.containing _ d hlast
  · rcases getElem?_concat_cases hd' with hd' | ⟨rfl, rfl⟩
    · rw [methodsOf_withMethod (Nat.ne_of_gt hd'.2)]
      exact (h.methodsOf id d' (hold id d' hd')).append [m]
    · rw [methodsOf_withMethod_self (by simp [h.length]), h.lengthMethods]
      exact (h.methodsOf _ d hlast).concat m
  · rw [paramsOf_withMethod ParamOwner.noConfusion]
    rcases getElem?_concat_cases hd' with hd' | ⟨rfl, rfl⟩
    · exact (h.paramsOf id d' (hold id d' hd')).append m.typeParams
    · exact (h.paramsOf _ d hlast).append m.typeParams
  · rcases getElem?_concat_cases hm' with ⟨hm', hid⟩ | ⟨rfl, rfl⟩
    · rw [paramsOf_withMethod fun e => Nat.ne_of_gt (h.lengthMethods ▸ hid)
        (ParamOwner.method.inj e)]
      exact (h.methodParams id m' hm').append m.typeParams
    · rw [← h.lengthMethods, paramsOf_withMethod_self]
      exact h.places_newParams hparams

end Steps

/-! ## Runs -/

/-- The type parameters of a type and of its methods. -/
def paramsWithin (d : TypeDecl) : List TypeParam := d.typeParams ++ d.methods.flatMap (·.typeParams)

/-- **The methods of a type are declared**, one after the other. -/
theorem Mirrors.declareMethods {docs : List MethodDoc} {ms : List Method}
    (hms : List.Forall₂ MethodMatches docs ms) {t : SymbolTables} {decls : List TypeDecl}
    {methods : List Method} {params : List TypeParam} {d : TypeDecl}
    (h : t.Mirrors (decls ++ [d]) methods params) (ht : t.Consistent) :
    ∃ t', docs.foldlM (declareMethod · decls.length) t = .ok t' ∧
      t'.Mirrors (decls ++ [{ d with methods := d.methods ++ ms }]) (methods ++ ms)
        (params ++ ms.flatMap (·.typeParams)) := by
  induction hms generalizing t methods params d with
  | nil => exact ⟨t, rfl, by simpa using h⟩
  | @cons doc m docs ms hm _ ih =>
    have hstep : t.declareMethod decls.length doc = .ok (t.withMethod decls.length doc) := by
      rw [declareMethod]
      split
      · rename_i hnone
        have := hm.accessible
        rw [hnone] at this
        cases this
      · rfl
    have hlast : decls.length < t.defs.length := by simp [h.length]
    obtain ⟨t', hrun, hmirrors⟩ :=
      ih (h.withMethod ht.before hm.params) (ht.step (.method hlast hstep))
    refine ⟨t', ?_, by simpa using hmirrors⟩
    rw [List.foldlM_cons, hstep]
    exact hrun

/-- **The name by the document is the name of the declaration.** -/
theorem Mirrors.documentName {t : SymbolTables} {decls : List TypeDecl} {methods : List Method}
    {params : List TypeParam} (h : t.Mirrors decls methods params) {outer? : Option Nat}
    (houter : ∀ outer ∈ outer?, outer < t.defs.length) (doc : TypeDoc) :
    t.documentName outer? doc =
      (doc.nameIn (outer?.bind fun outer => (decls[outer]?).map (·.name))).metadata := by
  cases outer? with
  | none => simp [SymbolTables.documentName, spelling, TypeDoc.nameIn, DeclName.metadata]
  | some outer =>
    have hlt : outer < decls.length := h.length ▸ houter outer rfl
    have hmetadata := h.metadata outer _ (List.getElem?_eq_getElem hlt)
    simp [SymbolTables.documentName, spelling, TypeDoc.nameIn, DeclName.metadata, hmetadata,
      List.getElem?_eq_getElem hlt, TypeDecl.metadata]

/-- **A type is declared and gets its methods**, if no declaration has its name. -/
theorem Mirrors.declareOuter {t : SymbolTables} {decls : List TypeDecl} {methods : List Method}
    {params : List TypeParam} (h : t.Mirrors decls methods params) (ht : t.Consistent)
    {outer? : Option Nat} (houter : ∀ outer ∈ outer?, outer < t.defs.length) {doc : TypeDoc}
    {usings : List String} {d : TypeDecl} (hd : EntryMatches ⟨doc,
      doc.nameIn (outer?.bind fun outer => (decls[outer]?).map (·.name)), usings⟩ d)
    (hfresh : d.metadata ∉ decls.map (·.metadata)) :
    ∃ opened filled, t.openType outer? doc = .ok opened ∧
      doc.methods.foldlM (declareMethod · t.defs.length) opened = .ok filled ∧
      filled.Mirrors (decls ++ [d]) (methods ++ d.methods) (params ++ paramsWithin d) := by
  have hmetadata : t.documentName outer? doc = d.metadata := by
    rw [h.documentName houter, TypeDecl.metadata, hd.name]
  have hfree : t.defByName? (t.documentName outer? doc) = none := by
    refine Option.eq_none_iff_forall_ne_some.mpr fun id hfound => hfresh ?_
    obtain ⟨hid, hname⟩ := (ht.byName _ id).mp hfound
    have hid := List.getElem?_eq_getElem (h.length ▸ hid)
    exact List.mem_map.mpr ⟨_, List.mem_of_getElem? hid,
      (h.metadata id _ hid).symm.trans (hname.trans hmetadata)⟩
  have hopen : t.openType outer? doc = .ok (t.opened outer? doc) := by
    rw [openType, hfree]
    rfl
  have hname : d.name.outer? = outer?.bind fun outer => (decls[outer]?).map (·.name) := by
    rw [hd.name, TypeDoc.outer?_nameIn]
  -- The methods come in one by one, so the type starts without them.
  have hopened := h.opened (d := { d with methods := [] }) ht.before houter rfl hmetadata hname
    hd.params
  obtain ⟨filled, hrun, hmirrors⟩ :=
    hopened.declareMethods hd.methods (ht.step (.type houter hopen))
  refine ⟨_, filled, hopen, h.length ▸ hrun, ?_⟩
  rwa [List.append_assoc] at hmirrors

mutual

/-- **A type is declared with everything in it**, as its entries have it; by induction on what is
nested in it. -/
theorem Mirrors.declareType : (doc : TypeDoc) → {usings : List String} → {outer? : Option Nat} →
    {t : SymbolTables} → {decls new : List TypeDecl} → {methods : List Method} →
    {params : List TypeParam} → t.Mirrors decls methods params → t.Consistent →
    (∀ outer ∈ outer?, outer < t.defs.length) →
    List.Forall₂ EntryMatches (doc.entries usings
      (outer?.bind fun outer => (decls[outer]?).map (·.name))) new →
    ((decls ++ new).map (·.metadata)).Nodup →
    ∃ t', SymbolTables.declareType outer? t doc = .ok t' ∧
      t'.Mirrors (decls ++ new) (methods ++ new.flatMap (·.methods))
        (params ++ new.flatMap paramsWithin)
  | ⟨_, _, _, _, _, _, _, _, _, _, nested, _⟩, usings, outer?, t, decls, _, methods, params, h, ht,
      houter, hentries, hnodup => by
    rw [TypeDoc.entries] at hentries
    obtain ⟨d, new, hd, hnew, rfl⟩ := List.forall₂_cons_left_iff.mp hentries
    have hfresh : d.metadata ∉ decls.map (·.metadata) := by
      rw [List.map_append] at hnodup
      exact fun hmem => (List.nodup_append.mp hnodup).2.2 _ hmem _ List.mem_cons_self rfl
    obtain ⟨opened, filled, hopened, hfilled, hmirrors⟩ := h.declareOuter ht houter hd hfresh
    obtain ⟨hreaches, hid⟩ := reaches_declareOuter houter hopened hfilled
    have hself : ∀ outer ∈ some t.defs.length, outer < filled.defs.length := by
      rintro outer ⟨⟩
      exact hid
    have hname : ((some t.defs.length).bind fun outer => ((decls ++ [d])[outer]?).map (·.name)) =
        some d.name := by
      rw [Option.bind_some, h.length, List.getElem?_concat_length, Option.map_some]
    rw [show TypeDoc.nameIn _ _ = d.name from hd.name.symm, ← hname] at hnew
    rw [List.append_cons] at hnodup
    obtain ⟨t', hrun, hmirrors'⟩ :=
      hmirrors.declareTypes nested (ht.reaches hreaches) hself hnew hnodup
    refine ⟨t', ?_, by simpa [List.append_assoc] using hmirrors'⟩
    rw [SymbolTables.declareType]
    exact bind_eq_ok_iff.mpr ⟨opened, hopened, bind_eq_ok_iff.mpr ⟨filled, hfilled, hrun⟩⟩

theorem Mirrors.declareTypes : (docs : List TypeDoc) → {usings : List String} →
    {outer? : Option Nat} → {t : SymbolTables} → {decls new : List TypeDecl} →
    {methods : List Method} → {params : List TypeParam} → t.Mirrors decls methods params →
    t.Consistent → (∀ outer ∈ outer?, outer < t.defs.length) →
    List.Forall₂ EntryMatches (TypeDoc.entriesList usings
      (outer?.bind fun outer => (decls[outer]?).map (·.name)) docs) new →
    ((decls ++ new).map (·.metadata)).Nodup →
    ∃ t', SymbolTables.declareTypes outer? t docs = .ok t' ∧
      t'.Mirrors (decls ++ new) (methods ++ new.flatMap (·.methods))
        (params ++ new.flatMap paramsWithin)
  | [], _, _, t, _, _, _, _, h, ht, _, hnew, _ => by
    rw [TypeDoc.entriesList] at hnew
    cases hnew
    exact ⟨t, by rw [SymbolTables.declareTypes], by simpa using h⟩
  | doc :: docs, usings, outer?, t, decls, _, methods, params, h, ht, houter, hentries,
      hnodup => by
    rw [TypeDoc.entriesList] at hentries
    obtain ⟨new, more, hnew, hmore, rfl⟩ := exists_of_forall₂_append hentries
    rw [← List.append_assoc] at hnodup
    have hfirst : ((decls ++ new).map (·.metadata)).Nodup := by
      rw [List.map_append] at hnodup
      exact (List.nodup_append.mp hnodup).1
    obtain ⟨next, hnext, hmirrors⟩ := h.declareType doc ht houter hnew hfirst
    have hreaches := reaches_declareType doc houter hnext
    have hkeep : (outer?.bind fun outer => (decls[outer]?).map (·.name)) =
        outer?.bind fun outer => ((decls ++ new)[outer]?).map (·.name) := by
      cases outer? with
      | none => rfl
      | some outer =>
        rw [Option.bind_some, Option.bind_some,
          List.getElem?_append_left (h.length ▸ houter outer rfl)]
    rw [hkeep] at hmore
    have hvalid : ∀ outer ∈ outer?, outer < next.defs.length := fun outer e =>
      Nat.lt_of_lt_of_le (houter outer e) hreaches.length_le
    obtain ⟨t', hrun, hmirrors'⟩ :=
      hmirrors.declareTypes docs (ht.reaches hreaches) hvalid hmore hnodup
    refine ⟨t', ?_, by simpa [List.append_assoc] using hmirrors'⟩
    rw [SymbolTables.declareTypes, hnext]
    exact hrun

end

/-- **Documents are declared** one after the other. -/
theorem Mirrors.declareDocuments {docs : List GraphDocument} {t : SymbolTables}
    {decls new : List TypeDecl} {methods : List Method} {params : List TypeParam}
    (h : t.Mirrors decls methods params) (ht : t.Consistent)
    (hentries : List.Forall₂ EntryMatches (docs.flatMap GraphDocument.entries) new)
    (hnodup : ((decls ++ new).map (·.metadata)).Nodup) :
    ∃ t', docs.foldlM (fun t doc => SymbolTables.declareTypes none t doc.types) t = .ok t' ∧
      t'.Mirrors (decls ++ new) (methods ++ new.flatMap (·.methods))
        (params ++ new.flatMap paramsWithin) := by
  induction docs generalizing t decls new methods params with
  | nil =>
    cases hentries
    exact ⟨t, rfl, by simpa using h⟩
  | cons doc docs ih =>
    rw [List.flatMap_cons] at hentries
    obtain ⟨new, more, hnew, hmore, rfl⟩ := exists_of_forall₂_append hentries
    have htop : ∀ outer ∈ (none : Option Nat), outer < t.defs.length := by rintro _ ⟨⟩
    rw [← List.append_assoc] at hnodup
    have hfirst : ((decls ++ new).map (·.metadata)).Nodup := by
      rw [List.map_append] at hnodup
      exact (List.nodup_append.mp hnodup).1
    obtain ⟨next, hnext, hmirrors⟩ := h.declareTypes doc.types ht htop hnew hfirst
    have hreaches := reaches_declareTypes doc.types htop hnext
    obtain ⟨t', hrun, hmirrors'⟩ := ih hmirrors (ht.reaches hreaches) hmore hnodup
    refine ⟨t', ?_, by simpa [List.append_assoc] using hmirrors'⟩
    rw [List.foldlM_cons, hnext]
    exact hrun

/-! ## Answers -/

/-- **Indexes that agree**, as questions to the tables.  Definitions have different names, and names
and special types lead to what is named; what is nested in a definition, and its methods, are what
has it around it, each once and in order; and a type parameter stands in the list of its owner where
its ordinal says, and nowhere else. -/
structure Indexed (t : SymbolTables) : Prop where
  injective : ∀ id < t.defs.length, ∀ id' < t.defs.length, t.metadata id = t.metadata id' → id = id'
  byName : ∀ name id, t.defByName? name = some id ↔ id < t.defs.length ∧ t.metadata id = name
  special : ∀ s id, t.specialDef? s = some id ↔ id < t.defs.length ∧ t.metadata id = s.metadata
  nested : ∀ id j, j ∈ t.nestedOf id ↔ t.containing? j = some id
  nestedInOrder : ∀ id, (t.nestedOf id).Pairwise (· < ·)
  methods : ∀ id j, j ∈ t.methodsOf id ↔ ∃ m, t.methods[j]? = some m ∧ m.containing = id
  methodsInOrder : ∀ id, (t.methodsOf id).Pairwise (· < ·)
  params : ∀ (p : Nat) (r : ParamRecord), t.params[p]? = some r →
    (t.paramsOf r.owner).length < Nat.pow 2 16 → ∀ j, (t.paramsOf r.owner)[j]? = some p ↔ j = r.ordinal

/-- **Consistent tables have indexes that agree.** -/
theorem Consistent.indexed {t : SymbolTables} (h : t.Consistent) : t.Indexed where
  injective := fun id hid id' hid' hname =>
    Option.some_inj.mp (((h.byName _ id).mpr ⟨hid, hname⟩).symm.trans
      ((h.byName _ id').mpr ⟨hid', rfl⟩))
  byName := h.byName
  special := h.special
  nested := fun id j => ((h.nested id).mem j).trans containing?_eq_some_iff.symm
  nestedInOrder := fun id => (h.nested id).increasing
  methods := fun id j => ((h.methods id).mem j).trans (by
    rw [List.getElem?_map, Option.map_eq_some_iff])
  methodsInOrder := fun id => (h.methods id).increasing
  params := fun p r hp hlength j => by
    have hlisting := h.params.listing r.owner
    have hordinal : ∀ j, (t.paramsOf r.owner)[j]? = some p → j = r.ordinal := fun j hj => by
      have hsmall := Nat.lt_trans (List.getElem?_eq_some_iff.mp hj).1 hlength
      have := h.params.ordinal r.owner j p hj
      rw [hp, Option.map_some, Option.some_inj, Nat.mod_eq_of_lt hsmall] at this
      exact this.symm
    refine ⟨hordinal j, fun hj => ?_⟩
    -- The owner lists the parameter somewhere, so it does at the place of the ordinal.
    have hmem : p ∈ t.paramsOf r.owner := by
      rw [hlisting.mem, List.getElem?_map, hp, Option.map_some]
    obtain ⟨place, hplace⟩ := List.mem_iff_getElem?.mp hmem
    rw [hj, ← hordinal place hplace]
    exact hplace

/-- **Tables that answer for a graph**: an id is a place in the graph, and whatever the graph is
asked, the tables lead to its answer. -/
structure Answers (t : SymbolTables) (g : Graph) : Prop where
  length : t.defs.length = g.decls.length
  metadata : ∀ id d, g.decls[id]? = some d → t.metadata id = d.metadata
  labels : t.params.map (fun p => (p.name, p.ordinal)) =
    g.typeParams.map fun p => (p.var.name, p.var.ordinal)
  find? : ∀ name, g.find? name = (t.defByName? name).bind (g.decls[·]?)
  special? : ∀ s, g.special? s =
    ((t.specialDef? s).bind (g.decls[·]?)).map fun d => Ty.plain d.name
  nestedIn : ∀ id d, g.decls[id]? = some d → Places g.decls (t.nestedOf id) (g.nestedIn d.name)
  methods : ∀ id d, g.decls[id]? = some d → Places g.methods (t.methodsOf id) d.methods
  typeParams : ∀ id d, g.decls[id]? = some d →
    Places g.typeParams (t.paramsOf (.type id)) d.typeParams
  methodTypeParams : ∀ id m, g.methods[id]? = some m →
    Places g.typeParams (t.paramsOf (.method id)) m.typeParams

section Answering

variable {t : SymbolTables} {g : Graph}

/-- A definition is nested in another one exactly if its declaration is. -/
theorem Mirrors.containing_iff (h : t.Mirrors g.decls g.methods g.typeParams)
    (hnodup : (g.decls.map (·.metadata)).Nodup) {id : Nat} {d : TypeDecl}
    (hd : g.decls[id]? = some d) (j : Nat) :
    t.containing? j = some id ↔ (g.decls.map (·.name.outer?))[j]? = some (some d.name) := by
  rw [List.getElem?_map, Option.map_eq_some_iff]
  constructor
  · intro hcontaining
    obtain ⟨r, hr, -⟩ := Option.bind_eq_some_iff.mp hcontaining
    have hinner := List.getElem?_eq_getElem (h.length ▸ (List.getElem?_eq_some_iff.mp hr).1)
    have houter := h.containing j _ hinner
    rw [hcontaining, Option.bind_some, hd, Option.map_some] at houter
    exact ⟨_, hinner, houter⟩
  · rintro ⟨inner, hinner, houter⟩
    have hcontaining := h.containing j inner hinner
    rw [houter, eq_comm, Option.bind_eq_some_iff] at hcontaining
    obtain ⟨outer, hcontaining, hname⟩ := hcontaining
    obtain ⟨d', hd', hname⟩ := Option.map_eq_some_iff.mp hname
    have hsame : (g.decls.map (·.metadata))[outer]? = (g.decls.map (·.metadata))[id]? := by
      rw [List.getElem?_map, List.getElem?_map, hd', hd, Option.map_some, Option.map_some,
        TypeDecl.metadata, TypeDecl.metadata, hname]
    have hlt : outer < (g.decls.map (·.metadata)).length := by
      rw [List.length_map]
      exact (List.getElem?_eq_some_iff.mp hd').1
    rwa [(List.getElem?_inj hlt hnodup).mp hsame] at hcontaining

theorem Mirrors.find?_eq (h : t.Mirrors g.decls g.methods g.typeParams) (ht : t.Consistent)
    (hnodup : (g.decls.map (·.metadata)).Nodup) (name : String) :
    g.find? name = (t.defByName? name).bind (g.decls[·]?) := by
  refine Option.ext fun d => ?_
  rw [Graph.find?_eq_some_iff hnodup, Option.bind_eq_some_iff]
  constructor
  · rintro ⟨hmem, rfl⟩
    obtain ⟨id, hid⟩ := List.mem_iff_getElem?.mp hmem
    have hlt := (List.getElem?_eq_some_iff.mp hid).1
    exact ⟨id, (ht.byName _ id).mpr ⟨h.length.symm ▸ hlt, h.metadata id d hid⟩, hid⟩
  · rintro ⟨id, hfound, hid⟩
    obtain ⟨-, hname⟩ := (ht.byName name id).mp hfound
    exact ⟨List.mem_of_getElem? hid, (h.metadata id d hid).symm.trans hname⟩

/-- A special type is found by its name. -/
theorem Consistent.specialDef?_eq (ht : t.Consistent) (s : Special) :
    t.specialDef? s = t.defByName? s.metadata :=
  Option.ext fun id => (ht.special s id).trans (ht.byName s.metadata id).symm

/-- **Tables that keep up with the declarations of a graph** answer for it. -/
theorem Mirrors.answers (h : t.Mirrors g.decls g.methods g.typeParams) (ht : t.Consistent)
    (hnodup : (g.decls.map (·.metadata)).Nodup) : t.Answers g where
  length := h.length
  metadata := h.metadata
  labels := h.labels
  find? := h.find?_eq ht hnodup
  special? := fun s => by
    rw [Graph.special?, h.find?_eq ht hnodup, ← ht.specialDef?_eq]
  nestedIn := fun id d hd => by
    have hlisting : Listing (g.decls.map (·.name.outer?)) (some d.name) (t.nestedOf id) :=
      ⟨fun j => ((ht.nested id).mem j).trans
        (containing?_eq_some_iff.symm.trans (h.containing_iff hnodup hd j)),
        (ht.nested id).increasing⟩
    exact hlisting.places
  methods := h.methodsOf
  typeParams := h.paramsOf
  methodTypeParams := h.methodParams

end Answering

end SymbolTables

/-- **The indexes of a loaded graph are consistent.**  Documents that load can be declared in tables;
the indexes of the tables agree with each other, and they answer for the graph. -/
theorem indexes_consistent {docs : List GraphDocument} {g : Graph} (h : load docs = .ok g) :
    ∃ t, SymbolTables.declare (withCoreLibrary docs) = .ok t ∧ t.Indexed ∧ t.Answers g := by
  obtain ⟨declared, -, hloads⟩ := forall₂_loads h
  have hmatches : List.Forall₂ EntryMatches ((withCoreLibrary docs).flatMap GraphDocument.entries)
      g.decls := hloads.imp fun _ _ => (·.matches)
  have hnodup := nodup_of_load h
  obtain ⟨t, hdeclare, hmirrors⟩ :=
    SymbolTables.mirrors_empty.declareDocuments SymbolTables.consistent_empty hmatches hnodup
  have hconsistent := SymbolTables.consistent_of_declare hdeclare
  exact ⟨t, hdeclare, hconsistent.indexed, hmirrors.answers hconsistent hnodup⟩

/-- The tables of a shelf with a box inside: the box has the second id, and its method and the type
parameter of that come last. -/
theorem indexes_consistent_shelf : ∃ g t, load Shelf.docs = .ok g ∧
    SymbolTables.declare (withCoreLibrary Shelf.docs) = .ok t ∧
    (t.defByName? "Shop.Shelf`1+Box`1" = some 1 ∧ t.containing? 1 = some 0 ∧ t.nestedOf 0 = [1] ∧
      t.methodsOf 1 = [0] ∧ t.paramsOf (.method 0) = [2]) ∧ t.Indexed ∧ t.Answers g := by
  have hload : loadsAs Shelf.docs (fun _ => true) = true := by decide +kernel
  have hasked : (match SymbolTables.declare (withCoreLibrary Shelf.docs) with
    | .error _ => false
    | .ok t => decide (t.defByName? "Shop.Shelf`1+Box`1" = some 1 ∧ t.containing? 1 = some 0 ∧
        t.nestedOf 0 = [1] ∧ t.methodsOf 1 = [0] ∧ t.paramsOf (.method 0) = [2])) = true := by
    decide +kernel
  obtain ⟨g, hload, -⟩ := exists_of_loadsAs hload
  obtain ⟨t, hdeclare, hindexed, hanswers⟩ := indexes_consistent hload
  rw [hdeclare] at hasked
  exact ⟨g, t, hload, hdeclare, of_decide_eq_true hasked, hindexed, hanswers⟩

end LateBridge
