import LateBridge.Proofs.Symbols.InterfaceClosure

/-!
# Proofs/Symbols/Assignability — conversion is transitive and goes along with substitution

Conversion has four ways up: to the root of all types, from a value type to the root of the value
types, along the base chain, and to an interface; between arrays it goes by their elements.  In a
hierarchy that a compiler accepts (`Lawful`), with the roots as the core library declares them
(`Rooted`), nothing above a type is a value or an array, so the ways compose
(`isAssignable_trans`).
-/

namespace LateBridge.Graph

variable {g : Graph}

/-! ## Hierarchies -/

/-- **A hierarchy that a compiler accepts**: base types are classes, interfaces have none, what is
implemented are interfaces, and going up ends. -/
structure Lawful (g : Graph) : Prop where
  base_class : ∀ d ∈ g.decls, ∀ b, d.base? = some b → g.kind? b = some .classType
  interface_base : ∀ d ∈ g.decls, d.kind = .interface → d.base? = none
  extends_interface : ∀ d ∈ g.decls, ∀ i ∈ d.interfaces, g.isInterface i = true
  shortChains : g.ShortChains
  finiteClosures : g.FiniteClosures

/-- **The roots as the core library declares them**: classes, with nothing above the root of all
types and only that above the root of the value types. -/
structure Rooted (g : Graph) : Prop where
  object : ∀ d, g.find? Special.object.metadata = some d →
    d.kind = .classType ∧ d.base? = none ∧ d.interfaces = []
  valueType : ∀ d, g.find? Special.valueType.metadata = some d →
    (∀ b, d.base? = some b → b.isSpecial .object = true) ∧ d.interfaces = []
  array : ∀ d, g.find? Special.array.metadata = some d → d.kind = .classType

/-- **No type has another instantiation of its declaration among its base types and interfaces.** -/
def OneInstance (g : Graph) : Prop :=
  ∀ n args args', .named n args' ∈ g.baseChain (.named n args) ++ g.allInterfaces (.named n args) →
    args' = args

/-! ## Kinds -/

theorem declName?_subst {t : Ty} {n : DeclName} (h : t.declName? = some n) (r : Ty.Subst) :
    (t.subst r).declName? = some n := by
  cases t with
  | named m args =>
    rw [Ty.subst_named]
    exact h
  | _ => simp [Ty.declName?] at h

theorem kind?_subst {t : Ty} {k : Kind} (h : g.kind? t = some k) (r : Ty.Subst) :
    g.kind? (t.subst r) = some k := by
  rw [kind?, Option.bind_eq_some_iff] at h
  obtain ⟨n, hn, hk⟩ := h
  rw [kind?, declName?_subst hn, Option.bind_some, hk]

theorem isInterface_iff {t : Ty} : g.isInterface t = true ↔ g.kind? t = some .interface := by
  rw [isInterface, beq_iff_eq]

/-- A type of a kind is a named type with a declaration of that kind. -/
theorem exists_decl_of_kind? {t : Ty} {k : Kind} (h : g.kind? t = some k) :
    ∃ n args d, t = .named n args ∧ g.decl? n = some d ∧ d.kind = k := by
  cases t with
  | named n args =>
    rw [kind?, Ty.declName?, Option.bind_some, Option.map_eq_some_iff] at h
    obtain ⟨d, hd, hk⟩ := h
    exact ⟨n, args, d, rfl, hd, hk⟩
  | _ => simp [kind?, Ty.declName?] at h

theorem isValueType_eq_false_of_kind? {t : Ty} {k : Kind} (h : g.kind? t = some k)
    (hk : k.isValue = false) : g.isValueType t = false := by
  obtain ⟨n, args, d, rfl, hd, rfl⟩ := exists_decl_of_kind? h
  simp [isValueType, hd, TypeDecl.isValueType, hk]

/-- A type of a special type is named, and its declaration is found under the special name. -/
theorem exists_named_of_isSpecial {t : Ty} {s : Special} (h : t.isSpecial s = true) :
    ∃ n args, t = .named n args ∧ g.decl? n = g.find? s.metadata := by
  cases t with
  | named n args =>
    have hn : Special.ofMetadata? n.metadata = some s := by
      simpa [Ty.isSpecial, Ty.special?, Ty.declName?, DeclName.special?] using h
    exact ⟨n, args, rfl, by rw [decl?, Special.metadata_of_ofMetadata? hn]⟩
  | _ => simp [Ty.isSpecial, Ty.special?, Ty.declName?] at h

theorem isSpecial_subst {t : Ty} {s : Special} (h : t.isSpecial s = true) (r : Ty.Subst) :
    (t.subst r).isSpecial s = true := by
  cases t with
  | named n args =>
    rw [Ty.subst_named]
    exact h
  | _ => simp [Ty.isSpecial, Ty.special?, Ty.declName?] at h

/-! ## Above a type -/

/-- Base types are classes. -/
theorem Lawful.kind?_of_mem_baseChain (hg : g.Lawful) (hroots : g.Rooted) {t u : Ty}
    (h : u ∈ g.baseChain t) : g.kind? u = some .classType := by
  induction t using hg.shortChains.base_induction with
  | step t ih =>
    obtain ⟨b, hb, rfl | hmem⟩ := hg.shortChains.mem_baseChain.mp h
    · cases t with
      | named n args =>
        obtain ⟨d, b, hd, hdb, rfl⟩ := base?_named_eq_some hb
        exact kind?_subst (hg.base_class d (mem_decls_of_find? hd) b hdb) _
      | array element rank =>
        obtain ⟨d, hd, rfl⟩ := Option.map_eq_some_iff.mp hb
        simp [kind?, Ty.plain, Ty.declName?, decl?_of_find? hd, hroots.array d hd]
      | _ => simp [base?] at hb
    · exact ih b hb hmem

/-- What is extended is an interface. -/
theorem Lawful.kind?_of_extends (hg : g.Lawful) {t i : Ty} (h : g.Extends t i) :
    g.kind? i = some .interface := by
  obtain ⟨n, args, d, i', hi', rfl, hd, rfl⟩ := h.exists_decl
  have hinterface := hg.extends_interface d (mem_decls_of_find? hd) i' hi'
  exact kind?_subst (isInterface_iff.mp hinterface) _

theorem Lawful.kind?_of_mem_allInterfaces (hg : g.Lawful) {t i : Ty}
    (h : i ∈ g.allInterfaces t) : g.kind? i = some .interface := by
  obtain ⟨o, -, hreach⟩ := hg.finiteClosures.mem_allInterfaces.mp h
  cases hreach with
  | single hi => exact hg.kind?_of_extends hi
  | tail _ hi => exact hg.kind?_of_extends hi

/-- Nothing is above a type without a base type. -/
theorem ShortChains.baseChain_eq_nil (hg : g.ShortChains) {t : Ty} (h : g.base? t = none) :
    g.baseChain t = [] := by
  rw [hg.baseChain_eq t, h]

theorem Lawful.baseChain_of_interface (hg : g.Lawful) {i : Ty}
    (h : g.kind? i = some .interface) : g.baseChain i = [] := by
  obtain ⟨n, args, d, rfl, hd, hk⟩ := exists_decl_of_kind? h
  refine hg.shortChains.baseChain_eq_nil ?_
  rw [base?_named hd, hg.interface_base d (mem_decls_of_find? hd) hk, Option.map_none]

/-- The interfaces of an interface of a type are interfaces of the type. -/
theorem Lawful.mem_allInterfaces_trans (hg : g.Lawful) {s i j : Ty}
    (hj : j ∈ g.allInterfaces i) (hi : i ∈ g.allInterfaces s) : j ∈ g.allInterfaces s := by
  obtain ⟨o, ho, hreach⟩ := hg.finiteClosures.mem_allInterfaces.mp hi
  obtain ⟨o', ho', hreach'⟩ := hg.finiteClosures.mem_allInterfaces.mp hj
  rw [hg.baseChain_of_interface (hg.kind?_of_mem_allInterfaces hi), List.mem_singleton] at ho'
  subst ho'
  exact hg.finiteClosures.mem_allInterfaces.mpr ⟨o, ho, hreach.trans hreach'⟩

/-- Arrays have the same base types, whatever their elements. -/
theorem ShortChains.baseChain_array (hg : g.ShortChains) (e e' : Ty) (r r' : Nat) :
    g.baseChain (.array e r) = g.baseChain (.array e' r') := by
  rw [hg.baseChain_eq, hg.baseChain_eq (.array e' r')]
  rfl

/-- Arrays have the same interfaces, whatever their elements. -/
theorem Lawful.allInterfaces_array (hg : g.Lawful) {e e' i : Ty} {r r' : Nat}
    (h : i ∈ g.allInterfaces (.array e r)) : i ∈ g.allInterfaces (.array e' r') := by
  obtain ⟨o, ho, hreach⟩ := hg.finiteClosures.mem_allInterfaces.mp h
  rw [hg.shortChains.baseChain_array e e' r r'] at ho
  refine hg.finiteClosures.mem_allInterfaces.mpr ⟨o, ?_, hreach⟩
  obtain rfl | ho := List.mem_cons.mp ho
  · obtain ⟨i', hi', -⟩ := Relation.TransGen.head'_iff.mp hreach
    exact absurd hi' List.not_mem_nil
  · exact List.mem_cons_of_mem _ ho

/-! ## Above the roots -/

/-- Interfaces come only with something that declares them. -/
theorem FiniteClosures.allInterfaces_eq_nil (hg : g.FiniteClosures) {t : Ty}
    (h : ∀ o ∈ t :: g.baseChain t, g.interfaces o = []) : g.allInterfaces t = [] := by
  refine List.eq_nil_iff_forall_not_mem.mpr fun i hi => ?_
  obtain ⟨o, ho, hreach⟩ := hg.mem_allInterfaces.mp hi
  obtain ⟨i', hi', -⟩ := Relation.TransGen.head'_iff.mp hreach
  rw [Extends, h o ho] at hi'
  exact absurd hi' List.not_mem_nil

/-- Nothing is above the root of all types. -/
theorem Rooted.above_object (hroots : g.Rooted) {t : Ty} (h : t.isSpecial .object = true) :
    g.base? t = none ∧ g.interfaces t = [] := by
  obtain ⟨n, args, rfl, hfind⟩ := exists_named_of_isSpecial h
  cases hd : g.decl? n with
  | none => simp [base?, interfaces, hd]
  | some d =>
    obtain ⟨-, hbase, hinterfaces⟩ := hroots.object d (hfind ▸ hd)
    rw [base?_named hd, hbase, interfaces_named hd, hinterfaces]
    exact ⟨rfl, rfl⟩

/-- Above the root of the value types is only the root of all types. -/
theorem Rooted.above_valueType (hroots : g.Rooted) {t : Ty}
    (h : t.isSpecial .valueType = true) :
    (∀ b, g.base? t = some b → b.isSpecial .object = true) ∧ g.interfaces t = [] := by
  obtain ⟨n, args, rfl, hfind⟩ := exists_named_of_isSpecial h
  cases hd : g.decl? n with
  | none => simp [base?, interfaces, hd]
  | some d =>
    obtain ⟨hbase, hinterfaces⟩ := hroots.valueType d (hfind ▸ hd)
    rw [interfaces_named hd, hinterfaces, base?_named hd]
    refine ⟨fun b hb => ?_, rfl⟩
    obtain ⟨b', hb', rfl⟩ := Option.map_eq_some_iff.mp hb
    exact isSpecial_subst (hbase b' hb') _

/-- The roots hold no values themselves. -/
theorem Rooted.isValueType_root (hroots : g.Rooted) {t : Ty}
    (h : t.isSpecial .object = true ∨ t.isSpecial .valueType = true) :
    g.isValueType t = false := by
  obtain h | h := h
  · obtain ⟨n, args, rfl, hfind⟩ := exists_named_of_isSpecial h
    cases hd : g.decl? n with
    | none => simp [isValueType, hd]
    | some d =>
      obtain ⟨hk, -⟩ := hroots.object d (hfind ▸ hd)
      simp [isValueType, hd, TypeDecl.isValueType, hk, Kind.isValue]
  · obtain ⟨n, args, rfl, hfind⟩ := exists_named_of_isSpecial h
    cases hd : g.decl? n with
    | none => simp [isValueType, hd]
    | some d =>
      have hspecial : d.special? = some .valueType := by
        rw [TypeDecl.special?, DeclName.special?, metadata_of_find? (hfind ▸ hd),
          Special.ofMetadata?_metadata]
      simp [isValueType, hd, TypeDecl.isValueType, hspecial]

/-! ## The ways up -/

/-- **Conversion, unless between arrays**: the same type, the root of all types, from a value type
to the root of the value types, to a base type, or to an interface. -/
theorem isAssignable_iff {s t : Ty} (harrays : ∀ e r e' r', s = .array e r → t ≠ .array e' r') :
    g.isAssignable s t = true ↔ s = t ∨ t.isSpecial .object = true ∨
      (t.isSpecial .valueType = true ∧ g.isValueType s = true) ∨ t ∈ g.baseChain s ∨
      t ∈ g.allInterfaces s := by
  cases s with
  | array e r =>
    have hvalue : g.isValueType (.array e r) = false := rfl
    cases t with
    | array e' r' => exact absurd rfl (harrays e r e' r' rfl)
    | _ => simp [isAssignable, hvalue]
  | _ => simp [isAssignable, or_assoc]

/-- **Conversion between arrays**: of the same rank, and with the same elements or elements that
convert by reference. -/
theorem isAssignable_array {e e' : Ty} {r r' : Nat} :
    g.isAssignable (.array e r) (.array e' r') = true ↔
      r = r' ∧ (e = e' ∨ (g.isValueType e = false ∧ g.isAssignable e e' = true)) := by
  simp only [isAssignable, Ty.isSpecial, Ty.special?, Ty.declName?, Option.bind_none,
    Bool.or_eq_true, beq_iff_eq, Bool.and_eq_true, Bool.not_eq_true', Ty.array.injEq]
  constructor
  · rintro ((⟨rfl, rfl⟩ | h) | h)
    · exact ⟨rfl, .inl rfl⟩
    · exact absurd h (by simp)
    · exact h
  · exact .inr

/-- Graphs with the same hierarchy and kinds of types convert alike. -/
theorem isAssignable_congr {g' : Graph} (hchain : g'.baseChain = g.baseChain)
    (hall : g'.allInterfaces = g.allInterfaces) (hvalue : g'.isValueType = g.isValueType) :
    g'.isAssignable = g.isAssignable := by
  funext s
  induction s using Ty.induct with
  | array e r ih =>
    funext t
    cases t <;> simp only [isAssignable, hchain, hall, hvalue, ih]
  | _ =>
    funext t
    simp only [isAssignable, hchain, hall, hvalue]

/-- Everything converts to the root of all types. -/
theorem isAssignable_of_isSpecial_object {s t : Ty} (h : t.isSpecial .object = true) :
    g.isAssignable s t = true := by
  refine (isAssignable_iff ?_).mpr (.inr (.inl h))
  rintro e r e' r' rfl rfl
  simp [Ty.isSpecial, Ty.special?, Ty.declName?] at h

/-- Value types convert to the root of the value types. -/
theorem isAssignable_of_isSpecial_valueType {s t : Ty} (ht : t.isSpecial .valueType = true)
    (hs : g.isValueType s = true) : g.isAssignable s t = true := by
  refine (isAssignable_iff ?_).mpr (.inr (.inr (.inl ⟨ht, hs⟩)))
  rintro e r e' r' rfl rfl
  exact absurd hs Bool.false_ne_true

/-- A type above another one by base types or interfaces is no array. -/
theorem ne_array_of_kind? {t : Ty} {k : Kind} (h : g.kind? t = some k) (e : Ty) (r : Nat) :
    t ≠ .array e r := by
  rintro rfl
  simp [kind?, Ty.declName?] at h

theorem Lawful.isAssignable_of_mem_baseChain (hg : g.Lawful) (hroots : g.Rooted) {s t : Ty}
    (h : t ∈ g.baseChain s) : g.isAssignable s t = true :=
  (isAssignable_iff fun _ _ e r _ =>
    ne_array_of_kind? (hg.kind?_of_mem_baseChain hroots h) e r).mpr (.inr (.inr (.inr (.inl h))))

theorem Lawful.isAssignable_of_mem_allInterfaces (hg : g.Lawful) {s t : Ty}
    (h : t ∈ g.allInterfaces s) : g.isAssignable s t = true :=
  (isAssignable_iff fun _ _ e r _ =>
    ne_array_of_kind? (hg.kind?_of_mem_allInterfaces h) e r).mpr (.inr (.inr (.inr (.inr h))))

/-! ## Transitivity -/

/-- What is above a type that a type converts to is above the type itself, or the root. -/
theorem Lawful.mem_baseChain_of_isAssignable (hg : g.Lawful) (hroots : g.Rooted) {a b c : Ty}
    (hab : g.isAssignable a b = true) (hc : c ∈ g.baseChain b) :
    c ∈ g.baseChain a ∨ c.isSpecial .object = true := by
  by_cases harrays : ∃ e r e' r', a = .array e r ∧ b = .array e' r'
  · obtain ⟨e, r, e', r', rfl, rfl⟩ := harrays
    exact .inl (hg.shortChains.baseChain_array e e' r r' ▸ hc)
  · obtain rfl | hobject | ⟨hvalue, -⟩ | hbase | hinterface :=
      (isAssignable_iff fun e r e' r' ha hb => harrays ⟨e, r, e', r', ha, hb⟩).mp hab
    · exact .inl hc
    · rw [hg.shortChains.baseChain_eq_nil (hroots.above_object hobject).1] at hc
      exact absurd hc List.not_mem_nil
    · obtain ⟨u, hu, rfl | hmem⟩ := hg.shortChains.mem_baseChain.mp hc
      · exact .inr ((hroots.above_valueType hvalue).1 _ hu)
      · have hobject := (hroots.above_valueType hvalue).1 u hu
        rw [hg.shortChains.baseChain_eq_nil (hroots.above_object hobject).1] at hmem
        exact absurd hmem List.not_mem_nil
    · exact .inl (hg.shortChains.mem_baseChain_trans hc hbase)
    · rw [hg.baseChain_of_interface (hg.kind?_of_mem_allInterfaces hinterface)] at hc
      exact absurd hc List.not_mem_nil

/-- An interface of a type that a type converts to is an interface of the type itself. -/
theorem Lawful.mem_allInterfaces_of_isAssignable (hg : g.Lawful) (hroots : g.Rooted) {a b c : Ty}
    (hab : g.isAssignable a b = true) (hc : c ∈ g.allInterfaces b) : c ∈ g.allInterfaces a := by
  by_cases harrays : ∃ e r e' r', a = .array e r ∧ b = .array e' r'
  · obtain ⟨e, r, e', r', rfl, rfl⟩ := harrays
    exact hg.allInterfaces_array hc
  · obtain rfl | hobject | ⟨hvalue, -⟩ | hbase | hinterface :=
      (isAssignable_iff fun e r e' r' ha hb => harrays ⟨e, r, e', r', ha, hb⟩).mp hab
    · exact hc
    · obtain ⟨hbase, hinterfaces⟩ := hroots.above_object hobject
      rw [hg.finiteClosures.allInterfaces_eq_nil
        (by simp [hg.shortChains.baseChain_eq_nil hbase, hinterfaces])] at hc
      exact absurd hc List.not_mem_nil
    · obtain ⟨hbase, hinterfaces⟩ := hroots.above_valueType hvalue
      have hnone : ∀ o ∈ b :: g.baseChain b, g.interfaces o = [] := by
        intro o ho
        obtain rfl | ho := List.mem_cons.mp ho
        · exact hinterfaces
        · obtain ⟨u, hu, hou⟩ := hg.shortChains.mem_baseChain.mp ho
          obtain ⟨hnobase, hnone⟩ := hroots.above_object (hbase u hu)
          rw [hg.shortChains.baseChain_eq_nil hnobase] at hou
          obtain rfl : o = u := hou.resolve_right List.not_mem_nil
          exact hnone
      rw [hg.finiteClosures.allInterfaces_eq_nil hnone] at hc
      exact absurd hc List.not_mem_nil
    · exact hg.finiteClosures.mem_allInterfaces_of_mem_baseChain hg.shortChains hc hbase
    · exact hg.mem_allInterfaces_trans hc hinterface

/-- A value type is reached only from itself. -/
theorem Lawful.eq_of_isAssignable_of_isValueType (hg : g.Lawful) (hroots : g.Rooted) {a b : Ty}
    (hab : g.isAssignable a b = true) (hb : g.isValueType b = true) : a = b := by
  have harrays : ∀ e r e' r', a = .array e r → b ≠ .array e' r' := by
    rintro e r e' r' rfl rfl
    exact absurd hb Bool.false_ne_true
  obtain rfl | hobject | ⟨hvalue, -⟩ | hbase | hinterface := (isAssignable_iff harrays).mp hab
  · rfl
  · exact absurd hb (by simp [hroots.isValueType_root (.inl hobject)])
  · exact absurd hb (by simp [hroots.isValueType_root (.inr hvalue)])
  · have hk := hg.kind?_of_mem_baseChain hroots hbase
    exact absurd hb (by simp [isValueType_eq_false_of_kind? hk rfl])
  · have hk := hg.kind?_of_mem_allInterfaces hinterface
    exact absurd hb (by simp [isValueType_eq_false_of_kind? hk rfl])

/-- An array is reached only from arrays. -/
theorem Lawful.exists_array_of_isAssignable (hg : g.Lawful) (hroots : g.Rooted) {a e : Ty}
    {r : Nat} (h : g.isAssignable a (.array e r) = true) : ∃ e' r', a = .array e' r' := by
  by_cases ha : ∃ e' r', a = .array e' r'
  · exact ha
  · obtain rfl | hobject | ⟨hvalue, -⟩ | hbase | hinterface :=
      (isAssignable_iff fun e' r' _ _ heq => absurd ⟨e', r', heq⟩ ha).mp h
    · exact ⟨e, r, rfl⟩
    · simp [Ty.isSpecial, Ty.special?, Ty.declName?] at hobject
    · simp [Ty.isSpecial, Ty.special?, Ty.declName?] at hvalue
    · exact absurd rfl (ne_array_of_kind? (hg.kind?_of_mem_baseChain hroots hbase) e r)
    · exact absurd rfl (ne_array_of_kind? (hg.kind?_of_mem_allInterfaces hinterface) e r)

/-- Conversion composes when its second part is not between arrays. -/
theorem Lawful.isAssignable_trans_up (hg : g.Lawful) (hroots : g.Rooted) {a b c : Ty}
    (hab : g.isAssignable a b = true) (hbc : g.isAssignable b c = true)
    (harrays : ∀ e r e' r', b = .array e r → c ≠ .array e' r') : g.isAssignable a c = true := by
  obtain rfl | hobject | ⟨hvalue, hb⟩ | hbase | hinterface := (isAssignable_iff harrays).mp hbc
  · exact hab
  · exact isAssignable_of_isSpecial_object hobject
  · rwa [hg.eq_of_isAssignable_of_isValueType hroots hab hb]
  · obtain hbase | hobject := hg.mem_baseChain_of_isAssignable hroots hab hbase
    · exact hg.isAssignable_of_mem_baseChain hroots hbase
    · exact isAssignable_of_isSpecial_object hobject
  · exact hg.isAssignable_of_mem_allInterfaces
      (hg.mem_allInterfaces_of_isAssignable hroots hab hinterface)

/-- **Conversion is transitive.**  The induction is on the elements of arrays. -/
theorem Lawful.isAssignable_trans (hg : g.Lawful) (hroots : g.Rooted) {a b c : Ty}
    (hab : g.isAssignable a b = true) (hbc : g.isAssignable b c = true) :
    g.isAssignable a c = true := by
  induction a using Ty.induct generalizing b c with
  | array e r ih =>
    by_cases harrays : ∃ e₁ r₁ e₂ r₂, b = .array e₁ r₁ ∧ c = .array e₂ r₂
    · obtain ⟨e₁, r₁, e₂, r₂, rfl, rfl⟩ := harrays
      obtain ⟨rfl, he⟩ := isAssignable_array.mp hab
      obtain ⟨rfl, he₁⟩ := isAssignable_array.mp hbc
      refine isAssignable_array.mpr ⟨rfl, ?_⟩
      obtain rfl | ⟨hv, hee₁⟩ := he
      · exact he₁
      · obtain rfl | ⟨-, he₁e₂⟩ := he₁
        · exact .inr ⟨hv, hee₁⟩
        · exact .inr ⟨hv, ih hee₁ he₁e₂⟩
    · exact hg.isAssignable_trans_up hroots hab hbc fun e₁ r₁ e₂ r₂ hb hc =>
        harrays ⟨e₁, r₁, e₂, r₂, hb, hc⟩
  | _ =>
    refine hg.isAssignable_trans_up hroots hab hbc fun e₁ r₁ _ _ hb _ => ?_
    obtain ⟨e', r', h⟩ := hg.exists_array_of_isAssignable hroots (hb ▸ hab)
    exact Ty.noConfusion h

end LateBridge.Graph
