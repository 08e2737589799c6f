import LateBridge.Proofs.Symbols.Assignability

/-!
# Proofs/Symbols/HierarchyCheck — a check of the declarations is enough

What is asked of a hierarchy speaks of all its types, and there is no end of them.  The declarations
decide: a base type or an interface of an instantiation is one of the declaration's heads
instantiated.  If all ways up from a declaration to its heads end in time (`climbs`), no declaration
is above itself and the visits of every walk can be counted beforehand (`visits`).
-/

namespace LateBridge.Graph

variable {g : Graph}

/-! ## Totals -/

/-- A number for every element, added up. -/
def total {α : Type} (f : α → Nat) (as : List α) : Nat := as.foldr (f · + ·) 0

@[simp] theorem total_nil {α : Type} (f : α → Nat) : total f [] = 0 := rfl

theorem total_cons {α : Type} (f : α → Nat) (a : α) (as : List α) :
    total f (a :: as) = f a + total f as := rfl

theorem total_append {α : Type} (f : α → Nat) (as bs : List α) :
    total f (as ++ bs) = total f as + total f bs := by
  induction as with
  | nil => exact (Nat.zero_add _).symm
  | cons a as ih => rw [List.cons_append, total_cons, total_cons, ih, Nat.add_assoc]

theorem total_congr {α : Type} {f f' : α → Nat} {as : List α} (h : ∀ a ∈ as, f a = f' a) :
    total f as = total f' as := by
  induction as with
  | nil => rfl
  | cons a as ih =>
    rw [total_cons, total_cons, h a List.mem_cons_self, ih fun a ha => h a (.tail _ ha)]

/-! ## What is checked -/

/-- The declarations directly above one: of its base type and of its interfaces. -/
def headNames (g : Graph) (n : DeclName) : List DeclName :=
  match g.decl? n with
  | none => []
  | some d => (d.base?.toList ++ d.interfaces).filterMap Ty.declName?

/-- Whether all ways up from a declaration have fewer steps. -/
def climbs (g : Graph) : Nat → DeclName → Bool
  | 0, _ => false
  | k + 1, n => (g.headNames n).all (g.climbs k)

/-- The declarations of the direct interfaces. -/
def interfaceNames (g : Graph) (n : DeclName) : List DeclName :=
  match g.decl? n with
  | none => []
  | some d => d.interfaces.filterMap Ty.declName?

/-- How many visits a walk makes from a declaration on, without skipping any. -/
def visits (g : Graph) : Nat → DeclName → Nat
  | 0, _ => 1
  | k + 1, n => total (g.visits k) (g.interfaceNames n) + 1

/-- **Whether the declarations make a lawful hierarchy**, with at most so many steps on a way up. -/
def checkHierarchy (g : Graph) (k : Nat) : Bool :=
  g.decls.all fun d =>
    d.base?.toList.all (fun b => g.kind? b == some .classType) &&
      (d.kind != .interface || d.base?.isNone) && d.interfaces.all g.isInterface &&
      g.climbs (k + 1) d.name && decide (g.visits (k + 1) d.name ≤ g.visitLimit)

/-- Whether the roots are declared as the core library declares them. -/
def checkRoots (g : Graph) : Bool :=
  (g.find? Special.object.metadata).all (fun d =>
      d.kind == .classType && d.base?.isNone && d.interfaces.isEmpty) &&
    (g.find? Special.valueType.metadata).all (fun d =>
      d.base?.toList.all (·.isSpecial .object) && d.interfaces.isEmpty) &&
    (g.find? Special.array.metadata).all (·.kind == .classType)

theorem rooted_of_checkRoots (h : g.checkRoots = true) : g.Rooted := by
  simp only [checkRoots, Bool.and_eq_true, Option.all_eq_true, List.all_eq_true, beq_iff_eq,
    Option.isNone_iff_eq_none, List.isEmpty_iff, Option.mem_toList] at h
  obtain ⟨⟨hobject, hvalue⟩, harray⟩ := h
  refine ⟨fun d hd => ?_, hvalue, harray⟩
  obtain ⟨⟨hkind, hbase⟩, hnone⟩ := hobject d hd
  exact ⟨hkind, hbase, hnone⟩

theorem headNames_of_decl? {n : DeclName} {d : TypeDecl} (h : g.decl? n = some d) :
    g.headNames n = g.headNames d.name := by
  rw [headNames, headNames, h, decl?_of_find? h]

theorem interfaceNames_of_decl? {n : DeclName} {d : TypeDecl} (h : g.decl? n = some d) :
    g.interfaceNames n = g.interfaceNames d.name := by
  rw [interfaceNames, interfaceNames, h, decl?_of_find? h]

theorem visits_of_decl? {n : DeclName} {d : TypeDecl} (h : g.decl? n = some d) (k : Nat) :
    g.visits k n = g.visits k d.name := by
  cases k with
  | zero => rfl
  | succ k => rw [visits, visits, interfaceNames_of_decl? h]

theorem interfaceNames_subset (n : DeclName) : g.interfaceNames n ⊆ g.headNames n := by
  rw [interfaceNames, headNames]
  split
  · exact List.nil_subset _
  · rw [List.filterMap_append]
    exact List.subset_append_right _ _

theorem climbs_succ {k : Nat} {n : DeclName} (h : g.climbs k n = true) :
    g.climbs (k + 1) n = true := by
  induction k generalizing n with
  | zero => exact absurd h Bool.false_ne_true
  | succ k ih =>
    rw [climbs, List.all_eq_true] at h ⊢
    exact fun m hm => ih (h m hm)

/-- Counting further does not find more visits. -/
theorem visits_succ {k : Nat} {n : DeclName} (h : g.climbs k n = true) :
    g.visits (k + 1) n = g.visits k n := by
  induction k generalizing n with
  | zero => exact absurd h Bool.false_ne_true
  | succ k ih =>
    rw [climbs, List.all_eq_true] at h
    rw [visits, visits, total_congr fun m hm => ih (h m (interfaceNames_subset n hm))]

/-! ## What the check says -/

variable {k : Nat}

/-- What the check says of one declaration. -/
structure Checked (g : Graph) (k : Nat) (d : TypeDecl) : Prop where
  base_class : ∀ b, d.base? = some b → g.kind? b = some .classType
  interface_base : d.kind = .interface → d.base? = none
  extends_interface : ∀ i ∈ d.interfaces, g.isInterface i = true
  climbs : g.climbs (k + 1) d.name = true
  visits : g.visits (k + 1) d.name ≤ g.visitLimit

theorem checked_of_checkHierarchy (h : g.checkHierarchy k = true) {d : TypeDecl}
    (hd : d ∈ g.decls) : g.Checked k d := by
  have hall := List.all_eq_true.mp h d hd
  simp only [Bool.and_eq_true, List.all_eq_true, Option.mem_toList, beq_iff_eq, Bool.or_eq_true,
    bne_iff_ne, Option.isNone_iff_eq_none, decide_eq_true_eq] at hall
  obtain ⟨⟨⟨⟨hbase, hinterface⟩, hextends⟩, hclimbs⟩, hvisits⟩ := hall
  exact ⟨hbase, fun hkind => hinterface.resolve_left fun hne => hne hkind, hextends, hclimbs,
    hvisits⟩

/-- All ways up end in time. -/
theorem climbs_of_checkHierarchy (h : g.checkHierarchy k = true) (n : DeclName) :
    g.climbs (k + 1) n = true := by
  cases hd : g.decl? n with
  | none => simp [climbs, headNames, hd]
  | some d =>
    have hclimbs := (checked_of_checkHierarchy h (mem_decls_of_find? hd)).climbs
    rw [climbs] at hclimbs ⊢
    rwa [headNames_of_decl? hd]

/-- A base type is an instance of a declaration directly above. -/
theorem exists_headName_of_base? (h : g.checkHierarchy k = true) {n : DeclName} {args : List Ty}
    {b : Ty} (hb : g.base? (.named n args) = some b) :
    ∃ m ∈ g.headNames n, ∃ args', b = .named m args' := by
  obtain ⟨d, b', hd, hdb, rfl⟩ := base?_named_eq_some hb
  have hkind := (checked_of_checkHierarchy h (mem_decls_of_find? hd)).base_class b' hdb
  obtain ⟨m, args', _, rfl, -, -⟩ := exists_decl_of_kind? hkind
  refine ⟨m, ?_, _, Ty.subst_named _ _ _⟩
  simp [headNames, hd, hdb, Ty.declName?]

/-- A direct interface is an instance of a declaration directly above. -/
theorem exists_interfaceName_of_extends (h : g.checkHierarchy k = true) {n : DeclName}
    {args : List Ty} {i : Ty} (hi : g.Extends (.named n args) i) :
    ∃ m ∈ g.interfaceNames n, ∃ args', i = .named m args' := by
  obtain ⟨n', args', d, i', hi', heq, hd, rfl⟩ := hi.exists_decl
  cases heq
  have hextends := (checked_of_checkHierarchy h (mem_decls_of_find? hd)).extends_interface i' hi'
  obtain ⟨m, args', _, rfl, -, -⟩ := exists_decl_of_kind? (isInterface_iff.mp hextends)
  refine ⟨m, ?_, _, Ty.subst_named _ _ _⟩
  simp only [interfaceNames, hd, List.mem_filterMap]
  exact ⟨_, hi', rfl⟩

/-! ## Short chains -/

theorem ancestor?_eq_none_of_climbs (h : g.checkHierarchy k = true) {j : Nat} {n : DeclName}
    (hj : g.climbs j n = true) (args : List Ty) : g.ancestor? j (.named n args) = none := by
  induction j generalizing n args with
  | zero => exact absurd hj Bool.false_ne_true
  | succ j ih =>
    rw [ancestor?]
    cases hb : g.base? (.named n args) with
    | none => rfl
    | some b =>
      obtain ⟨m, hm, args', rfl⟩ := exists_headName_of_base? h hb
      rw [climbs, List.all_eq_true] at hj
      exact ih (hj m hm) args'

theorem shortChains_of_checkHierarchy (h : g.checkHierarchy k = true)
    (hk : k + 2 ≤ maxBaseChain) : g.ShortChains := by
  have hnamed : ∀ n args, g.ancestor? (k + 1) (.named n args) = none := fun n args =>
    ancestor?_eq_none_of_climbs h (climbs_of_checkHierarchy h n) args
  intro t
  refine ancestor?_eq_none_of_le ?_ hk
  cases t with
  | named n args => exact ancestor?_eq_none_of_le (hnamed n args) (Nat.le_succ _)
  | array element rank =>
    rw [ancestor?]
    cases hb : g.base? (.array element rank) with
    | none => rfl
    | some b =>
      obtain ⟨d, -, rfl⟩ := Option.map_eq_some_iff.mp hb
      exact hnamed d.name []
  | _ => rfl

/-! ## Finite closures -/

/-- A walk ends within any budget for all that is pending. -/
theorem visit_isSome {weight : Ty → Nat} (hweight : ∀ t, total weight (g.interfaces t) < weight t)
    {budget : Nat} {pending seen : List Ty} (h : total weight pending ≤ budget) :
    (g.visit budget pending seen).isSome := by
  induction budget generalizing pending seen with
  | zero =>
    cases pending with
    | nil => rfl
    | cons next pending =>
      have hnext := hweight next
      rw [total_cons] at h
      omega
  | succ budget ih =>
    cases pending with
    | nil => rfl
    | cons next pending =>
      have hnext := hweight next
      rw [total_cons] at h
      rw [visit]
      split
      · exact ih (by omega)
      · refine ih ?_
        rw [total_append]
        omega

/-- The visits from a type on. -/
def weight (g : Graph) (k : Nat) (t : Ty) : Nat := (t.declName?.map (g.visits k)).getD 1

theorem total_weight_subst {is : List Ty} (h : ∀ i ∈ is, g.isInterface i = true) (s : Ty.Subst) :
    total (g.weight k) (is.map (·.subst s)) = total (g.visits k) (is.filterMap Ty.declName?) := by
  induction is with
  | nil => rfl
  | cons i is ih =>
    obtain ⟨m, args, _, rfl, -, -⟩ :=
      exists_decl_of_kind? (isInterface_iff.mp (h i List.mem_cons_self))
    have hrest := ih fun i hi => h i (List.mem_cons_of_mem _ hi)
    rw [List.map_cons, total_cons, hrest, Ty.subst_named]
    rfl

theorem total_weight_interfaces (h : g.checkHierarchy k = true) (n : DeclName) (args : List Ty) :
    total (g.weight (k + 1)) (g.interfaces (.named n args)) < g.visits (k + 1) n := by
  have hvisits : total (g.weight (k + 1)) (g.interfaces (.named n args)) =
      total (g.visits (k + 1)) (g.interfaceNames n) := by
    cases hd : g.decl? n with
    | none => simp [interfaces, interfaceNames, hd]
    | some d =>
      simp only [interfaces, interfaceNames, hd]
      have hchecked := checked_of_checkHierarchy h (mem_decls_of_find? hd)
      exact total_weight_subst hchecked.extends_interface _
  rw [hvisits, ← visits_succ (climbs_of_checkHierarchy h n), visits]
  exact Nat.lt_succ_self _

theorem finiteClosures_of_checkHierarchy (h : g.checkHierarchy k = true) : g.FiniteClosures := by
  have hweight : ∀ t, total (g.weight (k + 1)) (g.interfaces t) < g.weight (k + 1) t := by
    intro t
    cases t with
    | named n args => exact total_weight_interfaces h n args
    | _ => exact Nat.one_pos
  intro t
  refine visitOwners_isSome fun o _ seen => visit_isSome hweight ?_
  cases o with
  | named n args =>
    cases hd : g.decl? n with
    | none => simp [interfaces, hd]
    | some d =>
      have hlimit := (checked_of_checkHierarchy h (mem_decls_of_find? hd)).visits
      rw [← visits_of_decl? hd] at hlimit
      exact Nat.le_of_lt (Nat.lt_of_lt_of_le (total_weight_interfaces h n args) hlimit)
  | _ => exact Nat.zero_le _

/-- **A checked hierarchy is lawful.** -/
theorem lawful_of_checkHierarchy (h : g.checkHierarchy k = true) (hk : k + 2 ≤ maxBaseChain) :
    g.Lawful where
  base_class _ hd := (checked_of_checkHierarchy h hd).base_class
  interface_base _ hd := (checked_of_checkHierarchy h hd).interface_base
  extends_interface _ hd := (checked_of_checkHierarchy h hd).extends_interface
  shortChains := shortChains_of_checkHierarchy h hk
  finiteClosures := finiteClosures_of_checkHierarchy h

/-! ## One instance -/

/-- A declaration has fewer steps above it than another one. -/
def Above (g : Graph) (n m : DeclName) : Prop :=
  ∀ k, g.climbs (k + 1) n = true → g.climbs k m = true

theorem above_of_mem_headNames {n m : DeclName} (h : m ∈ g.headNames n) : g.Above n m :=
  fun _ hk => List.all_eq_true.mp hk m h

theorem Above.trans {n m p : DeclName} (h : g.Above n m) (h' : g.Above m p) : g.Above n p :=
  fun k hk => h' k (climbs_succ (h k hk))

/-- No declaration is above itself. -/
theorem not_above_self {n : DeclName} (h : g.climbs k n = true) : ¬g.Above n n := by
  intro habove
  induction k with
  | zero => exact absurd h Bool.false_ne_true
  | succ k ih => exact ih (habove k h)

/-- A type of a declaration above that of a named type. -/
def IsAbove (g : Graph) (t u : Ty) : Prop :=
  ∀ n args, t = .named n args → ∃ m args', u = .named m args' ∧ g.Above n m

theorem isAbove_of_mem_baseChain (h : g.checkHierarchy k = true) (hg : g.ShortChains) {t u : Ty}
    (hu : u ∈ g.baseChain t) : g.IsAbove t u := by
  induction t using hg.base_induction with
  | step t ih =>
    rintro n args rfl
    obtain ⟨b, hb, hub⟩ := hg.mem_baseChain.mp hu
    obtain ⟨m, hm, args', rfl⟩ := exists_headName_of_base? h hb
    obtain rfl | hub := hub
    · exact ⟨m, args', rfl, above_of_mem_headNames hm⟩
    · obtain ⟨p, args'', rfl, hp⟩ := ih _ hb hub m args' rfl
      exact ⟨p, args'', rfl, (above_of_mem_headNames hm).trans hp⟩

theorem isAbove_of_transGen (h : g.checkHierarchy k = true) {t u : Ty}
    (hu : Relation.TransGen g.Extends t u) : g.IsAbove t u := by
  induction hu with
  | single hi =>
    rintro n args rfl
    obtain ⟨m, hm, args', rfl⟩ := exists_interfaceName_of_extends h hi
    exact ⟨m, args', rfl, above_of_mem_headNames (interfaceNames_subset n hm)⟩
  | tail _ hi ih =>
    rintro n args rfl
    obtain ⟨m, args', rfl, hm⟩ := ih n args rfl
    obtain ⟨p, hp, args'', rfl⟩ := exists_interfaceName_of_extends h hi
    exact ⟨p, args'', rfl, hm.trans (above_of_mem_headNames (interfaceNames_subset m hp))⟩

/-- **In a checked hierarchy no type has another instantiation of its declaration above it.** -/
theorem oneInstance_of_checkHierarchy (h : g.checkHierarchy k = true)
    (hk : k + 2 ≤ maxBaseChain) : g.OneInstance := by
  have hshort := shortChains_of_checkHierarchy h hk
  intro n args args' hmem
  have habove : g.IsAbove (.named n args) (.named n args') := by
    obtain hmem | hmem := List.mem_append.mp hmem
    · exact isAbove_of_mem_baseChain h hshort hmem
    · obtain ⟨o, ho, hreach⟩ := (finiteClosures_of_checkHierarchy h).mem_allInterfaces.mp hmem
      obtain rfl | ho := List.mem_cons.mp ho
      · exact isAbove_of_transGen h hreach
      · rintro n args ⟨⟩
        obtain ⟨m, args₁, rfl, hm⟩ := isAbove_of_mem_baseChain h hshort ho n args rfl
        obtain ⟨p, args₂, heq, hp⟩ := isAbove_of_transGen h hreach m args₁ rfl
        exact ⟨p, args₂, heq, hm.trans hp⟩
  obtain ⟨m, args₁, heq, hm⟩ := habove n args rfl
  cases heq
  exact absurd hm (not_above_self (climbs_of_checkHierarchy h n))

end LateBridge.Graph
