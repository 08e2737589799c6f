import LateBridge.Proofs.Document.Supplied

/-!
# Proofs/Document/Commuting — the hierarchy above an instantiation

    type ────────base chain, interfaces────────▸ types above
      │ substitution                                 │ substitution
      ▾                                              ▾
    instantiation ──base chain, interfaces──▸ substituted types above

A head is stored over the parameters of its declaration, and the arguments of an applied type reach
all of these.  Where heads mention no other variables (`Graph.ScopedHeads`), a substitution has
nothing to replace that the arguments do not bring along, and the square commutes for all types; it
commutes for all types only there (`hierarchy_commutes_iff`).  Loading makes such heads if names are
identifiers; the name of a nested type that holds a dot can lead a reference to a type whose outer
arguments nobody wrote (`not_commutes_of_dotted_name`).
-/

namespace LateBridge

/-- **A well-applied type**: a declared type with one argument for each type parameter along its
containing chain, or an array. -/
inductive Ty.WellApplied (names : List DeclName) : Ty → Prop where
  | named {n : DeclName} {args : List Ty} (declared : n ∈ names)
      (arity : args.length = n.totalArity) : WellApplied names (.named n args)
  | array (element : Ty) (rank : Nat) : WellApplied names (.array element rank)

theorem Ty.WellApplied.applied {names : List DeclName} {t : Ty} (h : t.WellApplied names) :
    t.Applied names := by
  cases h with
  | named declared arity =>
    refine ⟨fun _ h => (nomatch h), ?_⟩
    rintro n args ⟨⟩
    exact ⟨declared, arity.ge⟩
  | array element rank => exact applied_array names element rank

namespace Graph

variable {g : Graph} {t i : Ty} {r : Ty.Subst}

/-- **The hierarchy above a type goes along with a substitution.** -/
structure CommutesAt (g : Graph) (t : Ty) (r : Ty.Subst) : Prop where
  baseChain : g.baseChain (t.subst r) = (g.baseChain t).map (·.subst r)
  allInterfaces : {i | i ∈ g.allInterfaces (t.subst r)} = (·.subst r) '' {i | i ∈ g.allInterfaces t}

/-- **Heads mention only the type parameters along the containing chain.** -/
def ScopedHeads (g : Graph) : Prop :=
  ∀ d ∈ g.decls, ∀ h ∈ d.base?.toList ++ d.interfaces, ∀ v ∈ h.vars, v ∈ d.name.vars

/-- Declarations are found by their names. -/
def Findable (g : Graph) : Prop := ∀ d ∈ g.decls, g.decl? d.name = some d

/-! ## Scoped heads make the hierarchy commute -/

/-- The arguments of an applied type leave nothing open. -/
theorem ScopedHeads.spares (hg : g.ScopedHeads) (hfind : g.Findable) (ht : t.Applied g.names)
    (r : Ty.Subst) : g.Spares r t := by
  rintro n args d rfl hd h hh v hv hopen
  obtain ⟨declared, enough⟩ := ht.supplied n args rfl
  obtain ⟨d', hd', rfl⟩ := List.mem_map.mp declared
  obtain rfl : d' = d := Option.some.inj ((hfind d' hd').symm.trans hd)
  obtain ⟨a, -, hbound⟩ := exists_bindArgs enough (hg d' hd' h hh v hv)
  exact nomatch hopen.symm.trans hbound

section Scoped

variable (hg : g.ScopedHeads) (hfind : g.Findable) (hheads : g.AppliedHeads)

include hg hfind hheads

/-- **Base chains commute with substitution**, by induction up the base types. -/
theorem baseChain_subst (hshort : g.ShortChains) (ht : t.Applied g.names) (r : Ty.Subst) :
    g.baseChain (t.subst r) = (g.baseChain t).map (·.subst r) := by
  induction t using hshort.base_induction with
  | step t ih =>
    rw [hshort.baseChain_eq, hshort.baseChain_eq t, (hg.spares hfind ht r).base?_subst ht.ne_var]
    cases hb : g.base? t with
    | none => rfl
    | some b => simp only [Option.map_some, ih b hb (hheads.base? hb), List.map_cons]

/-- **What a substituted type reaches** is what the type reaches, substituted. -/
theorem transGen_subst_iff (ht : t.Applied g.names) : Relation.TransGen g.Extends (t.subst r) i ↔
    ∃ j, Relation.TransGen g.Extends t j ∧ i = j.subst r := by
  have hone : ∀ u : Ty, u.Applied g.names → ∀ i, g.Extends (u.subst r) i →
      ∃ j, g.Extends u j ∧ i = j.subst r := by
    intro u hu i hi
    rw [Extends, (hg.spares hfind hu r).interfaces_subst hu.ne_var] at hi
    obtain ⟨j, hj, rfl⟩ := List.mem_map.mp hi
    exact ⟨j, hj, rfl⟩
  constructor
  · intro hi
    induction hi with
    | single hi =>
      obtain ⟨j, hj, rfl⟩ := hone t ht _ hi
      exact ⟨j, .single hj, rfl⟩
    | tail _ hi ih =>
      obtain ⟨u, hu, rfl⟩ := ih
      obtain ⟨j, hj, rfl⟩ := hone u (hheads.of_transGen hu) _ hi
      exact ⟨j, hu.tail hj, rfl⟩
  · rintro ⟨j, hj, rfl⟩
    induction hj with
    | single hj => exact .single ((hg.spares hfind ht r).extends_subst hj)
    | tail hu hj ih =>
      exact ih.tail ((hg.spares hfind (hheads.of_transGen hu) r).extends_subst hj)

/-- **Interfaces commute with substitution**, as sets: types that become equal are found once. -/
theorem mem_allInterfaces_subst_iff (hshort : g.ShortChains) (hfinite : g.FiniteClosures)
    (ht : t.Applied g.names) :
    i ∈ g.allInterfaces (t.subst r) ↔ ∃ j ∈ g.allInterfaces t, j.subst r = i := by
  have howners : t.subst r :: g.baseChain (t.subst r) = (t :: g.baseChain t).map (·.subst r) := by
    rw [baseChain_subst hg hfind hheads hshort ht, List.map_cons]
  simp only [hfinite.mem_allInterfaces]
  rw [howners]
  constructor
  · rintro ⟨_, hmem, hreach⟩
    obtain ⟨o, ho, rfl⟩ := List.mem_map.mp hmem
    obtain ⟨j, hj, rfl⟩ :=
      (transGen_subst_iff hg hfind hheads (hheads.of_mem_baseChain ht ho)).mp hreach
    exact ⟨j, ⟨o, ho, hj⟩, rfl⟩
  · rintro ⟨j, ⟨o, ho, hj⟩, rfl⟩
    exact ⟨_, List.mem_map_of_mem ho,
      (transGen_subst_iff hg hfind hheads (hheads.of_mem_baseChain ht ho)).mpr ⟨j, hj, rfl⟩⟩

theorem commutesAt_of_applied (hshort : g.ShortChains) (hfinite : g.FiniteClosures)
    (ht : t.Applied g.names) (r : Ty.Subst) : g.CommutesAt t r where
  baseChain := baseChain_subst hg hfind hheads hshort ht r
  allInterfaces := Set.ext fun _ => mem_allInterfaces_subst_iff hg hfind hheads hshort hfinite ht

end Scoped

/-! ## And nothing else does -/

/-- A substitution that replaces a variable leaves it nowhere. -/
theorem notMem_vars_subst_void (v : TypeVar) (t : Ty) : v ∉ (t.subst [(v, .void)]).vars := by
  intro hmem
  obtain ⟨w, -, hw⟩ := Ty.mem_vars_subst.mp hmem
  by_cases hwv : w = v
  · subst hwv
    simp [Ty.vars] at hw
  · have hbeq : (w == v) = false := by simpa using hwv
    rw [Ty.subst_var, List.lookup_cons, hbeq, List.lookup_nil, Option.getD_none,
      Ty.mem_vars_var] at hw
    exact hwv hw.symm

/-- A head with arguments put in is above the type. -/
theorem mem_above_of_head (hshort : g.ShortChains) (hfinite : g.FiniteClosures) {d : TypeDecl}
    (hd : g.decl? d.name = some d) {h : Ty} (hh : h ∈ d.base?.toList ++ d.interfaces)
    (args : List Ty) : h.subst (d.name.bindArgs args) ∈ g.baseChain (.named d.name args) ∨
      h.subst (d.name.bindArgs args) ∈ g.allInterfaces (.named d.name args) := by
  refine (List.mem_append.mp hh).imp (fun hbase => ?_) fun hinterface => ?_
  · refine hshort.mem_baseChain.mpr ⟨_, ?_, .inl rfl⟩
    rw [base?_named hd, Option.mem_toList.mp hbase, Option.map_some]
  · refine hfinite.interfaces_subset _ ?_
    rw [interfaces_named hd]
    exact List.mem_map_of_mem hinterface

/-- **Where the hierarchy commutes, heads are scoped**: a variable that the arguments do not reach
would stand above the type, where a substitution replaces it, and above its instantiation, which is
the type itself. -/
theorem scopedHeads_of_commutesAt (hfind : g.Findable) (hshort : g.ShortChains)
    (hfinite : g.FiniteClosures)
    (hcommutes : ∀ t : Ty, t.WellApplied g.names → ∀ r, g.CommutesAt t r) : g.ScopedHeads := by
  intro d hd h hh v hv
  by_contra hscope
  let args : List Ty := d.name.vars.map fun _ => .void
  have hclosed : (Ty.named d.name args).subst [(v, .void)] = .named d.name args := by
    rw [Ty.subst_named, List.map_map]
    rfl
  have happlied : (Ty.named d.name args).WellApplied g.names :=
    .named (List.mem_map_of_mem hd) (by rw [List.length_map, d.name.length_vars])
  have hopen : (d.name.bindArgs args).lookup v = none := by
    refine List.lookup_eq_none_iff.mpr fun p hp => ?_
    have hne : v ≠ p.1 := fun heq => hscope (heq ▸ (List.of_mem_zip hp).1)
    simpa using hne
  have hstays : v ∈ (h.subst (d.name.bindArgs args)).vars :=
    Ty.mem_vars_subst.mpr ⟨v, hv, by rw [Ty.subst_var, hopen]; exact Ty.mem_vars_var.mpr rfl⟩
  have hcommutesAt := hcommutes _ happlied [(v, .void)]
  have hgone : ∀ u, u ∈ g.baseChain (.named d.name args) ∨
      u ∈ g.allInterfaces (.named d.name args) → v ∉ u.vars := by
    rintro u (hu | hu)
    · rw [← hclosed, hcommutesAt.baseChain] at hu
      obtain ⟨w, -, rfl⟩ := List.mem_map.mp hu
      exact notMem_vars_subst_void v w
    · rw [← hclosed] at hu
      obtain ⟨w, -, rfl⟩ := hcommutesAt.allInterfaces.subset hu
      exact notMem_vars_subst_void v w
  exact hgone _ (mem_above_of_head hshort hfinite (hfind d hd) hh args) hstays

end Graph

/-! ## Loaded graphs -/

/-- **Base chains and interfaces commute with instantiation exactly where heads are scoped**, and
they are if names are identifiers: in an accepted hierarchy, wherever all closures are found, and
from some visit limit on they are. -/
theorem hierarchy_commutes_iff {docs : List GraphDocument} {g : Graph} (h : load docs = .ok g)
    (hg : g.Accepted) :
    (∃ limit, ∀ n ≥ limit, (g.withVisitLimit n).FiniteClosures) ∧
      (∀ n, (g.withVisitLimit n).FiniteClosures →
        ((∀ t : Ty, t.WellApplied g.names → ∀ r, (g.withVisitLimit n).CommutesAt t r) ↔
          g.ScopedHeads)) ∧
      ((∀ doc ∈ docs, ∀ e ∈ doc.entries, e.wellNamed = true) → g.ScopedHeads) := by
  have hfind : g.Findable := fun d hd => decl?_of_mem h hd
  have hheads : g.AppliedHeads := appliedHeads_of_load h hg
  refine ⟨hg.exists_limit, fun n hfinite => ⟨fun hcommutes => ?_, fun hscoped t ht r => ?_⟩, ?_⟩
  · exact Graph.scopedHeads_of_commutesAt (g := g.withVisitLimit n) hfind
      (hg.shortChains_withVisitLimit n) hfinite hcommutes
  · exact Graph.commutesAt_of_applied (g := g.withVisitLimit n) hscoped hfind
      hheads (hg.shortChains_withVisitLimit n) hfinite ht.applied r
  · exact fun hnames d hd u hu v hv => ((wellStored_of_load h hnames).heads d hd u hu).mem_vars hv

/-! ### Two boxes that become one

A pair is a box of its first part, a box of its second part, and by its base type a box of arrays of
the first part. -/

namespace Pairs

/-- The program. -/
def docs : List GraphDocument :=
  [{ coreLibrary := false, usings := []
     types := CoreLibrary.bareTypes ++ [
      { CoreLibrary.interfaceType "Shop" "IBox" with typeParams := [CoreLibrary.param "T"] },
      { CoreLibrary.classType "Shop" "Rack" with
        typeParams := [CoreLibrary.param "T"], interfaces := ["IBox<T[]>"] },
      { CoreLibrary.classType "Shop" "Pair" with
        typeParams := [CoreLibrary.param "A", CoreLibrary.param "B"]
        base? := "Rack<A>", interfaces := ["IBox<A>", "IBox<B>"] }] }]

/-- The name of pairs. -/
def name : DeclName := .top (some "Shop") "Pair" ["A", "B"]

/-- The first part. -/
def first : TypeVar := ⟨.type name, 0, "A"⟩

/-- The second part. -/
def second : TypeVar := ⟨.type name, 1, "B"⟩

/-- Boxes of a type. -/
def boxOf (t : Ty) : Ty := .named (.top (some "Shop") "IBox" ["T"]) [t]

/-- The same type for both parts. -/
def same : Ty.Subst := [(first, .dynamic), (second, .dynamic)]

/-- The boxes a pair is. -/
def boxes : List Ty := [boxOf (.var first), boxOf (.var second), boxOf (.array (.var first) 1)]

/-- Those left when both parts are the same. -/
def sameBoxes : List Ty := [boxOf .dynamic, boxOf (.array .dynamic 1)]

end Pairs

/-- Pairs of the same type have two boxes, and the hierarchy commutes at them. -/
theorem hierarchy_commutes_pairs : ∃ g, load Pairs.docs = .ok g ∧ g.Accepted ∧
    g.FiniteClosures ∧ g.ScopedHeads ∧ g.CommutesAt Pairs.name.declared Pairs.same ∧
    (g.allInterfaces Pairs.name.declared).length = 3 ∧
    (g.allInterfaces (Pairs.name.declared.subst Pairs.same)).length = 2 := by
  have hcheck : loadsAs Pairs.docs (fun g => g.checkHierarchy 8 && decide (Pairs.name ∈ g.names) &&
      g.allInterfaces Pairs.name.declared == Pairs.boxes &&
      g.allInterfaces (Pairs.name.declared.subst Pairs.same) == Pairs.sameBoxes) = true := by
    decide +kernel
  have hnames : ∀ doc ∈ Pairs.docs, ∀ e ∈ doc.entries, e.wellNamed = true := by decide +kernel
  obtain ⟨g, hload, hasked⟩ := exists_of_loadsAs hcheck
  simp only [Bool.and_eq_true, decide_eq_true_eq, beq_iff_eq] at hasked
  obtain ⟨⟨⟨hhierarchy, hname⟩, hall⟩, hsame⟩ := hasked
  have hlawful : g.Lawful := Graph.lawful_of_checkHierarchy hhierarchy (by decide)
  have hg : g.Accepted := .of_lawful hlawful
  have happlied : Pairs.name.declared.WellApplied g.names :=
    .named hname (by rw [List.length_map, Pairs.name.length_vars])
  obtain ⟨-, hiff, hscoped⟩ := hierarchy_commutes_iff hload hg
  refine ⟨g, hload, hg, hlawful.finiteClosures, hscoped hnames, ?_, by rw [hall]; rfl,
    by rw [hsame]; rfl⟩
  exact (hiff g.visitLimit hlawful.finiteClosures).mpr (hscoped hnames) _ happlied _

/-! ### A dotted name

A class nested in a shelf is called `Store.Box`, and an imported namespace ends in `Store`, so that a
crate's base type `Box` is found behind the shelf's name; the shelf's content is then filled in, which
means nothing in a crate. -/

namespace Dotted

/-- The program. -/
def docs : List GraphDocument :=
  [{ coreLibrary := false, usings := ["Shop.Shelf`1+Store"]
     types := CoreLibrary.bareTypes ++ [
      { CoreLibrary.classType "Shop" "Shelf" with
        typeParams := [CoreLibrary.param "T"]
        nested := [CoreLibrary.classType "Shop" "Store.Box"] },
      { CoreLibrary.classType "Shop" "Crate" with base? := "Box" }] }]

/-- The name of shelves. -/
def shelf : DeclName := .top (some "Shop") "Shelf" ["T"]

/-- What a shelf holds. -/
def content : TypeVar := ⟨.type shelf, 0, "T"⟩

/-- The name of crates. -/
def crate : DeclName := .top (some "Shop") "Crate" []

/-- The box on a shelf. -/
def boxOf (t : Ty) : Ty := .named (.nested shelf "Store.Box" []) [t]

/-- Shelves that hold crates. -/
def crates : Ty.Subst := [(content, .plain crate)]

end Dotted

/-- **A name with a dot breaks the square**: crates have no type parameters, but above them stands a
type that a substitution changes. -/
theorem not_commutes_of_dotted_name : ∃ g, load Dotted.docs = .ok g ∧ g.Accepted ∧
    g.FiniteClosures ∧ (Ty.plain Dotted.crate).WellApplied g.names ∧
    ¬∀ t : Ty, t.WellApplied g.names → ∀ r, g.baseChain (t.subst r) =
        (g.baseChain t).map (·.subst r) := by
  have hcheck : loadsAs Dotted.docs (fun g =>
      g.checkHierarchy 8 && decide (Dotted.crate ∈ g.names) &&
      (g.baseChain (.plain Dotted.crate)).head? == some (Dotted.boxOf (.var Dotted.content))) =
      true := by decide +kernel
  obtain ⟨g, hload, hasked⟩ := exists_of_loadsAs hcheck
  simp only [Bool.and_eq_true, decide_eq_true_eq, beq_iff_eq] at hasked
  obtain ⟨⟨hhierarchy, hname⟩, hchain⟩ := hasked
  have hlawful : g.Lawful := Graph.lawful_of_checkHierarchy hhierarchy (by decide)
  have happlied : (Ty.plain Dotted.crate).WellApplied g.names := .named hname rfl
  refine ⟨g, hload, .of_lawful hlawful, hlawful.finiteClosures, happlied, fun hcommutes => ?_⟩
  have heq := congrArg List.head? (hcommutes _ happlied Dotted.crates)
  rw [Ty.subst_plain, List.head?_map, hchain, Option.map_some] at heq
  exact absurd heq (by decide)

end LateBridge
