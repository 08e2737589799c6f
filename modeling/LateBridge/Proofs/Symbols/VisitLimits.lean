import LateBridge.Proofs.Symbols.HierarchyCheck
import LateBridge.Proofs.Symbols.WalkOrder

/-!
# Proofs/Symbols/VisitLimits — one visit limit for all instances

    interface as declared ──variables renamed apart──▸ pattern ──what it extends──▸ patterns
          │ arguments put in                              │ instance                   │ instance
          ▾                                               ▾                            ▾
    interface of a type ═══════════════════════════════ instance ──what it extends──▸ instances

There is no end of types, and each has an interface closure of its own.  But what an interface
extends does not depend on its arguments: with its variables renamed apart, a declared interface is a
pattern, every instance of it extends the instances of what the pattern extends, and there are
finitely many patterns.  So where all closures are finite, one visit limit is enough for all types
(`FinitelyExtends.exists_visit_limit`).  What a compiler accepts (`Graph.Accepted`) is then lawful
from some visit limit on, and conversion is a preorder (`isAssignable_preorder`).
-/

namespace LateBridge

namespace Graph

variable {g : Graph}

/-! ## Renaming apart -/

/-- The variables of the declared base types and interfaces. -/
def headVars (g : Graph) : List TypeVar :=
  g.decls.flatMap fun d => (d.base?.toList ++ d.interfaces).flatMap Ty.vars

/-- A number larger than the place of every variable of a head. -/
def room (g : Graph) : Nat := (g.headVars.map (·.index)).sum + 1

/-- The variable renamed apart. -/
def apartVar (g : Graph) (v : TypeVar) : TypeVar := { v with index := v.index + g.room }

/-- The variable that was renamed apart. -/
def originalVar (g : Graph) (v : TypeVar) : TypeVar := { v with index := v.index - g.room }

/-- **The renaming** of the variables of heads. -/
def apart (g : Graph) : Ty.Subst := g.headVars.map fun v => (v, .var (g.apartVar v))

/-- **The instance** of what was renamed apart: each variable becomes what the substitution puts in
for the original one. -/
def instantiate (g : Graph) (s : Ty.Subst) : Ty.Subst :=
  (g.headVars.map g.apartVar).map fun v => (v, (Ty.var (g.originalVar v)).subst s)

theorem mem_headVars {d : TypeDecl} (hd : d ∈ g.decls) {h : Ty}
    (hh : h ∈ d.base?.toList ++ d.interfaces) {v : TypeVar} (hv : v ∈ h.vars) : v ∈ g.headVars :=
  List.mem_flatMap.mpr ⟨d, hd, List.mem_flatMap.mpr ⟨h, hh, hv⟩⟩

@[simp] theorem originalVar_apartVar (v : TypeVar) : g.originalVar (g.apartVar v) = v := by
  simp [originalVar, apartVar]

theorem apartVar_notMem_headVars (v : TypeVar) : g.apartVar v ∉ g.headVars := by
  intro hmem
  have hle : (g.apartVar v).index ≤ (g.headVars.map (·.index)).sum :=
    List.le_sum_of_mem (List.mem_map_of_mem hmem)
  simp only [apartVar, room] at hle
  omega

/-- Instances leave the heads alone. -/
theorem untouched_instantiate (g : Graph) (s : Ty.Subst) : g.Untouched (g.instantiate s) := by
  intro d hd h hh v hv
  refine List.lookup_eq_none_iff.mpr fun p hp => ?_
  obtain ⟨w, hw, rfl⟩ := List.mem_map.mp hp
  obtain ⟨u, -, rfl⟩ := List.mem_map.mp hw
  have hne : v ≠ g.apartVar u := by
    rintro rfl
    exact apartVar_notMem_headVars u (mem_headVars hd hh hv)
  simpa using hne

/-- **Putting in arguments is renaming apart and taking an instance.** -/
theorem subst_apart_instantiate {t : Ty} (h : ∀ v ∈ t.vars, v ∈ g.headVars) (s : Ty.Subst) :
    (t.subst g.apart).subst (g.instantiate s) = t.subst s := by
  rw [Ty.subst_subst]
  refine Ty.subst_congr t fun v hv => ?_
  have happart : g.apart.lookup v = some (.var (g.apartVar v)) := List.lookup_graph _ (h v hv)
  have hinstance : (g.instantiate s).lookup (g.apartVar v) = some ((Ty.var v).subst s) := by
    rw [instantiate, List.lookup_graph _ (List.mem_map_of_mem (h v hv)), originalVar_apartVar]
  rw [Ty.subst_var, Ty.lookup_andThen, happart, Option.map_some, Option.some_or, Option.getD_some,
    Ty.subst_var, hinstance, Option.getD_some]

/-! ## Patterns -/

/-- **The declared interfaces**, renamed apart. -/
def patterns (g : Graph) : List Ty := g.decls.flatMap fun d => d.interfaces.map (·.subst g.apart)

/-- Declared interfaces are interfaces. -/
def ExtendsInterfaces (g : Graph) : Prop :=
  ∀ d ∈ g.decls, ∀ i ∈ d.interfaces, g.isInterface i = true

theorem ExtendsInterfaces.kind?_of_mem_patterns (hg : g.ExtendsInterfaces) {p : Ty}
    (hp : p ∈ g.patterns) : g.kind? p = some .interface := by
  obtain ⟨d, hd, hp⟩ := List.mem_flatMap.mp hp
  obtain ⟨i, hi, rfl⟩ := List.mem_map.mp hp
  exact kind?_subst (isInterface_iff.mp (hg d hd i hi)) _

/-- What patterns reach are interfaces, so no variables. -/
theorem ExtendsInterfaces.kind?_of_reach (hg : g.ExtendsInterfaces) {p t : Ty}
    (hp : p ∈ g.patterns) (h : Relation.ReflTransGen g.Extends p t) :
    g.kind? t = some .interface := by
  cases h with
  | refl => exact hg.kind?_of_mem_patterns hp
  | tail _ hi =>
    obtain ⟨n, args, d, i', hi', rfl, hd, rfl⟩ := hi.exists_decl
    exact kind?_subst (isInterface_iff.mp (hg d (mem_decls_of_find? hd) i' hi')) _

theorem FinitelyExtends.finite_reach (hg : g.FinitelyExtends) :
    {t | ∃ p ∈ g.patterns, Relation.ReflTransGen g.Extends p t}.Finite := by
  have hone : ∀ p, {t | Relation.ReflTransGen g.Extends p t}.Finite := fun p =>
    ((hg p).insert p).subset fun t ht =>
      (Relation.reflTransGen_iff_eq_or_transGen.mp ht).imp_left id
  refine (Set.Finite.biUnion g.patterns.finite_toSet fun p _ => hone p).subset fun t ht => ?_
  obtain ⟨p, hp, hreach⟩ := ht
  exact Set.mem_biUnion hp hreach

/-! ## Instances of what patterns reach -/

section Instances

variable {reached : Finset Ty} {r : Ty.Subst} (hr : g.Untouched r)
  (hvar : ∀ t ∈ reached, ∀ v, t ≠ .var v)

include hr hvar

/-- The instances of a closed set are a closed set. -/
theorem closedSet_image (hclosed : g.ClosedSet reached) :
    g.ClosedSet (reached.image (·.subst r)) := by
  intro t ht i hi
  obtain ⟨u, hu, rfl⟩ := Finset.mem_image.mp ht
  rw [Extends, (hr.spares u).interfaces_subst (hvar u hu)] at hi
  obtain ⟨j, hj, rfl⟩ := List.mem_map.mp hi
  exact Finset.mem_image_of_mem _ (hclosed u hu j hj)

/-- Instances have as many interfaces. -/
theorem unvisited_image_le : g.unvisited (reached.image (·.subst r)) [] ≤ g.unvisited reached [] := by
  rw [unvisited, unvisited, List.toFinset_nil, Finset.sdiff_empty, Finset.sdiff_empty]
  calc ∑ t ∈ reached.image (·.subst r), (g.interfaces t).length
      ≤ ∑ t ∈ reached, (g.interfaces (t.subst r)).length :=
        Finset.sum_image_le_of_nonneg fun _ _ => Nat.zero_le _
    _ = ∑ t ∈ reached, (g.interfaces t).length := Finset.sum_congr rfl fun t ht => by
        rw [(hr.spares t).interfaces_subst (hvar t ht), List.length_map]

end Instances

/-! ## The limit -/

/-- **One budget lets the walk over the interfaces of every type end.** -/
theorem FinitelyExtends.exists_budget (hg : g.FinitelyExtends) (hextends : g.ExtendsInterfaces) :
    ∃ budget, ∀ o seen, (g.visit budget (g.interfaces o) seen).isSome := by
  obtain ⟨reached, hreached⟩ := hg.finite_reach.exists_finset
  have hclosed : g.ClosedSet reached := by
    intro t ht i hi
    obtain ⟨p, hp, hreach⟩ := (hreached t).mp ht
    exact (hreached i).mpr ⟨p, hp, hreach.tail hi⟩
  have hvar : ∀ t ∈ reached, ∀ v, t ≠ .var v := by
    rintro t ht v rfl
    obtain ⟨p, hp, hreach⟩ := (hreached _).mp ht
    cases hextends.kind?_of_reach hp hreach
  refine ⟨(g.decls.map (·.interfaces.length)).sum + g.unvisited reached [], fun o seen => ?_⟩
  by_cases hnone : g.interfaces o = []
  · rw [hnone]
    cases (g.decls.map (·.interfaces.length)).sum + g.unvisited reached [] <;> rfl
  obtain ⟨i, hi⟩ := List.exists_mem_of_ne_nil _ hnone
  obtain ⟨n, args, d, -, -, rfl, hd, -⟩ := Extends.exists_decl hi
  have hdecl : d ∈ g.decls := mem_decls_of_find? hd
  have hr := g.untouched_instantiate (n.bindArgs args)
  refine visit_isSome_of_unvisited (closedSet_image hr hvar hclosed) ?_ ?_
  · rw [interfaces_named hd]
    refine List.forall_mem_map.mpr fun i hi => ?_
    have hvars : ∀ v ∈ i.vars, v ∈ g.headVars := fun v hv =>
      mem_headVars hdecl (List.mem_append_right _ hi) hv
    have hpattern : i.subst g.apart ∈ g.patterns :=
      List.mem_flatMap.mpr ⟨d, hdecl, List.mem_map_of_mem hi⟩
    rw [← subst_apart_instantiate hvars]
    exact Finset.mem_image_of_mem _ ((hreached _).mpr ⟨_, hpattern, .refl⟩)
  · rw [interfaces_named hd, List.length_map]
    have hlength : d.interfaces.length ≤ (g.decls.map (·.interfaces.length)).sum :=
      List.le_sum_of_mem (List.mem_map_of_mem hdecl)
    have hseen : g.unvisited (reached.image (·.subst (g.instantiate (n.bindArgs args)))) seen ≤
        g.unvisited reached [] := (unvisited_le _ seen).trans (unvisited_image_le hr hvar)
    omega

/-- **Where all closures are finite, one visit limit lets all of them be found**, and so does every
larger one. -/
theorem FinitelyExtends.exists_visit_limit (hg : g.FinitelyExtends)
    (hextends : g.ExtendsInterfaces) :
    ∃ limit, ∀ n ≥ limit, (g.withVisitLimit n).FiniteClosures := by
  obtain ⟨budget, hbudget⟩ := hg.exists_budget hextends
  refine ⟨budget, fun n hn t => ?_⟩
  rw [closure?_withVisitLimit]
  refine visitOwners_isSome fun o _ seen => ?_
  obtain ⟨found, hfound⟩ := Option.isSome_iff_exists.mp (hbudget o seen)
  rw [visit_mono hn hfound, Option.isSome_some]

/-! ## Accepted hierarchies -/

/-- **A hierarchy that a compiler accepts**, however far walks may go: base types are classes,
interfaces have none, what is implemented are interfaces, going up ends, and no closure is
infinite. -/
structure Accepted (g : Graph) : Prop where
  base_class : ∀ d ∈ g.decls, ∀ b, d.base? = some b → g.kind? b = some .classType
  interface_base : ∀ d ∈ g.decls, d.kind = .interface → d.base? = none
  extends_interface : g.ExtendsInterfaces
  shortChains : g.ShortChains
  finite : ∀ t, (g.interfaceClosure t).Finite

namespace Accepted

theorem shortChains_withVisitLimit (hg : g.Accepted) (n : Nat) :
    (g.withVisitLimit n).ShortChains := by
  have hbase : (g.withVisitLimit n).base? = g.base? := rfl
  intro t
  rw [ancestor?_congr hbase]
  exact hg.shortChains t

theorem finitelyExtends (hg : g.Accepted) : g.FinitelyExtends := fun t =>
  (hg.finite t).subset fun _ hi => mem_interfaceClosure.mpr ⟨t, List.mem_cons_self, hi⟩

theorem exists_limit (hg : g.Accepted) : ∃ limit, ∀ n ≥ limit, (g.withVisitLimit n).FiniteClosures :=
  hg.finitelyExtends.exists_visit_limit hg.extends_interface

/-- **An accepted hierarchy is lawful where all closures are found.** -/
theorem lawful (hg : g.Accepted) {n : Nat} (hfinite : (g.withVisitLimit n).FiniteClosures) :
    (g.withVisitLimit n).Lawful where
  base_class := hg.base_class
  interface_base := hg.interface_base
  extends_interface := hg.extends_interface
  shortChains := hg.shortChains_withVisitLimit n
  finiteClosures := hfinite

/-- Where all closures are found, a lawful hierarchy is one that is accepted. -/
theorem of_lawful (hg : g.Lawful) : g.Accepted where
  base_class := hg.base_class
  interface_base := hg.interface_base
  extends_interface := hg.extends_interface
  shortChains := hg.shortChains
  finite t := by
    obtain ⟨found, hfound⟩ := Option.isSome_iff_exists.mp (hg.finiteClosures t)
    exact found.finite_toSet.subset fun i hi => (mem_iff_mem_interfaceClosure hfound).mpr hi

end Accepted

end Graph

/-- **Conversion is a preorder** on all types of an accepted hierarchy over the core library, wherever
all closures are found; and from some visit limit on they are. -/
theorem isAssignable_preorder {docs : List GraphDocument} {g : Graph} (h : load docs = .ok g)
    (hroots : docs.any (·.coreLibrary) = true ∨ g.Rooted) (hg : g.Accepted) :
    (∃ limit, ∀ n ≥ limit, (g.withVisitLimit n).FiniteClosures) ∧
      ∀ n, (g.withVisitLimit n).FiniteClosures →
        (∀ t, (g.withVisitLimit n).isAssignable t t = true) ∧
        ∀ a b c, (g.withVisitLimit n).isAssignable a b = true →
          (g.withVisitLimit n).isAssignable b c = true →
          (g.withVisitLimit n).isAssignable a c = true := by
  refine ⟨hg.exists_limit, fun n hfinite => ⟨Graph.isAssignable_refl _, fun a b c hab hbc => ?_⟩⟩
  have hrooted : g.Rooted := hroots.elim (rooted_of_load h) id
  have hrooted' : (g.withVisitLimit n).Rooted :=
    ⟨hrooted.object, hrooted.valueType, hrooted.array⟩
  exact (hg.lawful hfinite).isAssignable_trans hrooted' hab hbc

/-! A disc is a circle, and a circle is a shape. -/

namespace Discs

/-- The program. -/
def docs : List GraphDocument :=
  [{ coreLibrary := false, usings := []
     types := CoreLibrary.bareTypes ++ [
      { CoreLibrary.interfaceType "Shop" "IShape" with typeParams := [CoreLibrary.param "T"] },
      { CoreLibrary.classType "Shop" "Circle" with interfaces := ["IShape<Circle[]>"] },
      { CoreLibrary.classType "Shop" "Disc" with base? := "Circle" }] }]

/-- A class of the program. -/
def type (name : String) : Ty := .plain (.top (some "Shop") name [])

/-- Arrays of circles as shapes. -/
def shape : Ty := .named (.top (some "Shop") "IShape" ["T"]) [.array (type "Circle") 1]

/-- Arrays with two dimensions of arrays. -/
def grid (t : Ty) : Ty := .array (.array t 1) 2

end Discs

/-- Grids of discs convert to grids of shapes, by way of grids of circles. -/
theorem isAssignable_preorder_discs : ∃ g, load Discs.docs = .ok g ∧ g.Rooted ∧ g.Accepted ∧
    g.FiniteClosures ∧ (∃ limit, ∀ n ≥ limit, (g.withVisitLimit n).FiniteClosures) ∧
    g.isAssignable (Discs.grid (Discs.type "Disc")) (Discs.grid (Discs.type "Circle")) = true ∧
    g.isAssignable (Discs.grid (Discs.type "Circle")) (Discs.grid Discs.shape) = true ∧
    g.isAssignable (Discs.grid (Discs.type "Disc")) (Discs.grid Discs.shape) = true := by
  have hcheck : loadsAs Discs.docs (fun g => g.checkRoots && g.checkHierarchy 8 &&
      g.isAssignable (Discs.grid (Discs.type "Disc")) (Discs.grid (Discs.type "Circle")) &&
      g.isAssignable (Discs.grid (Discs.type "Circle")) (Discs.grid Discs.shape)) = true := by
    decide +kernel
  obtain ⟨g, hload, hasked⟩ := exists_of_loadsAs hcheck
  simp only [Bool.and_eq_true] at hasked
  obtain ⟨⟨⟨hcheckRoots, hhierarchy⟩, hdisc⟩, hcircle⟩ := hasked
  have hroots : g.Rooted := Graph.rooted_of_checkRoots hcheckRoots
  have hlawful : g.Lawful := Graph.lawful_of_checkHierarchy hhierarchy (by decide)
  have hg : g.Accepted := .of_lawful hlawful
  obtain ⟨hlimit, hpreorder⟩ := isAssignable_preorder hload (.inr hroots) hg
  obtain ⟨-, htrans⟩ := hpreorder g.visitLimit hlawful.finiteClosures
  exact ⟨g, hload, hroots, hg, hlawful.finiteClosures, hlimit, hdisc, hcircle,
    htrans _ _ _ hdisc hcircle⟩

end LateBridge
