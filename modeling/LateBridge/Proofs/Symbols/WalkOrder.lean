import LateBridge.Proofs.Document.Loading
import LateBridge.Proofs.Symbols.FiniteWalk
import Mathlib.Order.Bounds.Basic

/-!
# Proofs/Symbols/WalkOrder — which interfaces a type has, and in which order

    owners        t,  u₁,  u₂,  …                  the type and its base chain
    interfaces    i₁ i₂ … │ j₁ … │ …               of each owner, as declared
    walk          i₁ (what i₁ extends) i₂ …        each type once

The interfaces of a type are the least set that holds those of its owners and what its members
extend.  `DepthFirst` says how to walk them: what a type extends comes right after the type, and a
type that was met is passed.  The walk by a list of pending types is such a walk, a depth-first walk
is unique, and where the set is finite it ends (`allInterfaces_depthFirst`).  Nothing is asked of the
graph: base types and interfaces may form cycles, and several ways may lead to one interface.
-/

namespace LateBridge

namespace Graph

variable {g : Graph} {t i : Ty} {ts us seen walk found : List Ty}

/-! ## The closure -/

/-- **A set that holds the interfaces of a type**: those of the type and of its base chain, and with
each member what it extends. -/
structure HoldsInterfaces (g : Graph) (t : Ty) (S : Set Ty) : Prop where
  owners : ∀ o ∈ t :: g.baseChain t, ∀ i, g.Extends o i → i ∈ S
  closed : ∀ s ∈ S, ∀ i, g.Extends s i → i ∈ S

/-- **The interface closure** of a type: what is in all sets that hold its interfaces. -/
def interfaceClosure (g : Graph) (t : Ty) : Set Ty := ⋂₀ {S | g.HoldsInterfaces t S}

/-- The closure holds what is reached from an owner. -/
theorem mem_interfaceClosure : i ∈ g.interfaceClosure t ↔
    ∃ o ∈ t :: g.baseChain t, Relation.TransGen g.Extends o i := by
  constructor
  · intro hi
    refine Set.mem_sInter.mp hi {i | ∃ o ∈ t :: g.baseChain t, Relation.TransGen g.Extends o i} ?_
    refine ⟨fun o ho i hi => ⟨o, ho, .single hi⟩, fun s hs i hi => ?_⟩
    obtain ⟨o, ho, hreach⟩ := hs
    exact ⟨o, ho, hreach.tail hi⟩
  · rintro ⟨o, ho, hreach⟩
    refine Set.mem_sInter.mpr fun S hS => ?_
    induction hreach with
    | single hi => exact hS.owners o ho _ hi
    | tail _ hi ih => exact hS.closed _ ih _ hi

theorem isLeast_interfaceClosure (g : Graph) (t : Ty) :
    IsLeast {S | g.HoldsInterfaces t S} (g.interfaceClosure t) := by
  refine ⟨⟨fun o ho i hi => ?_, fun s hs i hi => ?_⟩, fun S hS => Set.sInter_subset_of_mem hS⟩
  · exact mem_interfaceClosure.mpr ⟨o, ho, .single hi⟩
  · obtain ⟨o, ho, hreach⟩ := mem_interfaceClosure.mp hs
    exact mem_interfaceClosure.mpr ⟨o, ho, hreach.tail hi⟩

/-! ## Depth-first walks -/

/-- **A depth-first walk** of types, from what was seen before to what is seen after it.  A type that
was seen is passed; another one is seen, then what it extends is walked, then the types after it. -/
inductive DepthFirst (g : Graph) : List Ty → List Ty → List Ty → Prop where
  | done (seen : List Ty) : DepthFirst g [] seen seen
  | pass {t : Ty} {ts seen walk : List Ty} (hseen : t ∈ seen) (rest : DepthFirst g ts seen walk) :
      DepthFirst g (t :: ts) seen walk
  | enter {t : Ty} {ts seen inside walk : List Ty} (hseen : t ∉ seen)
      (below : DepthFirst g (g.interfaces t) (seen ++ [t]) inside)
      (rest : DepthFirst g ts inside walk) : DepthFirst g (t :: ts) seen walk

namespace DepthFirst

/-- **Two lists of types are walked one after the other.** -/
theorem append_iff : g.DepthFirst (ts ++ us) seen walk ↔
    ∃ middle, g.DepthFirst ts seen middle ∧ g.DepthFirst us middle walk := by
  constructor
  · intro h
    induction ts generalizing seen with
    | nil => exact ⟨seen, .done seen, h⟩
    | cons t ts ih =>
      cases h with
      | pass hseen rest =>
        obtain ⟨middle, hts, hus⟩ := ih rest
        exact ⟨middle, .pass hseen hts, hus⟩
      | enter hseen below rest =>
        obtain ⟨middle, hts, hus⟩ := ih rest
        exact ⟨middle, .enter hseen below hts, hus⟩
  · rintro ⟨middle, hts, hus⟩
    induction hts with
    | done => exact hus
    | pass hseen _ ih => exact .pass hseen (ih hus)
    | enter hseen below _ _ ih => exact .enter hseen below (ih hus)

/-- There is at most one depth-first walk. -/
theorem unique {walk' : List Ty} (h : g.DepthFirst ts seen walk) (h' : g.DepthFirst ts seen walk') :
    walk = walk' := by
  induction h generalizing walk' with
  | done =>
    cases h'
    rfl
  | pass hseen _ ih =>
    cases h' with
    | pass _ rest => exact ih rest
    | enter hnew _ _ => exact absurd hseen hnew
  | enter hnew _ _ ihbelow ihrest =>
    cases h' with
    | pass hseen _ => exact absurd hseen hnew
    | enter _ below rest =>
      cases ihbelow below
      exact ihrest rest

/-- A walk lists each type once. -/
theorem nodup (h : g.DepthFirst ts seen walk) (hseen : seen.Nodup) : walk.Nodup := by
  induction h with
  | done => exact hseen
  | pass _ _ ih => exact ih hseen
  | enter hnew _ _ ihbelow ihrest =>
    exact ihrest (ihbelow (hseen.append (List.nodup_singleton _) (by simpa)))

/-- **The walk by a list of pending types is depth first**: the types pushed in front of the others
are those right below the type met last. -/
theorem of_visit {budget : Nat} {pending : List Ty} (h : g.visit budget pending seen = some found) :
    g.DepthFirst pending seen found := by
  induction budget generalizing pending seen with
  | zero =>
    cases pending with
    | nil =>
      obtain rfl : seen = found := Option.some.inj h
      exact .done seen
    | cons next pending => cases h
  | succ budget ih =>
    cases pending with
    | nil =>
      obtain rfl : seen = found := Option.some.inj h
      exact .done seen
    | cons next pending =>
      rw [visit] at h
      split at h
      case isTrue hseen => exact .pass hseen (ih h)
      case isFalse hnew =>
        obtain ⟨inside, below, rest⟩ := append_iff.mp (ih h)
        exact .enter hnew below rest

/-- The walks over several owners make one walk over the interfaces of all. -/
theorem of_visitOwners {budget : Nat} {owners : List Ty}
    (h : g.visitOwners budget owners seen = some found) :
    g.DepthFirst (owners.flatMap g.interfaces) seen found := by
  induction owners generalizing seen with
  | nil =>
    obtain rfl : seen = found := Option.some.inj h
    exact .done seen
  | cons owner owners ih =>
    rw [visitOwners] at h
    split at h
    case h_1 middle hvisit => exact append_iff.mpr ⟨middle, of_visit hvisit, ih h⟩
    case h_2 => cases h

end DepthFirst

/-! ## All interfaces -/

/-- How many interfaces several types have. -/
def links (g : Graph) (ts : List Ty) : Nat := (ts.map fun t => (g.interfaces t).length).sum

theorem unvisited_toFinset (h : found.Nodup) : g.unvisited found.toFinset [] = g.links found := by
  rw [unvisited, List.toFinset_nil, Finset.sdiff_empty, List.sum_toFinset _ h, links]

/-- What the walks over the owners find is the closure. -/
theorem mem_iff_mem_interfaceClosure {budget : Nat}
    (h : g.visitOwners budget (t :: g.baseChain t) [] = some found) :
    i ∈ found ↔ i ∈ g.interfaceClosure t :=
  (mem_iff_reach_of_visitOwners h).trans mem_interfaceClosure.symm

/-- **Where the closure is finite, the walks over the owners end** within as many visits as the
owners and the types of the closure have interfaces. -/
theorem exists_visitOwners_of_finite (hfinite : (g.interfaceClosure t).Finite) :
    ∃ found, g.visitOwners (g.links (t :: g.baseChain t ++ found)) (t :: g.baseChain t) [] =
      some found := by
  obtain ⟨reached, hreached⟩ := hfinite.exists_finset
  have hholds := (g.isLeast_interfaceClosure t).1
  have hclosed : g.ClosedSet reached := fun s hs i hi =>
    (hreached i).mpr (hholds.closed s ((hreached s).mp hs) i hi)
  have howners : ∀ o ∈ t :: g.baseChain t, ∀ i, g.Extends o i → i ∈ reached := fun o ho i hi =>
    (hreached i).mpr (hholds.owners o ho i hi)
  obtain ⟨found, hfound⟩ := Option.isSome_iff_exists.mp
    (visitOwners_isSome_of_closedSet hclosed howners (Nat.le_refl _) [])
  have hset : reached = found.toFinset := by
    ext i
    rw [hreached, List.mem_toFinset, mem_iff_mem_interfaceClosure hfound]
  have hnodup : found.Nodup := (DepthFirst.of_visitOwners hfound).nodup List.nodup_nil
  rw [hset, unvisited_toFinset hnodup] at hfound
  refine ⟨found, ?_⟩
  rw [links, List.map_append, List.sum_append]
  exact hfound

end Graph

/-- **The interfaces of a type are its interface closure in the order of the depth-first walk**: if
the closure is finite, they are found within as many visits as its types and the owners have
interfaces, and with more visits they stay the same. -/
theorem Graph.allInterfaces_depthFirst (g : Graph) (t : Ty)
    (hfinite : (g.interfaceClosure t).Finite) :
    ∃ found : List Ty, found.Nodup ∧ IsLeast {S | g.HoldsInterfaces t S} {i | i ∈ found} ∧
      (∀ walk, g.DepthFirst ((t :: g.baseChain t).flatMap g.interfaces) [] walk ↔ walk = found) ∧
      ∀ n ≥ g.links (t :: g.baseChain t ++ found),
        (g.withVisitLimit n).allInterfaces t = found := by
  obtain ⟨found, hfound⟩ := exists_visitOwners_of_finite hfinite
  have hwalk := DepthFirst.of_visitOwners hfound
  have hset : {i | i ∈ found} = g.interfaceClosure t := by
    ext i
    exact mem_iff_mem_interfaceClosure hfound
  refine ⟨found, hwalk.nodup List.nodup_nil, ?_, fun walk => ⟨fun h => h.unique hwalk, ?_⟩, ?_⟩
  · rw [hset]
    exact g.isLeast_interfaceClosure t
  · rintro rfl
    exact hwalk
  · intro n hn
    rw [allInterfaces, closure?_withVisitLimit, visitOwners_mono hn hfound, Option.getD_some]

/-! Two classes that derive from each other, and interfaces that extend each other; two ways lead to
the root of the interfaces. -/

namespace Rings

/-- The program. -/
def docs : List GraphDocument :=
  [{ coreLibrary := false, usings := []
     types := [CoreLibrary.interfaceType "Shop" "IRoot",
      { CoreLibrary.interfaceType "Shop" "ILeft" with interfaces := ["IRoot"] },
      { CoreLibrary.interfaceType "Shop" "IRight" with interfaces := ["IRoot", "IBoth"] },
      { CoreLibrary.interfaceType "Shop" "IBoth" with interfaces := ["ILeft", "IRight"] },
      { CoreLibrary.classType "Shop" "Inner" with base? := "Outer", interfaces := ["IBoth"] },
      { CoreLibrary.classType "Shop" "Outer" with base? := "Inner", interfaces := ["IRight"] }] }]

/-- A type of the program. -/
def type (name : String) : Ty := .plain (.top (some "Shop") name [])

/-- The interfaces of the outer class. -/
def found : List Ty := ["IRight", "IRoot", "IBoth", "ILeft"].map type

end Rings

/-- The interfaces of the outer class, whose base chain comes back to it. -/
theorem allInterfaces_depthFirst_rings : ∃ g, load Rings.docs = .ok g ∧
    Rings.type "Outer" ∈ g.baseChain (Rings.type "Outer") ∧
    (g.interfaceClosure (Rings.type "Outer")).Finite ∧ Rings.found.Nodup ∧
    IsLeast {S | g.HoldsInterfaces (Rings.type "Outer") S} {i | i ∈ Rings.found} ∧
    (∀ walk, g.DepthFirst ((Rings.type "Outer" :: g.baseChain (Rings.type "Outer")).flatMap
      g.interfaces) [] walk ↔ walk = Rings.found) ∧
    ∀ n ≥ g.links (Rings.type "Outer" :: g.baseChain (Rings.type "Outer") ++ Rings.found),
      (g.withVisitLimit n).allInterfaces (Rings.type "Outer") = Rings.found := by
  have hcheck : loadsAs Rings.docs (fun g =>
      g.baseChain (Rings.type "Outer") == [Rings.type "Inner", Rings.type "Outer"] &&
        g.closure? (Rings.type "Outer") == some Rings.found) = true := by decide +kernel
  obtain ⟨g, hload, hasked⟩ := exists_of_loadsAs hcheck
  simp only [Bool.and_eq_true, beq_iff_eq] at hasked
  obtain ⟨hchain, hclosure⟩ := hasked
  have hfinite : (g.interfaceClosure (Rings.type "Outer")).Finite :=
    Rings.found.finite_toSet.subset fun i hi => (Graph.mem_iff_mem_interfaceClosure hclosure).mpr hi
  obtain ⟨found, hnodup, hleast, hwalks, hlimit⟩ := g.allInterfaces_depthFirst _ hfinite
  obtain rfl : Rings.found = found := (hwalks _).mp (.of_visitOwners hclosure)
  refine ⟨g, hload, ?_, hfinite, hnodup, hleast, hwalks, hlimit⟩
  rw [hchain]
  exact List.mem_cons_of_mem _ List.mem_cons_self

end LateBridge
