import LateBridge.Proofs.Symbols.PartialSubstitution
import Mathlib.Algebra.GroupWithZero.Nat
import Mathlib.Algebra.Order.BigOperators.Group.Finset
import Mathlib.Algebra.Order.BigOperators.Group.List
import Mathlib.Data.Set.Finite.Lattice

/-!
# Proofs/Symbols/FiniteWalk — where interfaces are finite in number, walks end

A walk visits each interface once and skips it from then on, so it takes no more visits than there
are pending interfaces and interfaces of those not seen (`unvisited`); every visit takes one off
this number.  Where only finitely many interfaces can be reached from a type (`FinitelyExtends`), a
large enough visit limit lets the walk from it end, and a larger one does not change what it finds
(`FinitelyExtends.exists_limit`).
-/

namespace LateBridge.Graph

variable {g : Graph}

/-- **Finitely many interfaces** are reached from every type. -/
def FinitelyExtends (g : Graph) : Prop := ∀ t, {i | Relation.TransGen g.Extends t i}.Finite

/-- The graph with another visit limit. -/
def withVisitLimit (g : Graph) (limit : Nat) : Graph := { g with visitLimit := limit }

/-- Where declared interfaces mention no parameters, no others are reached. -/
theorem finitelyExtends_of_vars (h : ∀ d ∈ g.decls, ∀ i ∈ d.interfaces, i.vars = []) :
    g.FinitelyExtends := by
  intro t
  refine (g.decls.flatMap (·.interfaces)).finite_toSet.subset fun i hi => ?_
  obtain ⟨o, -, hextends⟩ := Relation.TransGen.tail'_iff.mp hi
  obtain ⟨n, args, d, i', hi', -, hd, rfl⟩ := hextends.exists_decl
  have hdecl : d ∈ g.decls := mem_decls_of_find? hd
  have hvars : ∀ v ∈ i'.vars, (n.bindArgs args).lookup v = none := by
    rw [h d hdecl i' hi']
    exact List.forall_mem_nil _
  rw [(Ty.partly_subst (n.bindArgs args) i').eq_of_free hvars]
  exact List.mem_flatMap.mpr ⟨d, hdecl, hi'⟩

/-! ## One walk -/

/-- How many interfaces the types of a set have that were not seen. -/
def unvisited (g : Graph) (reached : Finset Ty) (seen : List Ty) : Nat :=
  ∑ t ∈ reached \ seen.toFinset, (g.interfaces t).length

/-- A set of types that holds the interfaces of its members. -/
def ClosedSet (g : Graph) (reached : Finset Ty) : Prop :=
  ∀ t ∈ reached, ∀ i, g.Extends t i → i ∈ reached

/-- Seeing a type takes its interfaces off the number. -/
theorem unvisited_append {reached : Finset Ty} {seen : List Ty} {next : Ty}
    (hnext : next ∈ reached) (hseen : next ∉ seen) :
    (g.interfaces next).length + g.unvisited reached (seen ++ [next]) =
      g.unvisited reached seen := by
  have hmem : next ∈ reached \ seen.toFinset := by simp [hnext, hseen]
  have herase : reached \ (seen ++ [next]).toFinset = (reached \ seen.toFinset).erase next := by
    ext t
    simp only [Finset.mem_sdiff, Finset.mem_erase, List.mem_toFinset, List.mem_append,
      List.mem_singleton]
    tauto
  rw [unvisited, herase]
  exact Finset.add_sum_erase _ (fun t => (g.interfaces t).length) hmem

theorem unvisited_le (reached : Finset Ty) (seen : List Ty) :
    g.unvisited reached seen ≤ g.unvisited reached [] :=
  Finset.sum_le_sum_of_subset (Finset.sdiff_subset_sdiff (Finset.Subset.refl _) (by simp))

/-- **A walk ends within the pending interfaces and those not seen.** -/
theorem visit_isSome_of_unvisited {reached : Finset Ty} (hclosed : g.ClosedSet reached) {budget : Nat}
    {pending seen : List Ty} (hpending : ∀ t ∈ pending, t ∈ reached)
    (hbudget : pending.length + g.unvisited reached seen ≤ budget) :
    (g.visit budget pending seen).isSome := by
  induction budget generalizing pending seen with
  | zero =>
    obtain rfl : pending = [] := List.eq_nil_of_length_eq_zero (by omega)
    rfl
  | succ budget ih =>
    cases pending with
    | nil => rfl
    | cons next pending =>
      obtain ⟨hnext, hpending⟩ := List.forall_mem_cons.mp hpending
      rw [List.length_cons] at hbudget
      rw [visit]
      split
      case isTrue => exact ih hpending (by omega)
      case isFalse hseen =>
        refine ih (List.forall_mem_append.mpr ⟨fun i hi => hclosed next hnext i hi, hpending⟩) ?_
        have hless := unvisited_append (g := g) hnext hseen
        rw [List.length_append]
        omega

/-- **A walk that ends does not need a larger budget.** -/
theorem visit_mono {budget budget' : Nat} (hle : budget ≤ budget') {pending seen found : List Ty}
    (h : g.visit budget pending seen = some found) :
    g.visit budget' pending seen = some found := by
  induction budget generalizing budget' pending seen with
  | zero =>
    cases pending with
    | nil =>
      cases h
      cases budget' <;> rfl
    | cons next pending => cases h
  | succ budget ih =>
    obtain ⟨budget', rfl⟩ : ∃ room, budget' = room + 1 := ⟨budget' - 1, by omega⟩
    cases pending with
    | nil =>
      cases h
      rfl
    | cons next pending =>
      have hle : budget ≤ budget' := Nat.le_of_succ_le_succ hle
      rw [visit] at h ⊢
      split at h
      case isTrue hseen =>
        rw [if_pos hseen]
        exact ih hle h
      case isFalse hseen =>
        rw [if_neg hseen]
        exact ih hle h

/-! ## Several owners -/

theorem visitOwners_mono {budget budget' : Nat} (hle : budget ≤ budget')
    {owners seen found : List Ty} (h : g.visitOwners budget owners seen = some found) :
    g.visitOwners budget' owners seen = some found := by
  induction owners generalizing seen with
  | nil => exact h
  | cons owner owners ih =>
    rw [visitOwners] at h ⊢
    cases hvisit : g.visit budget (g.interfaces owner) seen with
    | none =>
      rw [hvisit] at h
      cases h
    | some middle =>
      rw [hvisit] at h
      rw [visit_mono hle hvisit]
      exact ih h

/-- **The walks end within the interfaces of the owners and of all that is reached.** -/
theorem visitOwners_isSome_of_closedSet {reached : Finset Ty} (hclosed : g.ClosedSet reached)
    {owners : List Ty} (howners : ∀ o ∈ owners, ∀ i, g.Extends o i → i ∈ reached) {budget : Nat}
    (hbudget : (owners.map fun o => (g.interfaces o).length).sum + g.unvisited reached [] ≤ budget)
    (seen : List Ty) : (g.visitOwners budget owners seen).isSome := by
  refine visitOwners_isSome fun o ho seen => ?_
  have howner : (g.interfaces o).length ≤ (owners.map fun o => (g.interfaces o).length).sum :=
    List.le_sum_of_mem (List.mem_map.mpr ⟨o, ho, rfl⟩)
  have hseen : g.unvisited reached seen ≤ g.unvisited reached [] := unvisited_le _ seen
  exact visit_isSome_of_unvisited hclosed (howners o ho) (by omega)

/-- Where finitely many interfaces are reached, a large enough budget lets the walks end. -/
theorem FinitelyExtends.exists_visitOwners (hg : g.FinitelyExtends) (owners : List Ty) :
    ∃ budget found, g.visitOwners budget owners [] = some found := by
  have hfinite : {i | ∃ o ∈ owners, Relation.TransGen g.Extends o i}.Finite := by
    have hunion := Set.Finite.biUnion owners.finite_toSet fun o _ => hg o
    refine hunion.subset fun i hi => ?_
    obtain ⟨o, ho, hreach⟩ := hi
    exact Set.mem_biUnion ho hreach
  obtain ⟨reached, hreached⟩ := hfinite.exists_finset
  have hclosed : g.ClosedSet reached := by
    intro t ht i hi
    obtain ⟨o, ho, hreach⟩ := (hreached t).mp ht
    exact (hreached i).mpr ⟨o, ho, hreach.tail hi⟩
  have howners : ∀ o ∈ owners, ∀ i, g.Extends o i → i ∈ reached := fun o ho i hi =>
    (hreached i).mpr ⟨o, ho, .single hi⟩
  exact ⟨_, Option.isSome_iff_exists.mp
    (visitOwners_isSome_of_closedSet hclosed howners (Nat.le_refl _) [])⟩

/-! ## Visit limits -/

theorem closure?_withVisitLimit (limit : Nat) (t : Ty) :
    (g.withVisitLimit limit).closure? t = g.visitOwners limit (t :: g.baseChain t) [] := by
  have hchain : (g.withVisitLimit limit).baseChain = g.baseChain := baseChain_congr rfl
  have howners : (g.withVisitLimit limit).visitOwners = g.visitOwners := visitOwners_congr rfl
  rw [closure?, hchain, howners]
  rfl

/-- **Where finitely many interfaces are reached, the closure of a type is found**, and is the same
within every larger visit limit. -/
theorem FinitelyExtends.exists_closure? (hg : g.FinitelyExtends) (t : Ty) :
    ∃ limit found, ∀ n ≥ limit, (g.withVisitLimit n).closure? t = some found := by
  obtain ⟨limit, found, hfound⟩ := hg.exists_visitOwners (t :: g.baseChain t)
  refine ⟨limit, found, fun n hn => ?_⟩
  rw [closure?_withVisitLimit]
  exact visitOwners_mono hn hfound

/-- One visit limit is enough for several types. -/
theorem FinitelyExtends.exists_limit (hg : g.FinitelyExtends) (ts : List Ty) :
    ∃ limit, ∀ n ≥ limit, ∀ t ∈ ts, ((g.withVisitLimit n).closure? t).isSome ∧
      (g.withVisitLimit n).closure? t = (g.withVisitLimit limit).closure? t := by
  choose limit found h using hg.exists_closure?
  refine ⟨(ts.map limit).sum, fun n hn t ht => ?_⟩
  have hlimit : limit t ≤ (ts.map limit).sum := List.le_sum_of_mem (List.mem_map_of_mem ht)
  rw [h t _ hlimit, h t n (Nat.le_trans hlimit hn)]
  exact ⟨rfl, rfl⟩

end LateBridge.Graph
