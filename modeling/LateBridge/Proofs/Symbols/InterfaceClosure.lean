import LateBridge.Proofs.Symbols.BaseChain
import Mathlib.Logic.Relation

/-!
# Proofs/Symbols/InterfaceClosure — the walk finds what can be reached

The depth-first walk keeps one invariant: the interfaces of what it has seen are seen or still
pending (`ClosedUpTo`).  When nothing is pending any more, the interfaces found are closed, and none
is found that cannot be reached; so the interfaces of a type are exactly those reached from it or
from one of its base types (`mem_allInterfaces`).
-/

namespace LateBridge.Graph

variable {g : Graph}

/-- A type names another one among its direct interfaces. -/
def Extends (g : Graph) (t i : Ty) : Prop := i ∈ g.interfaces t

/-- **The walk over the interfaces of every type comes to its end.** -/
def FiniteClosures (g : Graph) : Prop := ∀ t, (g.closure? t).isSome

theorem interfaces_named {n : DeclName} {args : List Ty} {d : TypeDecl} (h : g.decl? n = some d) :
    g.interfaces (.named n args) = d.interfaces.map (·.subst (n.bindArgs args)) := by
  rw [interfaces, h]

/-- A direct interface is a declared one with the arguments put in. -/
theorem Extends.exists_decl {t i : Ty} (h : g.Extends t i) :
    ∃ n args d, ∃ i' ∈ d.interfaces, t = .named n args ∧ g.decl? n = some d ∧
      i = i'.subst (n.bindArgs args) := by
  cases t with
  | named n args =>
    cases hd : g.decl? n with
    | none => simp [Extends, interfaces, hd] at h
    | some d =>
      rw [Extends, interfaces_named hd, List.mem_map] at h
      obtain ⟨i', hi', rfl⟩ := h
      exact ⟨n, args, d, i', hi', rfl, hd, rfl⟩
  | _ => exact absurd h List.not_mem_nil

/-! ## One walk -/

/-- The interfaces of what is seen are seen or pending. -/
def ClosedUpTo (g : Graph) (pending seen : List Ty) : Prop :=
  ∀ s ∈ seen, ∀ i, g.Extends s i → i ∈ seen ∨ i ∈ pending

/-- Visiting a type keeps the invariant: its interfaces become pending. -/
theorem ClosedUpTo.visit {next : Ty} {pending seen : List Ty}
    (h : g.ClosedUpTo (next :: pending) seen) :
    g.ClosedUpTo (g.interfaces next ++ pending) (seen ++ [next]) := by
  intro s hs i hi
  rw [List.mem_append, List.mem_singleton] at hs ⊢
  rw [List.mem_append]
  obtain hs | rfl := hs
  · obtain hseen | hpending := h s hs i hi
    · exact .inl (.inl hseen)
    · obtain rfl | hmem := List.mem_cons.mp hpending
      · exact .inl (.inr rfl)
      · exact .inr (.inr hmem)
  · exact .inr (.inl hi)

/-- Skipping a type that was seen keeps the invariant. -/
theorem ClosedUpTo.skip {next : Ty} {pending seen : List Ty} (hnext : next ∈ seen)
    (h : g.ClosedUpTo (next :: pending) seen) : g.ClosedUpTo pending seen := by
  intro s hs i hi
  obtain hseen | hpending := h s hs i hi
  · exact .inl hseen
  · obtain rfl | hmem := List.mem_cons.mp hpending
    · exact .inl hnext
    · exact .inr hmem

/-- **A walk that ends** keeps what it has seen, finds what was pending, and leaves nothing
pending. -/
theorem visit_closed {budget : Nat} {pending seen found : List Ty}
    (h : g.visit budget pending seen = some found) (hclosed : g.ClosedUpTo pending seen) :
    seen ⊆ found ∧ pending ⊆ found ∧ g.ClosedUpTo [] found := by
  induction budget generalizing pending seen with
  | zero =>
    cases pending with
    | nil =>
      obtain rfl : seen = found := by simpa [visit] using h
      exact ⟨List.Subset.refl _, List.nil_subset _, hclosed⟩
    | cons next pending => simp [visit] at h
  | succ budget ih =>
    cases pending with
    | nil =>
      obtain rfl : seen = found := by simpa [visit] using h
      exact ⟨List.Subset.refl _, List.nil_subset _, hclosed⟩
    | cons next pending =>
      rw [visit] at h
      split at h
      case isTrue hnext =>
        obtain ⟨hseen, hpending, hend⟩ := ih h (hclosed.skip hnext)
        exact ⟨hseen, List.cons_subset.mpr ⟨hseen hnext, hpending⟩, hend⟩
      case isFalse =>
        obtain ⟨hseen, hpending, hend⟩ := ih h hclosed.visit
        obtain ⟨hseen, hnext⟩ := List.append_subset.mp hseen
        exact ⟨hseen, List.cons_subset.mpr ⟨hnext List.mem_cons_self,
          (List.append_subset.mp hpending).2⟩, hend⟩

/-- **A walk finds nothing by itself**: what was not seen before is reached from what was
pending. -/
theorem exists_reach_of_mem_visit {budget : Nat} {pending seen found : List Ty}
    (h : g.visit budget pending seen = some found) {i : Ty} (hi : i ∈ found) :
    i ∈ seen ∨ ∃ p ∈ pending, Relation.ReflTransGen g.Extends p i := by
  induction budget generalizing pending seen with
  | zero =>
    cases pending with
    | nil =>
      obtain rfl : seen = found := by simpa [visit] using h
      exact .inl hi
    | cons next pending => simp [visit] at h
  | succ budget ih =>
    cases pending with
    | nil =>
      obtain rfl : seen = found := by simpa [visit] using h
      exact .inl hi
    | cons next pending =>
      rw [visit] at h
      split at h
      case isTrue =>
        obtain hseen | ⟨p, hp, hreach⟩ := ih h
        · exact .inl hseen
        · exact .inr ⟨p, List.mem_cons_of_mem _ hp, hreach⟩
      case isFalse =>
        obtain hseen | ⟨p, hp, hreach⟩ := ih h
        · obtain hseen | hnext := List.mem_append.mp hseen
          · exact .inl hseen
          · obtain rfl := List.mem_singleton.mp hnext
            exact .inr ⟨i, List.mem_cons_self, .refl⟩
        · obtain hnext | hpending := List.mem_append.mp hp
          · exact .inr ⟨next, List.mem_cons_self, .head hnext hreach⟩
          · exact .inr ⟨p, List.mem_cons_of_mem _ hpending, hreach⟩

/-! ## Several owners -/

/-- The walks over several owners, one after the other, leave nothing pending and find the
interfaces of every owner. -/
theorem visitOwners_closed {budget : Nat} {owners seen found : List Ty}
    (h : g.visitOwners budget owners seen = some found) (hclosed : g.ClosedUpTo [] seen) :
    seen ⊆ found ∧ (∀ o ∈ owners, ∀ i, g.Extends o i → i ∈ found) ∧ g.ClosedUpTo [] found := by
  induction owners generalizing seen with
  | nil =>
    obtain rfl : seen = found := by simpa [visitOwners] using h
    exact ⟨List.Subset.refl _, fun _ ho => absurd ho List.not_mem_nil, hclosed⟩
  | cons owner owners ih =>
    rw [visitOwners] at h
    split at h
    case h_1 middle hvisit =>
      have hpending : g.ClosedUpTo (g.interfaces owner) seen := fun s hs i hi =>
        (hclosed s hs i hi).imp_right fun hnil => absurd hnil List.not_mem_nil
      obtain ⟨hseen, howner, hmiddle⟩ := visit_closed hvisit hpending
      obtain ⟨hfound, howners, hend⟩ := ih h hmiddle
      refine ⟨List.Subset.trans hseen hfound, fun o ho i hi => ?_, hend⟩
      obtain rfl | ho := List.mem_cons.mp ho
      · exact hfound (howner hi)
      · exact howners o ho i hi
    case h_2 => exact absurd h (Option.some_ne_none found).symm

/-- The walks over several owners end if the walk over each of them does. -/
theorem visitOwners_isSome {budget : Nat} {owners seen : List Ty}
    (h : ∀ o ∈ owners, ∀ seen, (g.visit budget (g.interfaces o) seen).isSome) :
    (g.visitOwners budget owners seen).isSome := by
  induction owners generalizing seen with
  | nil => rfl
  | cons owner owners ih =>
    obtain ⟨found, hfound⟩ := Option.isSome_iff_exists.mp (h owner List.mem_cons_self seen)
    rw [visitOwners, hfound]
    exact ih fun o ho => h o (List.mem_cons_of_mem _ ho)

/-- What several owners' walks find is reached from one of them. -/
theorem exists_reach_of_mem_visitOwners {budget : Nat} {owners seen found : List Ty}
    (h : g.visitOwners budget owners seen = some found) {i : Ty} (hi : i ∈ found) :
    i ∈ seen ∨ ∃ o ∈ owners, Relation.TransGen g.Extends o i := by
  induction owners generalizing seen with
  | nil =>
    obtain rfl : seen = found := by simpa [visitOwners] using h
    exact .inl hi
  | cons owner owners ih =>
    rw [visitOwners] at h
    split at h
    case h_1 middle hvisit =>
      obtain hmiddle | ⟨o, ho, hreach⟩ := ih h
      · obtain hseen | ⟨p, hp, hreach⟩ := exists_reach_of_mem_visit hvisit hmiddle
        · exact .inl hseen
        · exact .inr ⟨owner, List.mem_cons_self, .head' hp hreach⟩
      · exact .inr ⟨o, List.mem_cons_of_mem _ ho, hreach⟩
    case h_2 => exact absurd h (Option.some_ne_none found).symm

/-- **What several owners' walks find from the start on is what is reached from one of them.** -/
theorem mem_iff_reach_of_visitOwners {budget : Nat} {owners found : List Ty}
    (h : g.visitOwners budget owners [] = some found) {i : Ty} :
    i ∈ found ↔ ∃ o ∈ owners, Relation.TransGen g.Extends o i := by
  constructor
  · intro hi
    exact (exists_reach_of_mem_visitOwners h hi).resolve_left List.not_mem_nil
  · rintro ⟨o, ho, hreach⟩
    obtain ⟨-, howners, hend⟩ := visitOwners_closed h fun _ hs => absurd hs List.not_mem_nil
    induction hreach with
    | single hi => exact howners o ho _ hi
    | tail _ hi ih => exact (hend _ ih _ hi).resolve_right List.not_mem_nil

/-- Graphs with the same interfaces are walked alike. -/
theorem visit_congr {g' : Graph} (h : g'.interfaces = g.interfaces) : g'.visit = g.visit := by
  funext budget
  induction budget with
  | zero =>
    funext pending seen
    cases pending <;> rfl
  | succ budget ih =>
    funext pending seen
    cases pending with
    | nil => rfl
    | cons next pending => simp only [visit, h, ih]

theorem visitOwners_congr {g' : Graph} (h : g'.interfaces = g.interfaces) :
    g'.visitOwners = g.visitOwners := by
  funext budget owners
  induction owners with
  | nil => rfl
  | cons owner owners ih =>
    funext seen
    simp only [visitOwners, h, visit_congr h, ih]

/-! ## All interfaces of a type -/

/-- Graphs with the same base types and interfaces, walked to the same limit, give types the same
interfaces. -/
theorem allInterfaces_congr {g' : Graph} (hbase : g'.base? = g.base?)
    (hinterfaces : g'.interfaces = g.interfaces) (hlimit : g'.visitLimit = g.visitLimit) :
    g'.allInterfaces = g.allInterfaces := by
  funext t
  rw [allInterfaces, allInterfaces, closure?, closure?, visitOwners_congr hinterfaces,
    baseChain_congr hbase, hlimit]

/-- A property that goes along with base types and interfaces holds of all interfaces. -/
theorem forall_mem_allInterfaces {P : Ty → Prop} (base : ∀ t b, P t → g.base? t = some b → P b)
    (interface : ∀ t i, P t → g.Extends t i → P i) {t : Ty} (ht : P t) :
    ∀ i ∈ g.allInterfaces t, P i := by
  intro i hmem
  obtain ⟨found, hfound, hi⟩ : ∃ found, g.closure? t = some found ∧ i ∈ found := by
    cases hclosure : g.closure? t <;> simp_all [allInterfaces]
  obtain ⟨owner, howner, hreach⟩ :=
    (exists_reach_of_mem_visitOwners hfound hi).resolve_left List.not_mem_nil
  clear hi hmem
  have hstart : P owner := by
    obtain rfl | hbase := List.mem_cons.mp howner
    · exact ht
    · exact forall_mem_baseChain base ht owner hbase
  induction hreach with
  | single hextends => exact interface _ _ hstart hextends
  | tail _ hextends ih => exact interface _ _ ih hextends

/-- **The interfaces of a type are those reached from it or from its base types.** -/
theorem FiniteClosures.mem_allInterfaces (hg : g.FiniteClosures) {t i : Ty} :
    i ∈ g.allInterfaces t ↔
      ∃ o ∈ t :: g.baseChain t, Relation.TransGen g.Extends o i := by
  obtain ⟨found, hfound⟩ := Option.isSome_iff_exists.mp (hg t)
  rw [allInterfaces, hfound, Option.getD_some]
  exact mem_iff_reach_of_visitOwners hfound

/-- Direct interfaces are among all interfaces. -/
theorem FiniteClosures.interfaces_subset (hg : g.FiniteClosures) (t : Ty) :
    g.interfaces t ⊆ g.allInterfaces t := fun _ hi =>
  hg.mem_allInterfaces.mpr ⟨t, List.mem_cons_self, .single hi⟩

/-- The interfaces of a base type are interfaces of the type. -/
theorem FiniteClosures.mem_allInterfaces_of_mem_baseChain (hg : g.FiniteClosures)
    (hshort : g.ShortChains) {s t i : Ty} (hi : i ∈ g.allInterfaces t)
    (ht : t ∈ g.baseChain s) : i ∈ g.allInterfaces s := by
  obtain ⟨o, ho, hreach⟩ := hg.mem_allInterfaces.mp hi
  refine hg.mem_allInterfaces.mpr ⟨o, List.mem_cons_of_mem _ ?_, hreach⟩
  obtain rfl | ho := List.mem_cons.mp ho
  · exact ht
  · exact hshort.mem_baseChain_trans ho ht

/-! ## Substitution -/

/-- **The interfaces of a substituted type are the substituted interfaces**, unless the type is a
variable. -/
theorem Spares.interfaces_subst {r : Ty.Subst} {t : Ty} (hr : g.Spares r t) (ht : ∀ v, t ≠ .var v) :
    g.interfaces (t.subst r) = (g.interfaces t).map (·.subst r) := by
  cases t with
  | named n args =>
    rw [Ty.subst_named]
    cases hd : g.decl? n with
    | none => simp [interfaces, hd]
    | some d =>
      rw [interfaces_named hd, interfaces_named hd, List.map_map]
      refine List.map_congr_left fun i hi => (Ty.subst_bindArgs fun v hv hopen => ?_).symm
      exact hr n args d rfl hd i (List.mem_append_right _ hi) v hv hopen
  | var v => exact absurd rfl (ht v)
  | _ => rfl

theorem Spares.extends_subst {r : Ty.Subst} {t i : Ty} (hr : g.Spares r t) (h : g.Extends t i) :
    g.Extends (t.subst r) (i.subst r) := by
  have ht : ∀ v, t ≠ .var v := by
    rintro v rfl
    cases h
  rw [Extends, hr.interfaces_subst ht]
  exact List.mem_map_of_mem h

/-- **Interfaces go along with substitution.** -/
theorem Untouched.mem_allInterfaces_subst {r : Ty.Subst} (hr : g.Untouched r)
    (hg : g.FiniteClosures) (hshort : g.ShortChains) {t i : Ty} (h : i ∈ g.allInterfaces t) :
    i.subst r ∈ g.allInterfaces (t.subst r) := by
  obtain ⟨o, ho, hreach⟩ := hg.mem_allInterfaces.mp h
  have hreach' : Relation.TransGen g.Extends (o.subst r) (i.subst r) :=
    hreach.lift (·.subst r) fun t _ => (hr.spares t).extends_subst
  refine hg.mem_allInterfaces.mpr ⟨o.subst r, ?_, hreach'⟩
  obtain rfl | ho := List.mem_cons.mp ho
  · exact List.mem_cons_self
  · exact List.mem_cons_of_mem _ (hr.mem_baseChain_subst hshort ho)

end LateBridge.Graph
