import LateBridge.Proofs.Bridge.ErasureInheritance
import LateBridge.Proofs.Document.Derived

/-!
# Proofs/Bridge/ErasureScope — what an erasure mentions

Erasing picks types that mention no marked parameter from among base types, interfaces and
constraint types, and all of these are well formed wherever the erased type is.  The one exception
is a type given for a marked parameter, which is taken as it is.  So an erasure mentions what is in
scope, and a marked parameter only if a given type mentions it (`Erasure.Free`): it inherits
that from well-formed types (`Inside.inherited`).
-/

namespace LateBridge

/-- The type parameters that may be mentioned in a method. -/
def Method.visible (m : Method) : List TypeVar := m.declaring.vars ++ m.vars

namespace WellKnown

theorem exists_plain_of_required {g : Graph} {name : String} {t : Ty}
    (h : required g name = .ok t) : ∃ n, t = .plain n := by
  obtain ⟨d, -, rfl⟩ := Option.map_eq_some_iff.mp (required_eq_ok h)
  exact ⟨d.name, rfl⟩

theorem exists_plain_of_optional? {g : Graph} {name : String} {t : Ty}
    (h : optional? g name = some t) : ∃ n, t = .plain n := by
  obtain ⟨d, -, rfl⟩ := Option.map_eq_some_iff.mp h
  exact ⟨d.name, rfl⟩

/-- **The well-known types are declarations without arguments.** -/
theorem exists_plain_of_resolve {g : Graph} {k : WellKnown} (h : resolve g = .ok k) :
    ∀ t ∈ k.standIns, ∃ n, t = .plain n := by
  obtain ⟨object, hobject, h⟩ := bind_eq_ok_iff.mp h
  obtain ⟨valueType, hvalueType, h⟩ := bind_eq_ok_iff.mp h
  obtain ⟨array, harray, h⟩ := bind_eq_ok_iff.mp h
  obtain ⟨_, -, h⟩ := bind_eq_ok_iff.mp h
  obtain ⟨_, -, h⟩ := bind_eq_ok_iff.mp h
  obtain ⟨_, -, h⟩ := bind_eq_ok_iff.mp h
  obtain ⟨_, -, h⟩ := bind_eq_ok_iff.mp h
  cases h
  refine List.forall_mem_append.mpr ⟨List.forall_mem_append.mpr ⟨?_, fun t ht => ?_⟩, fun t ht => ?_⟩
  · exact List.forall_mem_cons.mpr ⟨exists_plain_of_required hobject, List.forall_mem_cons.mpr
      ⟨exists_plain_of_required hvalueType,
        List.forall_mem_singleton.mpr (exists_plain_of_required harray)⟩⟩
  · exact exists_plain_of_optional? (Option.mem_toList.mp ht)
  · exact exists_plain_of_optional? (Option.mem_toList.mp ht)

theorem vars_of_resolve {g : Graph} {k : WellKnown} (h : resolve g = .ok k) :
    ∀ t ∈ k.standIns, t.vars = [] := by
  intro t ht
  obtain ⟨n, rfl⟩ := exists_plain_of_resolve h t ht
  rfl

end WellKnown

namespace Erasure

variable {e : Erasure} {m : Method}

/-! ## Types without marked parameters -/

theorem needsAtList_eq_false {depth : Nat} {ts : List Ty} (h : e.needsAtList depth ts = false) :
    ∀ t ∈ ts, e.needsAt depth t = false := by
  induction ts with
  | nil => exact fun t ht => nomatch ht
  | cons t ts ih =>
    obtain ⟨ht, hts⟩ := Bool.or_eq_false_iff.mp h
    exact List.forall_mem_cons.mpr ⟨ht, ih hts⟩

/-- **A type that needs no erasure mentions no marked parameter.** -/
theorem isMarked_of_needsAt {depth : Nat} {t : Ty} (h : e.needsAt depth t = false) {v : TypeVar}
    (hv : v ∈ t.vars) : e.isMarked v = false := by
  induction t using Ty.induct generalizing depth with
  | named n args ih =>
    obtain ⟨a, ha, hva⟩ := Ty.mem_vars_named.mp hv
    exact ih a ha (needsAtList_eq_false (Bool.or_eq_false_iff.mp h).2 a ha) hva
  | array element rank ih =>
    exact ih (Bool.or_eq_false_iff.mp h).2 (Ty.mem_vars_array.mp hv)
  | var w =>
    obtain rfl := Ty.mem_vars_var.mp hv
    exact (Bool.or_eq_false_iff.mp h).2
  | pointer target ih => exact ih (Bool.or_eq_false_iff.mp h).2 (Ty.mem_vars_pointer.mp hv)
  | fnptr params ret ihp ihr =>
    obtain ⟨h, hret⟩ := Bool.or_eq_false_iff.mp h
    obtain ⟨p, hp, hvp⟩ | hvr := Ty.mem_vars_fnptr.mp hv
    · exact ihp p hp (needsAtList_eq_false (Bool.or_eq_false_iff.mp h).2 p hp) hvp
    · exact ihr hret hvr
  | void | dynamic | error => cases hv

/-- The type parameters mentioned by the types given for marked ones. -/
def givenVars (e : Erasure) : List TypeVar :=
  e.marked.flatMap fun p => p.2.toList.flatMap Ty.vars

/-- **A type free of marked parameters**, given types apart: what it mentions is visible in the
method, and a marked parameter is mentioned by a given type. -/
def Free (e : Erasure) (m : Method) (t : Ty) : Prop :=
  ∀ v ∈ t.vars, v ∈ m.visible ∧ (e.isMarked v = true → v ∈ e.givenVars)

/-- An answer that is free if it is a type. -/
def FreeAnswer (e : Erasure) (m : Method) : Answer → Prop := Answer.Holds (e.Free m)

/-- What is remembered is free. -/
def State.Free (e : Erasure) (m : Method) : State → Prop := State.Holds (e.Free m)

/-- **Erasure in a method**: the marked parameters are the method's, and what erasing looks up is
well formed there. -/
structure Inside (e : Erasure) (m : Method) : Prop where
  stored : e.graph.WellStored
  known : ∀ t ∈ e.known.standIns, t.vars = []
  own : ∀ v, e.isMarked v = true → v ∈ m.vars
  given : ∀ v ∈ e.givenVars, v ∈ m.visible
  constraints : ∀ v ∈ m.vars, ∀ t ∈ e.graph.constraintTypes v,
    t.WellFormed e.graph.names m.visible

theorem free_of_vars_eq_nil {t : Ty} (h : t.vars = []) : e.Free m t := by
  intro v hv
  rw [h] at hv
  cases hv

theorem freeAnswer_ok {t : Ty} (h : e.Free m t) : e.FreeAnswer m (.ok t) := Answer.holds_ok h

/-- A well-formed type that needs no erasure is free. -/
theorem free_of_needs {t : Ty} (h : e.needs t = false)
    (ht : t.WellFormed e.graph.names m.visible) : e.Free m t := by
  refine fun v hv => ⟨ht.mem_vars hv, fun hmarked => ?_⟩
  exact absurd (isMarked_of_needsAt h hv) (ne_of_eq_of_ne hmarked (by decide))

namespace Inside

variable (he : e.Inside m)

include he

theorem free_given {v : TypeVar} {t : Ty} (h : e.given? v = some t) : e.Free m t := by
  have hmem : (v, some t) ∈ e.marked := mem_of_lookup (Option.join_eq_some_iff.mp h)
  intro w hw
  have hgiven : w ∈ e.givenVars :=
    List.mem_flatMap.mpr ⟨_, hmem, List.mem_flatMap.mpr ⟨t, by simp, hw⟩⟩
  exact ⟨he.given w hgiven, fun _ => hgiven⟩

/-- **Erasing well-formed types gives free ones.** -/
theorem inherited : e.Inherited (·.WellFormed e.graph.names m.visible) (e.Free m) where
  base ht hu := he.stored.wellFormed_base? ht hu
  interface ht hu := he.stored.wellFormed_extends ht hu
  usable ht hneeds := free_of_needs hneeds ht
  standIn t ht := free_of_vars_eq_nil (he.known t ht)
  given h := he.free_given h
  constraint hv t ht := he.constraints _ (he.own _ hv) t ht

variable {s : State} (hs : s.Free e m)

include hs

theorem free_eraseParam {v : TypeVar} (hv : e.isMarked v = true) :
    e.FreeAnswer m (e.eraseParam s v).1 ∧ (e.eraseParam s v).2.Free e m :=
  he.inherited.eraseParam hs hv

theorem free_simplify {t : Ty} (ht : t.WellFormed e.graph.names m.visible) :
    e.FreeAnswer m (e.simplify s t).1 ∧ (e.simplify s t).2.Free e m :=
  he.inherited.simplify hs ht

theorem free_simplifyReturn {t : Ty} (ht : t.WellFormed e.graph.names m.visible) (isAsync : Bool) :
    e.FreeAnswer m (e.simplifyReturn s t isAsync).1 ∧
      (e.simplifyReturn s t isAsync).2.Free e m :=
  he.inherited.simplifyReturn hs ht isAsync

end Inside

end Erasure

end LateBridge
