import LateBridge.Bridge.Erasure
import LateBridge.Dispatch.Binding
import LateBridge.Proofs.Results
import LateBridge.Proofs.Symbols.Assignability

/-!
# Proofs/Bridge/ErasureBound — an erasure is above every instantiation

Whatever types late binding accepts for the marked parameters, an instantiated type converts to its
instantiated erasure.  Base types and interfaces are above a type and stay so under substitution; a
parameter converts to its constraint types because binding checks them, and from there the induction
goes on.  What is remembered of earlier parameters is covered by an invariant of the state
(`State.Bounded`), which every step keeps.
-/

namespace LateBridge

/-! ## The roots among the well-known types -/

/-- **The roots are the ones the graph declares.** -/
structure WellKnown.RootsOf (k : WellKnown) (g : Graph) : Prop where
  object : g.special? .object = some k.object
  valueType : g.special? .valueType = some k.valueType
  array : g.special? .array = some k.array

theorem WellKnown.required_eq_ok {g : Graph} {name : String} {t : Ty}
    (h : required g name = .ok t) : (g.find? name).map (Ty.plain ·.name) = some t := by
  rw [required] at h
  split at h
  · rename_i hd
    cases h
    rw [hd, Option.map_some]
  · cases h

theorem WellKnown.rootsOf_of_resolve {g : Graph} {k : WellKnown} (h : resolve g = .ok k) :
    k.RootsOf g := by
  obtain ⟨object, hobject, h⟩ := bind_eq_ok_iff.mp h
  obtain ⟨valueType, hvalueType, h⟩ := bind_eq_ok_iff.mp h
  obtain ⟨array, harray, h⟩ := bind_eq_ok_iff.mp h
  obtain ⟨_, -, h⟩ := bind_eq_ok_iff.mp h
  obtain ⟨_, -, h⟩ := bind_eq_ok_iff.mp h
  obtain ⟨_, -, h⟩ := bind_eq_ok_iff.mp h
  obtain ⟨_, -, h⟩ := bind_eq_ok_iff.mp h
  cases h
  exact ⟨required_eq_ok hobject, required_eq_ok hvalueType, required_eq_ok harray⟩

/-- A special type of a graph is the special type. -/
theorem Graph.isSpecial_of_special? {g : Graph} {s : Special} {t : Ty}
    (h : g.special? s = some t) : t.isSpecial s = true := by
  obtain ⟨d, hd, rfl⟩ := Option.map_eq_some_iff.mp h
  have hname : d.name.metadata = s.metadata := metadata_of_find? hd
  simp [Ty.isSpecial, Ty.special?, Ty.plain, Ty.declName?, DeclName.special?, hname]

/-- A special type mentions nothing. -/
theorem Graph.subst_of_special? {g : Graph} {s : Special} {t : Ty} (h : g.special? s = some t)
    (r : Ty.Subst) : t.subst r = t := by
  obtain ⟨d, -, rfl⟩ := Option.map_eq_some_iff.mp h
  exact Ty.subst_plain r d.name

/-! ## Constraints -/

namespace Graph

variable {g : Graph} {s : Ty.Subst} {v : TypeVar} {t : Ty}

/-- What satisfies the constraints converts to the constraint types. -/
theorem isAssignable_of_satisfies (h : g.satisfies s v t = true) {c : Ty}
    (hc : c ∈ g.constraintTypes v) : g.isAssignable t (c.subst s) = true := by
  rw [satisfies, Bool.and_eq_true, List.all_eq_true] at h
  exact h.2 c hc

/-- What satisfies the constraint to value types is one. -/
theorem isValueType_of_satisfies (h : g.satisfies s v t = true)
    (hvalue : (g.constraints v).value = true) : g.isValueType t = true := by
  simp only [satisfies, hvalue, isNonNullable, Bool.and_eq_true, Bool.not_eq_true',
    Bool.true_and, Bool.not_eq_false'] at h
  exact h.1.2.1

end Graph

namespace Erasure

variable {e : Erasure}

/-! ## Choices -/

/-- What is picked is one of the candidates and needs no erasure. -/
theorem pick_eq_ok {lists : List (List Ty)} {u : Ty} (h : e.pick lists = .ok u) :
    ∃ candidates ∈ lists, u ∈ candidates ∧ e.needs u = false := by
  induction lists with
  | nil => cases h
  | cons candidates rest ih =>
    rw [pick] at h
    split at h
    · rename_i hfilter
      cases h
      have hmem : u ∈ candidates.filter (!e.needs ·) := hfilter ▸ List.mem_singleton_self u
      rw [List.mem_filter, Bool.not_eq_true'] at hmem
      exact ⟨candidates, List.mem_cons_self, hmem⟩
    · obtain ⟨candidates', hmem, hu⟩ := ih h
      exact ⟨candidates', List.mem_cons_of_mem _ hmem, hu⟩
    · cases h

/-- The interface that a type erases to is one of its own and needs no erasure. -/
theorem toInterface_eq_ok (hg : e.graph.FiniteClosures) {t u : Ty} (h : e.toInterface t = .ok u) :
    u ∈ e.graph.allInterfaces t ∧ e.needs u = false := by
  obtain ⟨candidates, hcandidates, hmem, hneeds⟩ := pick_eq_ok h
  refine ⟨?_, hneeds⟩
  obtain rfl | hcandidates := List.mem_cons.mp hcandidates
  · exact hg.interfaces_subset t hmem
  · obtain rfl := List.mem_singleton.mp hcandidates
    exact hmem

/-- A usable base type is a base type that needs no erasure. -/
theorem usableBase?_eq_some {t u : Ty} (h : e.usableBase? t = some u) :
    u ∈ e.graph.baseChain t ∧ e.needs u = false := by
  have hu := List.find?_some h
  have hmem := (List.takeWhile_sublist _).mem (List.mem_of_find?_eq_some h)
  exact ⟨hmem, by simpa using hu⟩

/-- **What a class or a value type erases to**: a base type, else an interface, else the root of the
value types. -/
theorem toBase_eq_ok {t u : Ty} (h : e.toBase t = .ok u) :
    (u ∈ e.graph.baseChain t ∧ e.needs u = false) ∨ e.toInterface t = .ok u ∨
      (e.graph.isValueType t = true ∧ u = e.known.valueType) := by
  rw [toBase] at h
  split at h
  · rename_i hbase
    cases h
    exact .inl (usableBase?_eq_some hbase)
  split at h
  · rename_i hi
    cases h
    exact .inr (.inl hi)
  split at h
  · rename_i hvalue
    cases h
    exact .inr (.inr ⟨hvalue, rfl⟩)
  · cases h

theorem mem_addNew {α : Type} [DecidableEq α] {found : List α} {a b : α} :
    b ∈ addNew found a ↔ b ∈ found ∨ b = a := by
  rw [addNew]
  split
  · rename_i ha
    exact ⟨.inl, fun h => h.elim id fun hb => hb ▸ ha⟩
  · rw [List.mem_append, List.mem_singleton]

/-! ## Bounds -/

/-- **The hierarchy erasure is meant for**: one that a compiler accepts, with the roots of the core
library. -/
structure Standard (e : Erasure) : Prop where
  lawful : e.graph.Lawful
  rooted : e.graph.Rooted
  known : e.known.RootsOf e.graph
  unmanaged : ∀ v, (e.graph.constraints v).unmanaged = true → (e.graph.constraints v).value = true

/-- **An instantiation that late binding accepts**: it knows the marked parameters, none of which
has a type given for it, and what it puts in passes the constraints. -/
structure Accepts (e : Erasure) (r : Ty.Subst) : Prop where
  untouched : e.graph.Untouched r
  ungiven : ∀ p ∈ e.marked, p.2 = none
  known : ∀ v, e.isMarked v = true → (r.lookup v).isSome
  satisfies : ∀ v t, r.lookup v = some t → e.graph.satisfies r v t = true

/-- An answer is above a type: what is put into the type converts to what is put into the answer. -/
def Bounds (e : Erasure) (r : Ty.Subst) (t : Ty) (a : Answer) : Prop :=
  ∀ u, a = .ok u → e.graph.isAssignable (t.subst r) (u.subst r) = true

/-- **What is remembered of the parameters is above them.** -/
def State.Bounded (e : Erasure) (r : Ty.Subst) (s : State) : Prop :=
  ∀ v a, s.erased.lookup v = some a → (r.lookup v).isSome → e.Bounds r (.var v) a

/-- A step that gives answers above its parameters and remembers only such. -/
def StepBounds (e : Erasure) (r : Ty.Subst) (step : VarStep) : Prop :=
  ∀ s v a s', s.Bounded e r → (r.lookup v).isSome → step s v = some (a, s') →
    e.Bounds r (.var v) a ∧ s'.Bounded e r

variable {r : Ty.Subst}

theorem bounds_self (t : Ty) : e.Bounds r t (.ok t) := by
  rintro u ⟨⟩
  exact e.graph.isAssignable_refl _

theorem bounds_error (t : Ty) (x : ErasureError) : e.Bounds r t (.error x) := fun _ h => by cases h

/-- A value type is below the root of the value types. -/
theorem Standard.isAssignable_valueType (he : e.Standard) {t : Ty}
    (ht : e.graph.isValueType t = true) : e.graph.isAssignable t e.known.valueType = true :=
  Graph.isAssignable_of_isSpecial_valueType (Graph.isSpecial_of_special? he.known.valueType) ht

/-- A type is below the root of all types. -/
theorem Standard.isAssignable_object (he : e.Standard) (t : Ty) :
    e.graph.isAssignable t e.known.object = true :=
  Graph.isAssignable_of_isSpecial_object (Graph.isSpecial_of_special? he.known.object)

/-- An array is below the root of the arrays. -/
theorem Standard.isAssignable_array (he : e.Standard) (element : Ty) (rank : Nat) :
    e.graph.isAssignable (.array element rank) e.known.array = true :=
  he.lawful.isAssignable_of_mem_baseChain he.rooted
    (he.lawful.shortChains.mem_baseChain.mpr ⟨_, he.known.array, .inl rfl⟩)

/-- What satisfies the constraints of a parameter that wants value types is one. -/
theorem Standard.isValueType_of_satisfies (he : e.Standard) {v : TypeVar} {t : Ty}
    (h : e.graph.satisfies r v t = true) (hwants : (e.graph.constraints v).wantsValue = true) :
    e.graph.isValueType t = true := by
  rw [Constraints.wantsValue, Bool.or_eq_true] at hwants
  exact Graph.isValueType_of_satisfies h (hwants.elim id (he.unmanaged v))

/-! ## Declared types and arrays -/

theorem Standard.bounds_toInterface (he : e.Standard) (hr : e.graph.Untouched r) (t : Ty) :
    e.Bounds r t (e.toInterface t) := by
  intro u hu
  obtain ⟨hmem, -⟩ := toInterface_eq_ok he.lawful.finiteClosures hu
  exact he.lawful.isAssignable_of_mem_allInterfaces
    (hr.mem_allInterfaces_subst he.lawful.finiteClosures he.lawful.shortChains hmem)

theorem Standard.bounds_toBase (he : e.Standard) (hr : e.graph.Untouched r) (n : DeclName)
    (args : List Ty) : e.Bounds r (.named n args) (e.toBase (.named n args)) := by
  intro u hu
  obtain ⟨hmem, -⟩ | hi | ⟨hvalue, rfl⟩ := toBase_eq_ok hu
  · exact he.lawful.isAssignable_of_mem_baseChain he.rooted
      (hr.mem_baseChain_subst he.lawful.shortChains hmem)
  · exact he.bounds_toInterface hr _ u hi
  · rw [Ty.subst_named, Graph.subst_of_special? he.known.valueType]
    exact he.isAssignable_valueType hvalue

/-- **A declared type is below its erasure.** -/
theorem Standard.bounds_ofNamed (he : e.Standard) (hr : e.graph.Untouched r) (n : DeclName)
    (args : List Ty) : e.Bounds r (.named n args) (e.ofNamed (.named n args)) := by
  rw [ofNamed]
  split
  · exact he.bounds_toInterface hr _
  · exact he.bounds_toBase hr n args

/-- An array is below the array root. -/
theorem Standard.bounds_array (he : e.Standard) (element : Ty) (rank : Nat) :
    e.Bounds r (.array element rank) (.ok e.known.array) := by
  rintro u ⟨⟩
  rw [Ty.subst_array, Graph.subst_of_special? he.known.array]
  exact he.isAssignable_array _ rank

/-! ## Types -/

/-- **A type is below its erasure**, if the parameters are. -/
theorem Standard.bounds_simplifyBy (he : e.Standard) (hr : e.Accepts r) {step : VarStep}
    (hstep : e.StepBounds r step) {s s' : State} {t : Ty} {a : Answer} (hs : s.Bounded e r)
    (h : e.simplifyBy step s t = some (a, s')) : e.Bounds r t a ∧ s'.Bounded e r := by
  unfold simplifyBy at h
  split at h
  · cases h
    exact ⟨bounds_self t, hs⟩
  split at h
  · cases h
    exact ⟨bounds_error t _, hs⟩
  rename_i hneeds _
  cases t with
  | named n args =>
    cases h
    exact ⟨he.bounds_ofNamed hr.untouched n args, hs⟩
  | array element rank =>
    cases h
    exact ⟨he.bounds_array element rank, hs⟩
  | var v =>
    have hmarked : e.isMarked v = true := by simpa [needs, needsAt, maxNesting] using hneeds
    exact hstep s v a s' hs (hr.known v hmarked) h
  | pointer target =>
    cases h
    exact ⟨bounds_error _ _, hs⟩
  | fnptr params ret =>
    cases h
    exact ⟨bounds_error _ _, hs⟩
  | void | dynamic | error =>
    cases h
    exact ⟨bounds_self _, hs⟩

/-- What the types of a list erase to is above one of them. -/
theorem Standard.bounds_eraseEach (he : e.Standard) (hr : e.Accepts r) {step : VarStep}
    (hstep : e.StepBounds r step) {s s' : State} {found found' types : List Ty}
    (hs : s.Bounded e r) (h : e.eraseEach step s found types = some (found', s')) :
    (∀ u ∈ found', u ∈ found ∨ ∃ t ∈ types, e.Bounds r t (.ok u)) ∧ s'.Bounded e r := by
  induction types generalizing s found with
  | nil =>
    cases h
    exact ⟨fun u hu => .inl hu, hs⟩
  | cons t types ih =>
    rw [eraseEach] at h
    split at h
    · cases h
    · rename_i u s₁ ht
      obtain ⟨hu, hs₁⟩ := he.bounds_simplifyBy hr hstep hs ht
      obtain ⟨hfound, hs'⟩ := ih hs₁ h
      refine ⟨fun w hw => ?_, hs'⟩
      obtain hw | ⟨t', ht', hw⟩ := hfound w hw
      · obtain hw | rfl := mem_addNew.mp hw
        · exact .inl hw
        · exact .inr ⟨t, List.mem_cons_self, hu⟩
      · exact .inr ⟨t', List.mem_cons_of_mem _ ht', hw⟩
    · rename_i s₁ ht
      obtain ⟨-, hs₁⟩ := he.bounds_simplifyBy hr hstep hs ht
      obtain ⟨hfound, hs'⟩ := ih hs₁ h
      refine ⟨fun w hw => (hfound w hw).imp_right ?_, hs'⟩
      rintro ⟨t', ht', hw⟩
      exact ⟨t', List.mem_cons_of_mem _ ht', hw⟩

/-! ## Parameters -/

/-- A parameter is below what is above one of its constraint types. -/
theorem Standard.bounds_of_constraint (he : e.Standard) (hr : e.Accepts r) {v : TypeVar}
    (hv : (r.lookup v).isSome) {t u : Ty} (ht : t ∈ e.graph.constraintTypes v)
    (hu : e.Bounds r t (.ok u)) : e.Bounds r (.var v) (.ok u) := by
  rintro u' ⟨⟩
  obtain ⟨a, ha⟩ := Option.isSome_iff_exists.mp hv
  rw [Ty.subst_var, ha, Option.getD_some]
  exact he.lawful.isAssignable_trans he.rooted
    (Graph.isAssignable_of_satisfies (hr.satisfies v a ha) ht) (hu u rfl)

/-- A parameter is below the root that its constraints leave. -/
theorem Standard.bounds_rootOf (he : e.Standard) (hr : e.Accepts r) {v : TypeVar}
    (hv : (r.lookup v).isSome) (types : List Ty) :
    e.Bounds r (.var v) (e.rootOf (e.graph.constraints v) types) := by
  intro u hu
  obtain ⟨a, ha⟩ := Option.isSome_iff_exists.mp hv
  rw [Ty.subst_var, ha, Option.getD_some]
  rw [rootOf] at hu
  split at hu
  · rename_i hwants
    cases hu
    rw [Graph.subst_of_special? he.known.valueType]
    exact he.isAssignable_valueType (he.isValueType_of_satisfies (hr.satisfies v a ha) hwants)
  · split at hu
    · cases hu
      rw [Graph.subst_of_special? he.known.object]
      exact he.isAssignable_object a
    · cases hu

theorem Standard.bounds_ofConstraints (he : e.Standard) (hr : e.Accepts r) {step : VarStep}
    (hstep : e.StepBounds r step) {s s' : State} {v : TypeVar} {a : Answer}
    (hv : (r.lookup v).isSome) (hs : s.Bounded e r)
    (h : e.ofConstraints step s v = some (a, s')) : e.Bounds r (.var v) a ∧ s'.Bounded e r := by
  rw [ofConstraints] at h
  split at h
  · rename_i t hfilter
    cases h
    have hmem : t ∈ e.graph.constraintTypes v :=
      List.mem_of_mem_filter (hfilter ▸ List.mem_singleton_self t)
    exact ⟨he.bounds_of_constraint hr hv hmem (bounds_self t), hs⟩
  · cases h
    exact ⟨bounds_error _ _, hs⟩
  · split at h
    · cases h
    · rename_i u s₁ heach
      obtain ⟨hfound, hs₁⟩ := he.bounds_eraseEach hr hstep hs heach
      cases h
      obtain hnil | ⟨t, ht, hu⟩ := hfound u (List.mem_singleton_self u)
      · exact absurd hnil List.not_mem_nil
      · exact ⟨he.bounds_of_constraint hr hv ht hu, hs₁⟩
    · rename_i s₁ heach
      obtain ⟨-, hs₁⟩ := he.bounds_eraseEach hr hstep hs heach
      cases h
      exact ⟨he.bounds_rootOf hr hv _, hs₁⟩
    · rename_i heach
      obtain ⟨-, hs₁⟩ := he.bounds_eraseEach hr hstep hs heach
      cases h
      exact ⟨bounds_error _ _, hs₁⟩

/-- **A parameter is below its erasure**, and what is remembered stays so. -/
theorem Standard.stepBounds (he : e.Standard) (hr : e.Accepts r) (fuel : Nat) :
    e.StepBounds r (e.eraseVarWithin fuel) := by
  induction fuel with
  | zero =>
    intro s v a s' hs hv h
    cases h
  | succ fuel ih =>
    intro s v a s' hs hv h
    rw [eraseVarWithin] at h
    split at h
    · rename_i given hgiven
      exact absurd (hr.ungiven _ (mem_of_lookup hgiven)) (Option.some_ne_none given)
    split at h
    · rename_i hremembered
      cases h
      exact ⟨hs v a hremembered hv, hs⟩
    split at h
    · cases h
      exact ⟨bounds_error _ _, hs⟩
    split at h
    · cases h
    · rename_i hof
      cases h
      obtain ⟨ha, hs₁⟩ := he.bounds_ofConstraints hr ih hv (s := ⟨s.erased, v :: s.visiting⟩) hs hof
      refine ⟨ha, fun w b hw hwr => ?_⟩
      rw [List.lookup_cons] at hw
      split at hw
      · rename_i hwv
        obtain rfl := eq_of_beq hwv
        cases hw
        exact ha
      · exact hs₁ w b hw hwr

end Erasure

end LateBridge
