import LateBridge.Proofs.Bridge.ErasureScope
import LateBridge.Proofs.Bridge.Remembering
import LateBridge.Proofs.Bridging
import LateBridge.Proofs.Symbols.PartialSubstitution

/-!
# Proofs/Bridge/UpperBound — an erasure is above every instantiation, whoever owns the parameters

    type ──put in for the marked parameters──▸ instantiated type ──converts to──▸ erasure

The marked parameters may belong to methods or to types, to one declaration or to many, and erasing
may have gone on for any time before (`erasure_upper_bound`).  What is picked needs no erasure, so
it mentions no marked parameter and instantiating leaves it alone; what is above a type and left
alone stays above (`Standard.above_settled`).  A parameter is below its constraint types because
what is put in satisfies them (`Standard.above_verdict`).  The induction is on the run: every task
of a run is answered by something above it, and only such answers are remembered (`Runs.above`).
-/

namespace LateBridge.Erasure

variable {e : Erasure} {r : Ty.Subst}

/-! ## Instantiations -/

/-- **An instantiation of the marked parameters** that satisfies their constraints, where no type is
given for any of them. -/
structure Instantiates (e : Erasure) (r : Ty.Subst) : Prop where
  ungiven : ∀ p ∈ e.marked, p.2 = none
  domain : ∀ v, (r.lookup v).isSome ↔ e.isMarked v = true
  satisfies : ∀ v t, r.lookup v = some t → e.graph.satisfies r v t = true

/-- An answer is above every instantiation of a type. -/
def Above (e : Erasure) (r : Ty.Subst) (t : Ty) (a : Answer) : Prop :=
  ∀ u, a = .ok u → e.graph.isAssignable (t.subst r) u = true

theorem above_error (t : Ty) (x : ErasureError) : e.Above r t (.error x) := fun _ h => nomatch h

namespace Instantiates

variable (hr : e.Instantiates r) {t u : Ty}

include hr

/-- What needs no erasure mentions nothing that is put in. -/
theorem lookup_eq_none (h : e.needs u = false) : ∀ v ∈ u.vars, r.lookup v = none := by
  intro v hv
  have hmarked : ¬(r.lookup v).isSome := by
    rw [hr.domain, isMarked_of_needsAt h hv]
    exact Bool.false_ne_true
  exact Option.not_isSome_iff_eq_none.mp hmarked

/-- What needs no erasure is its own instantiation. -/
theorem subst_eq_self (h : e.needs t = false) : t.subst r = t := by
  rw [Ty.subst_congr t (r := []) fun v hv => by rw [Ty.subst_var, hr.lookup_eq_none h v hv]; rfl,
    Ty.subst_nil]

theorem above_self (h : e.needs t = false) : e.Above r t (.ok t) := by
  rintro u ⟨⟩
  rw [hr.subst_eq_self h]
  exact e.graph.isAssignable_refl t

theorem given?_eq_none (v : TypeVar) : e.given? v = none := by
  cases h : e.given? v with
  | none => rfl
  | some t =>
    have hmem : (v, some t) ∈ e.marked := mem_of_lookup (Option.join_eq_some_iff.mp h)
    exact absurd (hr.ungiven _ hmem) (Option.some_ne_none t)

end Instantiates

/-! ## One type -/

section Standard

variable (he : e.Standard) (hr : e.Instantiates r)

include he

theorem Standard.above_object (t : Ty) : e.Above r t (.ok e.known.object) := by
  rintro u ⟨⟩
  exact he.isAssignable_object _

theorem Standard.above_array (element : Ty) (rank : Nat) :
    e.Above r (.array element rank) (.ok e.known.array) := by
  rintro u ⟨⟩
  rw [Ty.subst_array]
  exact he.isAssignable_array _ rank

include hr

theorem Standard.above_toInterface (t : Ty) : e.Above r t (e.toInterface t) := by
  intro u hu
  obtain ⟨hmem, hneeds⟩ := toInterface_eq_ok he.lawful.finiteClosures hu
  exact he.lawful.isAssignable_of_mem_allInterfaces
    (he.lawful.finiteClosures.mem_allInterfaces_subst_of_free he.lawful.shortChains
      (hr.lookup_eq_none hneeds) hmem)

theorem Standard.above_toBase (n : DeclName) (args : List Ty) :
    e.Above r (.named n args) (e.toBase (.named n args)) := by
  intro u hu
  obtain ⟨hmem, hneeds⟩ | hi | ⟨hvalue, rfl⟩ := toBase_eq_ok hu
  · exact he.lawful.isAssignable_of_mem_baseChain he.rooted
      (he.lawful.shortChains.mem_baseChain_subst_of_free (hr.lookup_eq_none hneeds) hmem)
  · exact he.above_toInterface hr _ u hi
  · -- Whether a named type is a value type does not depend on its arguments.
    rw [Ty.subst_named]
    exact he.isAssignable_valueType hvalue

/-- **A type that is no marked parameter is below its erasure**, however it is instantiated. -/
theorem Standard.above_settled {t : Ty} (ht : ∀ v, t = .var v → e.isMarked v = false) :
    e.Above r t (e.settled t) := by
  unfold Erasure.settled
  split
  · rename_i hneeds
    exact hr.above_self (by simpa using hneeds)
  rename_i hneeds
  split
  · exact above_error t _
  cases t with
  | named n args =>
    dsimp only
    rw [ofNamed]
    split
    · exact he.above_toInterface hr _
    · exact he.above_toBase hr n args
  | array element rank => exact he.above_array element rank
  | var v => exact absurd ((needs_var e v).trans (ht v rfl)) (by simpa using hneeds)
  | pointer target => exact above_error _ _
  | fnptr params ret => exact above_error _ _
  | void => exact hr.above_self (needs_of_atom (.inl rfl))
  | dynamic => exact hr.above_self (needs_of_atom (.inr (.inl rfl)))
  | error => exact hr.above_self (needs_of_atom (.inr (.inr rfl)))

end Standard

/-! ## One parameter -/

section Verdict

variable (he : e.Standard) (hr : e.Instantiates r) {v : TypeVar} (hv : e.isMarked v = true)

include he hr hv

/-- A parameter is below what is above one of its constraint types. -/
theorem Standard.above_of_constraint {c : Ty} (hc : c ∈ e.graph.constraintTypes v) {a : Answer}
    (ha : e.Above r c a) : e.Above r (.var v) a := by
  intro u hu
  obtain ⟨t, ht⟩ := Option.isSome_iff_exists.mp ((hr.domain v).mpr hv)
  rw [Ty.subst_var, ht, Option.getD_some]
  exact he.lawful.isAssignable_trans he.rooted
    (Graph.isAssignable_of_satisfies (hr.satisfies v t ht) hc) (ha u hu)

/-- A parameter is below the root that its constraints leave. -/
theorem Standard.above_rootOf (types : List Ty) :
    e.Above r (.var v) (e.rootOf (e.graph.constraints v) types) := by
  rw [rootOf]
  split
  · rename_i hwants
    rintro u ⟨⟩
    obtain ⟨t, ht⟩ := Option.isSome_iff_exists.mp ((hr.domain v).mpr hv)
    rw [Ty.subst_var, ht, Option.getD_some]
    exact he.isAssignable_valueType (he.isValueType_of_satisfies (hr.satisfies v t ht) hwants)
  split
  · exact he.above_object _
  · exact above_error _ _

/-- A parameter is below what its constraint types decide that need no erasure. -/
theorem Standard.above_direct? {a : Answer} (h : e.direct? v = some a) : e.Above r (.var v) a := by
  rw [direct?] at h
  split at h
  · cases h
  · rename_i c hfilter
    cases h
    have hmem : c ∈ (e.graph.constraintTypes v).filter (!e.needs ·) := by simp [hfilter]
    obtain ⟨hc, hneeds⟩ := List.mem_filter.mp hmem
    exact he.above_of_constraint hr hv hc (hr.above_self (by simpa using hneeds))
  · cases h
    exact above_error _ _

/-- **A parameter is below the verdict on it**, if its constraint types are below the answers for
them. -/
theorem Standard.above_verdict {answers : List Answer}
    (h : ∀ a ∈ answers, ∃ c ∈ e.graph.constraintTypes v, e.Above r c a) :
    e.Above r (.var v) (e.verdict v answers) := by
  rw [verdict]
  split
  · rename_i hdirect
    exact he.above_direct? hr hv hdirect
  split
  · rename_i t htypes
    have hmem : t ∈ typesOf [] answers := by simp [htypes]
    obtain ⟨c, hc, ha⟩ := h _ ((mem_typesOf hmem).resolve_left List.not_mem_nil)
    exact he.above_of_constraint hr hv hc ha
  · exact he.above_rootOf hr hv _
  · exact above_error _ _

end Verdict

/-! ## Runs -/

/-- A task answered as it should be: a plain one by its answer, a marked parameter by something
above it. -/
def Task.AnsweredAbove (e : Erasure) (r : Ty.Subst) : Task → Answer → Prop
  | .plain a, b => b = a
  | .param v, b => e.isMarked v = true → e.Above r (.var v) b

/-- **What is remembered of the marked parameters is above them.** -/
def State.Above (e : Erasure) (r : Ty.Subst) (s : State) : Prop :=
  ∀ v a, e.isMarked v = true → s.erased.lookup v = some a → e.Above r (.var v) a

theorem State.above_new : State.Above e r {} := fun _ _ _ h => nomatch h

theorem Task.answeredAbove_of_answeredBy {t : Task} {a : Answer}
    (h : t.AnsweredBy (fun v b => e.isMarked v = true → e.Above r (.var v) b) a) :
    t.AnsweredAbove e r a := by
  cases t <;> exact h

section Runs

variable (he : e.Standard) (hr : e.Instantiates r)

include he hr

/-- A type is below the answer for its task. -/
theorem Standard.above_of_answered {t : Ty} {a : Answer}
    (h : (e.taskOf t).AnsweredAbove e r a) : e.Above r t a := by
  cases t with
  | var v =>
    rw [taskOf] at h
    split at h
    · rename_i hmarked
      exact h hmarked
    · rename_i hmarked
      obtain rfl := h
      exact hr.above_self ((needs_var e v).trans (by simpa using hmarked))
  | _ =>
    obtain rfl := h
    exact he.above_settled hr fun v hv => by cases hv

/-- The answers for the tasks of a parameter are above its constraint types. -/
theorem Standard.exists_above_of_tasks {v : TypeVar} {answers : List Answer}
    (h : List.Forall₂ (Task.AnsweredAbove e r) (e.tasks v) answers) :
    ∀ a ∈ answers, ∃ c ∈ e.graph.constraintTypes v, e.Above r c a := by
  intro a ha
  obtain ⟨task, htask, ha⟩ := exists_of_mem_forall₂ h ha
  rw [tasks] at htask
  split at htask
  · cases htask
  · obtain ⟨c, hc, rfl⟩ := List.mem_map.mp htask
    exact ⟨c, hc, he.above_of_answered hr ha⟩

/-- Being above the marked parameters is an invariant of answers. -/
theorem Standard.aboveInvariant : e.Invariant (fun _ => True) fun v a =>
    e.isMarked v = true → e.Above r (.var v) a where
  tasks _ _ _ := trivial
  given hgiven := absurd (hgiven.symm.trans (hr.given?_eq_none _)) (Option.some_ne_none _)
  underWay _ _ := above_error _ _
  verdict _ h hmarked := he.above_verdict hr hmarked
    (he.exists_above_of_tasks hr (h.imp fun _ _ => Task.answeredAbove_of_answeredBy))

/-- **The answers of a run are above its tasks**, and so is all that is remembered.  Parameters that
are not marked may be under way; nothing is said of them. -/
theorem Runs.above {s s' : State} {ts : List Task} {as : List Answer} (h : e.Runs s ts as s')
    (hs : s.Above e r) : List.Forall₂ (Task.AnsweredAbove e r) ts as ∧ s'.Above e r := by
  obtain ⟨has, hs'⟩ := h.invariant (he.aboveInvariant hr) (fun _ _ => trivial)
    fun v a hlookup hmarked => hs v a hmarked hlookup
  exact ⟨has.imp fun _ _ => Task.answeredAbove_of_answeredBy,
    fun v a hmarked hlookup => hs' v a hlookup hmarked⟩

/-- What is remembered after any queries is above the parameters. -/
theorem Standard.above_afterAll (qs : List Query) {s : State} (hs : s.Above e r) :
    (e.afterAll s qs).Above e r := by
  induction qs generalizing s with
  | nil => exact hs
  | cons q qs ih => exact ih ((runs_ask s q).above he hr hs).2

end Runs

end LateBridge.Erasure

namespace LateBridge

/-! ## Compiled programs -/

/-- **An erasure is an upper bound of every instantiation.**  Over any marked parameters without
given types, after any queries, a type with types put in for the marked parameters converts to the
erasure of the type, if what is put in satisfies the constraints. -/
theorem erasure_upper_bound {docs : List GraphDocument} {g : Graph} {known : WellKnown}
    (hg : Compiled docs g) (hknown : WellKnown.resolve g = .ok known)
    {marked : List (TypeVar × Option Ty)} (hungiven : ∀ p ∈ marked, p.2 = none)
    (qs : List Erasure.Query) {s : Ty.Subst}
    (hdomain : ∀ v, (s.lookup v).isSome ↔ v ∈ marked.map (·.1))
    (hsatisfies : ∀ v a, s.lookup v = some a → g.satisfies s v a = true) {t u : Ty}
    (hu : (Erasure.simplify ⟨g, known, marked⟩ (Erasure.afterAll ⟨g, known, marked⟩ {} qs) t).1 =
      .ok u) : g.isAssignable (t.subst s) u = true := by
  have he : (Planner.erasure ⟨g, known, {}⟩ ⟨marked, none⟩).Standard := hg.standard hknown _
  have hr : Erasure.Instantiates ⟨g, known, marked⟩ s := by
    refine ⟨hungiven, fun v => ?_, hsatisfies⟩
    rw [hdomain, Erasure.isMarked]
    simp
  have hstate := he.above_afterAll hr qs Erasure.State.above_new
  obtain ⟨hanswer, -⟩ := (Erasure.runs_simplify _ t).above he hr hstate
  exact he.above_of_answered hr (List.forall₂_cons.mp hanswer).1 u hu

/-! A rack for shapes of one kind, with a method for boxes of shapes that go on it: the parameter
of the method is constrained by that of the type, and that by an interface. -/

/-- Whether a type erases to another one after some queries. -/
def Erasure.erasesTo (e : Erasure) (qs : List Erasure.Query) (t u : Ty) : Bool :=
  match (e.simplify (e.afterAll {} qs) t).1 with
  | .ok found => found == u
  | .error _ => false

theorem Erasure.simplify_of_erasesTo {e : Erasure} {qs : List Erasure.Query} {t u : Ty}
    (h : e.erasesTo qs t u = true) : (e.simplify (e.afterAll {} qs) t).1 = .ok u := by
  rw [erasesTo] at h
  split at h
  · rename_i found hfound
    rw [hfound, eq_of_beq h]
  · cases h

namespace Rack

/-- The program. -/
def docs : List GraphDocument :=
  [{ coreLibrary := false, usings := []
     types := CoreLibrary.bareTypes ++ [
      CoreLibrary.interfaceType "Shop" "IBox",
      { CoreLibrary.classType "Shop" "Box" with
        typeParams := [CoreLibrary.param "T"], interfaces := ["IBox"] },
      CoreLibrary.interfaceType "Shop" "IShape",
      { CoreLibrary.classType "Shop" "Circle" with interfaces := ["IShape"] },
      { CoreLibrary.classType "Shop" "Rack" with
        typeParams := [{ CoreLibrary.param "U" with constraints := ["IShape"] }]
        methods := [
          { name := "Put", accessibility := "public", flags := {}
            typeParams := [{ CoreLibrary.param "T" with constraints := ["U"] }]
            params := [⟨"box", "Box<T>", .none, none, false, none⟩]
            returns := "void", attributes := [], location := none }] }] }]

/-- The type of the rack. -/
def name : DeclName := .top (some "Shop") "Rack" ["U"]

/-- The parameter of the type. -/
def ofType : TypeVar := ⟨.type name, 0, "U"⟩

/-- The parameter of the method. -/
def ofMethod : TypeVar := ⟨.method ⟨name, 0⟩, 0, "T"⟩

/-- Erasing both. -/
def erasure (g : Graph) (known : WellKnown) : Erasure :=
  ⟨g, known, [(ofMethod, none), (ofType, none)]⟩

/-- Boxes of the method's parameter. -/
def boxes : Ty := .named (.top (some "Shop") "Box" ["T"]) [.var ofMethod]

/-- Circles for both. -/
def circles : Ty.Subst :=
  [ofType, ofMethod].map fun v => (v, .plain (.top (some "Shop") "Circle" []))

/-- What boxes erase to. -/
def box : Ty := .plain (.top (some "Shop") "IBox" [])

/-- What the method's parameter erases to. -/
def shape : Ty := .plain (.top (some "Shop") "IShape" [])

/-- Whether the program loads, is lawful, takes circles, and erases boxes and then the method's
parameter to interfaces. -/
def check : Bool :=
  match load docs with
  | .error _ => false
  | .ok g =>
    g.checkRoots && g.checkHierarchy 8 && circles.all (fun p => g.satisfies circles p.1 p.2) &&
      match WellKnown.resolve g with
      | .error _ => false
      | .ok known =>
        let e := erasure g known
        e.erasesTo [] boxes box && e.erasesTo [.param ofType, .type boxes] (.var ofMethod) shape

theorem check_eq_true : check = true := by decide +kernel

/-- What the check says. -/
theorem exists_of_check (h : check = true) : ∃ g known, Compiled docs g ∧
    WellKnown.resolve g = .ok known ∧ (∀ v a, circles.lookup v = some a →
      g.satisfies circles v a = true) ∧
    ((erasure g known).simplify ((erasure g known).afterAll {} []) boxes).1 = .ok box ∧
    ((erasure g known).simplify ((erasure g known).afterAll {} [.param ofType, .type boxes])
      (.var ofMethod)).1 = .ok shape := by
  rw [check] at h
  split at h
  · cases h
  rename_i g hload
  simp only [Bool.and_eq_true, List.all_eq_true] at h
  obtain ⟨⟨⟨hroots, hhierarchy⟩, hsatisfies⟩, h⟩ := h
  split at h
  · cases h
  rename_i known hknown
  obtain ⟨hboxes, hparam⟩ := Bool.and_eq_true_iff.mp h
  exact ⟨g, known, ⟨hload, .inr (Graph.rooted_of_checkRoots hroots),
    Graph.lawful_of_checkHierarchy hhierarchy (by decide)⟩, hknown,
    fun v a ha => hsatisfies (v, a) (mem_of_lookup ha), Erasure.simplify_of_erasesTo hboxes,
    Erasure.simplify_of_erasesTo hparam⟩

end Rack

/-- Boxes of circles convert to the erasure of boxes, and a circle to the erasure of the method's
parameter, which is found through the parameter of the type. -/
theorem erasure_upper_bound_circles : ∃ g known, Compiled Rack.docs g ∧
    WellKnown.resolve g = .ok known ∧
    (∀ v a, Rack.circles.lookup v = some a → g.satisfies Rack.circles v a = true) ∧
    ((Rack.erasure g known).simplify ((Rack.erasure g known).afterAll {}
      [.param Rack.ofType, .type Rack.boxes]) (.var Rack.ofMethod)).1 = .ok Rack.shape ∧
    g.isAssignable (Rack.boxes.subst Rack.circles) Rack.box = true ∧
    g.isAssignable ((Ty.var Rack.ofMethod).subst Rack.circles) Rack.shape = true := by
  obtain ⟨g, known, hg, hknown, hsatisfies, hboxes, hparam⟩ :=
    Rack.exists_of_check Rack.check_eq_true
  have hdomain : ∀ v, (Rack.circles.lookup v).isSome ↔
      v ∈ [(Rack.ofMethod, (none : Option Ty)), (Rack.ofType, none)].map (·.1) := by
    intro v
    simp [Rack.circles, List.lookup_isSome_iff, or_comm]
  exact ⟨g, known, hg, hknown, hsatisfies, hparam,
    erasure_upper_bound hg hknown (by simp) [] hdomain hsatisfies hboxes,
    erasure_upper_bound hg hknown (by simp) [.param Rack.ofType, .type Rack.boxes] hdomain
      hsatisfies hparam⟩

end LateBridge
