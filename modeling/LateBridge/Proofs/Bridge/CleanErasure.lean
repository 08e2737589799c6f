import LateBridge.Proofs.Bridge.ErasureScope
import LateBridge.Proofs.Bridge.Remembering

/-!
# Proofs/Bridge/CleanErasure — erasures need no erasure

Every type that an answer names is a well-known type, a type given for a parameter, or one that was
picked because it needs no erasure.  So if no given type needs one, no named type does
(`Answer.Clean`): neither the type of a success nor a candidate of an ambiguity.  What is remembered
is clean as well, and a run keeps it so (`Runs.clean`).  Erasing is then idempotent, whatever was
asked before (`erasure_idempotent`).
-/

namespace LateBridge

namespace Erasure

variable {e : Erasure}

/-! ## Clean answers -/

/-- The types that an answer names: the erased type, or the candidates that would do equally well. -/
def Answer.types : Answer → List Ty
  | .ok t => [t]
  | .error (.ambiguous candidates) => candidates
  | .error .unresolvable | .error (.pointer _) => []

/-- **A clean answer** names only types that need no erasure. -/
def Answer.Clean (e : Erasure) (a : Answer) : Prop := ∀ t ∈ a.types, e.needs t = false

/-- All that is remembered is clean. -/
def State.Clean (e : Erasure) (s : State) : Prop := s.Remembers fun _ => Answer.Clean e

/-- A task whose answer is clean if it needs no state. -/
def Task.Clean (e : Erasure) (t : Task) : Prop := ∀ a, t = .plain a → a.Clean e

/-- **Types to fall back on that need no erasure**: the well-known ones and those given for
parameters. -/
structure CleanRoots (e : Erasure) : Prop where
  standIn : ∀ t ∈ e.known.standIns, e.needs t = false
  given : ∀ v t, e.given? v = some t → e.needs t = false

theorem Answer.clean_ok {t : Ty} (h : e.needs t = false) : Answer.Clean e (.ok t) :=
  List.forall_mem_singleton.mpr h

theorem Answer.clean_unresolvable : Answer.Clean e (.error .unresolvable) := List.forall_mem_nil _

theorem Answer.clean_pointer (t : Ty) : Answer.Clean e (.error (.pointer t)) := List.forall_mem_nil _

/-- Several usable types are an ambiguity that is clean. -/
theorem Answer.clean_ambiguous (ts : List Ty) :
    Answer.Clean e (.error (.ambiguous (ts.filter (!e.needs ·)))) := by
  intro t ht
  obtain ⟨-, hneeds⟩ := List.mem_filter.mp ht
  simpa using hneeds

/-- A declaration without arguments needs no erasure. -/
theorem needs_plain (e : Erasure) (n : DeclName) : e.needs (.plain n) = false := by
  simp [needs, needsAt, needsAtList, maxNesting, Ty.plain]

/-! ## One answer -/

theorem clean_pick (lists : List (List Ty)) : (e.pick lists).Clean e := by
  induction lists with
  | nil => exact Answer.clean_unresolvable
  | cons candidates rest ih =>
    have hclean := Answer.clean_ambiguous (e := e) candidates
    rw [pick]
    split
    · rename_i t hfilter
      rw [hfilter] at hclean
      exact Answer.clean_ok (hclean t (List.mem_singleton_self t))
    · exact ih
    · exact hclean

theorem clean_direct? {v : TypeVar} {a : Answer} (h : e.direct? v = some a) : a.Clean e := by
  have hclean := Answer.clean_ambiguous (e := e) (e.graph.constraintTypes v)
  rw [direct?] at h
  split at h
  · cases h
  · rename_i t hfilter
    cases h
    rw [hfilter] at hclean
    exact Answer.clean_ok (hclean t (List.mem_singleton_self t))
  · cases h
    exact hclean

namespace CleanRoots

variable (he : e.CleanRoots)

include he

theorem clean_standIn {t : Ty} (h : t ∈ e.known.standIns) : Answer.Clean e (.ok t) :=
  Answer.clean_ok (he.standIn t h)

theorem clean_valueType : Answer.Clean e (.ok e.known.valueType) :=
  he.clean_standIn (by simp [WellKnown.standIns])

theorem clean_toBase (t : Ty) : (e.toBase t).Clean e := by
  rw [toBase]
  split
  · rename_i hbase
    exact Answer.clean_ok (usableBase?_eq_some hbase).2
  split
  · rename_i hi
    rw [← hi]
    exact clean_pick _
  split
  · exact he.clean_valueType
  · exact Answer.clean_unresolvable

/-- The answer for a type that is no marked parameter. -/
theorem clean_settled {t : Ty} (ht : ∀ v, t = .var v → e.isMarked v = false) :
    (e.settled t).Clean e := by
  unfold settled
  split
  · rename_i hneeds
    exact Answer.clean_ok (by simpa using hneeds)
  split
  · exact Answer.clean_unresolvable
  cases t with
  | named n args =>
    dsimp only
    rw [ofNamed]
    split
    · exact clean_pick _
    · exact he.clean_toBase _
  | array element rank => exact he.clean_standIn (by simp [WellKnown.standIns])
  | var v => exact Answer.clean_ok ((needs_var e v).trans (ht v rfl))
  | pointer target => exact Answer.clean_pointer _
  | fnptr params ret => exact Answer.clean_pointer _
  | void => exact Answer.clean_ok (needs_of_atom (.inl rfl))
  | dynamic => exact Answer.clean_ok (needs_of_atom (.inr (.inl rfl)))
  | error => exact Answer.clean_ok (needs_of_atom (.inr (.inr rfl)))

theorem clean_taskOf (t : Ty) : (e.taskOf t).Clean e := by
  intro a ha
  cases t with
  | var v =>
    rw [taskOf] at ha
    split at ha
    · cases ha
    · rename_i hmarked
      cases ha
      exact Answer.clean_ok ((needs_var e v).trans (by simpa using hmarked))
  | _ =>
    cases ha
    exact he.clean_settled fun v hv => by cases hv

theorem clean_tasks (v : TypeVar) : ∀ t ∈ e.tasks v, t.Clean e := by
  rw [tasks]
  split
  · exact List.forall_mem_nil _
  · exact List.forall_mem_map.mpr fun t _ => he.clean_taskOf t

theorem clean_rootOf (kinds : Constraints) (types : List Ty) : (e.rootOf kinds types).Clean e := by
  rw [rootOf]
  split
  · exact he.clean_valueType
  split
  · exact he.clean_standIn (by simp [WellKnown.standIns])
  · exact Answer.clean_unresolvable

/-- **The verdict on a parameter is clean**, if the answers for its tasks are: an ambiguity lists
types of these. -/
theorem clean_verdict (v : TypeVar) {answers : List Answer} (h : ∀ a ∈ answers, a.Clean e) :
    (e.verdict v answers).Clean e := by
  have htypes : ∀ t ∈ typesOf [] answers, e.needs t = false := by
    intro t ht
    have hmem : .ok t ∈ answers := (mem_typesOf ht).resolve_left List.not_mem_nil
    exact h _ hmem t (List.mem_singleton_self t)
  rw [verdict]
  split
  · rename_i hdirect
    exact clean_direct? hdirect
  split
  · rename_i t hfound
    rw [hfound] at htypes
    exact htypes
  · exact he.clean_rootOf _ _
  · exact htypes

end CleanRoots

/-! ## Runs -/

/-- Being clean is an invariant of answers. -/
theorem CleanRoots.invariant (he : e.CleanRoots) :
    e.Invariant (Task.Clean e) fun _ => Answer.Clean e where
  tasks _ := he.clean_tasks _
  given hgiven := Answer.clean_ok (he.given _ _ hgiven)
  underWay _ := Answer.clean_unresolvable
  verdict _ h :=
    he.clean_verdict _ (forall_mem_of_answeredBy h fun a ha => he.clean_tasks _ _ ha a rfl)

/-- **A run gives clean answers and remembers only such.** -/
theorem Runs.clean (he : e.CleanRoots) {s s' : State} {ts : List Task} {as : List Answer}
    (h : e.Runs s ts as s') (hs : s.Clean e) (hts : ∀ t ∈ ts, t.Clean e) :
    (∀ a ∈ as, a.Clean e) ∧ s'.Clean e :=
  (h.invariant he.invariant hts hs).imp_left fun has =>
    forall_mem_of_answeredBy has fun a ha => hts _ ha a rfl

namespace CleanRoots

variable (he : e.CleanRoots)

include he

theorem clean_taskOfQuery (q : Query) : (e.taskOfQuery q).Clean e := by
  cases q with
  | param v => exact fun a ha => nomatch ha
  | type t => exact he.clean_taskOf t
  | returnType t isAsync =>
    rw [taskOfQuery]
    split
    · rename_i task htask
      rintro a ⟨⟩
      split at htask
      · exact he.clean_standIn (mem_standIns_of_plainTask? htask)
      · cases htask
    · exact he.clean_taskOf t

/-- **Every query is answered cleanly** on a clean state. -/
theorem clean_ask {s : State} (hs : s.Clean e) (q : Query) :
    (e.ask s q).1.Clean e ∧ (e.ask s q).2.Clean e :=
  ((runs_ask s q).clean he hs (List.forall_mem_singleton.mpr (he.clean_taskOfQuery q))).imp_left
    List.forall_mem_singleton.mp

/-- The state after any queries is clean. -/
theorem clean_afterAll (qs : List Query) {s : State} (hs : s.Clean e) :
    (e.afterAll s qs).Clean e := by
  induction qs generalizing s with
  | nil => exact hs
  | cons q qs ih => exact ih (he.clean_ask hs q).2

end CleanRoots

/-! ## Types that need no erasure -/

theorem simplifyReturn_of_needs {t : Ty} (h : e.needs t = false) (s : State) (isAsync : Bool) :
    e.simplifyReturn s t isAsync = (.ok t, s) := by
  simp [simplifyReturn, simplify_of_needs, h]

/-- The well-known types need no erasure. -/
theorem cleanRoots_of_resolve (hknown : WellKnown.resolve e.graph = .ok e.known)
    (hgiven : ∀ v t, e.given? v = some t → e.needs t = false) : e.CleanRoots where
  standIn t ht := by
    obtain ⟨n, rfl⟩ := WellKnown.exists_plain_of_resolve hknown t ht
    exact needs_plain e n
  given := hgiven

end Erasure

/-! ## Erasing twice -/

/-- **Erasing is clean and idempotent**, whatever was asked before, if the types given for parameters
need no erasure.  What a query is answered by needs no erasure and is its own one, from any state; a
type that needs none is left as it is; and the candidates of an ambiguity need none. -/
theorem erasure_idempotent (e : Erasure) (hknown : WellKnown.resolve e.graph = .ok e.known)
    (hgiven : ∀ v t, e.given? v = some t → e.needs t = false) (qs : List Erasure.Query) :
    (∀ q r, (e.ask (e.afterAll {} qs) q).1 = .ok r →
      e.needs r = false ∧ ∀ s, e.simplify s r = (.ok r, s)) ∧
    (∀ t, e.needs t = false → e.simplify (e.afterAll {} qs) t = (.ok t, e.afterAll {} qs) ∧
      ∀ isAsync, e.simplifyReturn (e.afterAll {} qs) t isAsync = (.ok t, e.afterAll {} qs)) ∧
    ∀ q candidates, (e.ask (e.afterAll {} qs) q).1 = .error (.ambiguous candidates) →
      ∀ t ∈ candidates, e.needs t = false := by
  have he : e.CleanRoots := Erasure.cleanRoots_of_resolve hknown hgiven
  have hclean : ∀ q, (e.ask (e.afterAll {} qs) q).1.Clean e := fun q =>
    (he.clean_ask (he.clean_afterAll qs Erasure.State.remembers_new) q).1
  refine ⟨fun q r hr => ?_, fun t ht => ?_, fun q candidates hq => ?_⟩
  · have hneeds : e.needs r = false := hclean q r (hr ▸ List.mem_singleton_self r)
    exact ⟨hneeds, Erasure.simplify_of_needs hneeds⟩
  · exact ⟨Erasure.simplify_of_needs ht _, Erasure.simplifyReturn_of_needs ht _⟩
  · intro t ht
    exact hclean q t (hq ▸ ht)

/-! A method of a pair whose parameter is constrained by both parameters of the type.  These have
types given for them. -/

namespace Pair

/-- The program. -/
def docs : List GraphDocument :=
  [{ coreLibrary := false, usings := []
     types := CoreLibrary.bareTypes ++ [
      CoreLibrary.interfaceType "Shop" "IFirst",
      CoreLibrary.interfaceType "Shop" "ISecond",
      { CoreLibrary.classType "Shop" "Pair" with
        typeParams := [CoreLibrary.param "U", CoreLibrary.param "V"]
        methods := [
          { name := "Put", accessibility := "public", flags := {}
            typeParams := [{ CoreLibrary.param "T" with constraints := ["U", "V"] }]
            params := [⟨"both", "T", .none, none, false, none⟩]
            returns := "void", attributes := [], location := none }] }] }]

/-- The type of the pair. -/
def name : DeclName := .top (some "Shop") "Pair" ["U", "V"]

/-- The parameter of the method. -/
def both : TypeVar := ⟨.method ⟨name, 0⟩, 0, "T"⟩

/-- The second parameter of the type. -/
def second : TypeVar := ⟨.type name, 1, "V"⟩

/-- What is given for the first parameter of the type. -/
def givenFirst : Ty := .plain (.top (some "Shop") "IFirst" [])

/-- What is given for the second one. -/
def givenSecond : Ty := .plain (.top (some "Shop") "ISecond" [])

/-- Erasing all three. -/
def erasure (g : Graph) (known : WellKnown) : Erasure :=
  ⟨g, known, [(both, none), (⟨.type name, 0, "U"⟩, some givenFirst), (second, some givenSecond)]⟩

/-- What was asked before: arrays of the method's parameter, and that parameter. -/
def before : List Erasure.Query := [.type (.array (.var both) 1), .param both]

/-- The program loads, and then the second parameter of the type erases to what is given for it, while
that of the method is ambiguous. -/
theorem exists_answers : ∃ g known, load docs = .ok g ∧ WellKnown.resolve g = .ok known ∧
    ((erasure g known).ask ((erasure g known).afterAll {} before)
      (.returnType (.var second) true)).1 = .ok givenSecond ∧
    ((erasure g known).ask ((erasure g known).afterAll {} before) (.type (.var both))).1 =
      .error (.ambiguous [givenFirst, givenSecond]) := by
  have hcheck : loadsWith docs (fun g known =>
      let e := erasure g known
      (e.ask (e.afterAll {} before) (.returnType (.var second) true)).1 == .ok givenSecond &&
        (e.ask (e.afterAll {} before) (.type (.var both))).1 ==
          .error (.ambiguous [givenFirst, givenSecond])) = true := by decide +kernel
  obtain ⟨g, known, hload, hknown, h⟩ := exists_of_loadsWith hcheck
  obtain ⟨hsecond, hboth⟩ := Bool.and_eq_true_iff.mp h
  exact ⟨g, known, hload, hknown, eq_of_beq hsecond, eq_of_beq hboth⟩

/-- The given types need no erasure. -/
theorem needs_of_given (g : Graph) (known : WellKnown) {v : TypeVar} {t : Ty}
    (h : (erasure g known).given? v = some t) : (erasure g known).needs t = false := by
  have hmem : (v, some t) ∈ (erasure g known).marked :=
    mem_of_lookup (Option.join_eq_some_iff.mp h)
  simp only [erasure, List.mem_cons, Prod.mk.injEq, Option.some.injEq, reduceCtorEq, and_false,
    List.not_mem_nil, or_false, false_or] at hmem
  obtain ⟨-, rfl⟩ | ⟨-, rfl⟩ := hmem
  · exact Erasure.needs_plain _ _
  · exact Erasure.needs_plain _ _

end Pair

/-- What is given for the second parameter is its own erasure, and both given types, between which
that of the method is ambiguous, need none. -/
theorem erasure_idempotent_pair : ∃ g known, load Pair.docs = .ok g ∧
    WellKnown.resolve g = .ok known ∧
    (∀ s, (Pair.erasure g known).simplify s Pair.givenSecond = (.ok Pair.givenSecond, s)) ∧
    ∀ t ∈ [Pair.givenFirst, Pair.givenSecond], (Pair.erasure g known).needs t = false := by
  obtain ⟨g, known, hload, hknown, hsecond, hboth⟩ := Pair.exists_answers
  obtain ⟨hsuccess, -, hambiguous⟩ := erasure_idempotent (Pair.erasure g known) hknown
    (fun _ _ => Pair.needs_of_given g known) Pair.before
  exact ⟨g, known, hload, hknown, (hsuccess _ _ hsecond).2, hambiguous _ _ hboth⟩

end LateBridge
