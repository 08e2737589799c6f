import LateBridge.Proofs.Bridge.ErasureBound
import LateBridge.Proofs.Bridge.ErasureRun
import LateBridge.Proofs.Symbols.InterfaceClosure

/-!
# Proofs/Bridge/ErasureInheritance — properties that erasures inherit

Erasing picks types from among base types, interfaces and constraint types.  A property of types
that goes along with these, and gives another one to what needs no erasure, gives that one to every
erasure (`Inherited`): to the answer for a type (`Inherited.settled`), to the answer for a parameter
(`Inherited.verdict`), and so to the answers of a run and to all that is remembered
(`Runs.inherited`).
-/

namespace LateBridge

/-- The well-known types that stand in for others. -/
def WellKnown.standIns (k : WellKnown) : List Ty :=
  [k.object, k.valueType, k.array] ++ k.task?.toList ++ k.valueTask?.toList

namespace Erasure

variable {e : Erasure} {P Q : Ty → Prop}

/-! ## What is inherited -/

/-- **A property that erasures inherit**: `P` holds of what is erased and of what is looked up for it,
and `Q` of whatever may be picked. -/
structure Inherited (e : Erasure) (P Q : Ty → Prop) : Prop where
  base : ∀ {t u}, P t → e.graph.base? t = some u → P u
  interface : ∀ {t u}, P t → e.graph.Extends t u → P u
  usable : ∀ {t}, P t → e.needs t = false → Q t
  standIn : ∀ t ∈ e.known.standIns, Q t
  given : ∀ {v t}, e.given? v = some t → Q t
  constraint : ∀ {v}, e.isMarked v = true → ∀ t ∈ e.graph.constraintTypes v, P t

/-- A property of an answer that is a type. -/
def Answer.Holds (Q : Ty → Prop) (a : Answer) : Prop := ∀ t, a = .ok t → Q t

/-- A property of all that is remembered. -/
def State.Holds (Q : Ty → Prop) (s : State) : Prop :=
  ∀ v a, s.erased.lookup v = some a → Answer.Holds Q a

theorem Answer.holds_ok {t : Ty} (h : Q t) : Answer.Holds Q (.ok t) := by
  rintro u ⟨⟩
  exact h

theorem Answer.holds_error (x : ErasureError) : Answer.Holds Q (.error x) := fun _ h => nomatch h

theorem State.holds_new : State.Holds Q {} := fun _ _ h => nomatch h

/-- A type that needs no erasure, by its constructor. -/
theorem needs_of_atom {t : Ty} (h : t = .void ∨ t = .dynamic ∨ t = .error) : e.needs t = false := by
  obtain rfl | rfl | rfl := h <;> simp [needs, needsAt, maxNesting]

/-- The plain tasks are well known. -/
theorem mem_standIns_of_plainTask? {t task : Ty} (h : e.plainTask? t = some task) :
    task ∈ e.known.standIns := by
  have htasks : task ∈ e.known.task?.toList ++ e.known.valueTask?.toList := by
    unfold Erasure.plainTask? at h
    split at h
    · cases h
    split at h
    · exact List.mem_append_left _ (Option.mem_toList.mpr h)
    split at h
    · exact List.mem_append_right _ (Option.mem_toList.mpr h)
    · cases h
  rw [WellKnown.standIns, List.append_assoc]
  exact List.mem_append_right _ htasks

/-! ## One answer -/

namespace Inherited

variable (he : e.Inherited P Q)

include he

theorem baseChain {t u : Ty} (ht : P t) (hu : u ∈ e.graph.baseChain t) : P u :=
  Graph.forall_mem_baseChain (fun _ _ => he.base) ht u hu

theorem allInterfaces {t u : Ty} (ht : P t) (hu : u ∈ e.graph.allInterfaces t) : P u :=
  Graph.forall_mem_allInterfaces (fun _ _ => he.base) (fun _ _ => he.interface) ht u hu

theorem object : Q e.known.object := he.standIn _ (by simp [WellKnown.standIns])

theorem valueType : Q e.known.valueType := he.standIn _ (by simp [WellKnown.standIns])

theorem array : Q e.known.array := he.standIn _ (by simp [WellKnown.standIns])

theorem toInterface {t : Ty} (ht : P t) : Answer.Holds Q (e.toInterface t) := by
  intro u hu
  obtain ⟨candidates, hcandidates, hmem, hneeds⟩ := pick_eq_ok hu
  refine he.usable ?_ hneeds
  obtain rfl | hcandidates := List.mem_cons.mp hcandidates
  · exact he.interface ht hmem
  · obtain rfl := List.mem_singleton.mp hcandidates
    exact he.allInterfaces ht hmem

theorem toBase {t : Ty} (ht : P t) : Answer.Holds Q (e.toBase t) := by
  rw [Erasure.toBase]
  split
  · rename_i hbase
    obtain ⟨hmem, hneeds⟩ := usableBase?_eq_some hbase
    exact Answer.holds_ok (he.usable (he.baseChain ht hmem) hneeds)
  · split
    · rename_i hi
      exact hi ▸ he.toInterface ht
    · split
      · exact Answer.holds_ok he.valueType
      · exact Answer.holds_error _

/-- The answer for a type that is no parameter. -/
theorem settled {t : Ty} (ht : P t) (hvar : ∀ v, t ≠ .var v) : Answer.Holds Q (e.settled t) := by
  unfold Erasure.settled
  split
  · rename_i hneeds
    exact Answer.holds_ok (he.usable ht (by simpa using hneeds))
  split
  · exact Answer.holds_error _
  cases t with
  | named n args =>
    dsimp only
    rw [ofNamed]
    split
    · exact he.toInterface ht
    · exact he.toBase ht
  | array element rank => exact Answer.holds_ok he.array
  | var v => exact absurd rfl (hvar v)
  | pointer target => exact Answer.holds_error _
  | fnptr params ret => exact Answer.holds_error _
  | void => exact Answer.holds_ok (he.usable ht (needs_of_atom (.inl rfl)))
  | dynamic => exact Answer.holds_ok (he.usable ht (needs_of_atom (.inr (.inl rfl))))
  | error => exact Answer.holds_ok (he.usable ht (needs_of_atom (.inr (.inr rfl))))

end Inherited

/-- A task whose answer has a property, or one for a marked parameter. -/
def Task.Holds (e : Erasure) (Q : Ty → Prop) : Task → Prop
  | .plain a => Answer.Holds Q a
  | .param v => e.isMarked v = true

namespace Inherited

variable (he : e.Inherited P Q)

include he

theorem taskOf {t : Ty} (ht : P t) : (e.taskOf t).Holds e Q := by
  cases t with
  | var v =>
    rw [Erasure.taskOf]
    cases hmarked : e.isMarked v with
    | true => exact hmarked
    | false => exact Answer.holds_ok (he.usable ht ((needs_var e v).trans hmarked))
  | _ => exact he.settled ht fun v h => by cases h

theorem tasks {v : TypeVar} (hv : e.isMarked v = true) : ∀ t ∈ e.tasks v, t.Holds e Q := by
  rw [Erasure.tasks]
  split
  · exact List.forall_mem_nil _
  · exact List.forall_mem_map.mpr fun t ht => he.taskOf (he.constraint hv t ht)

theorem direct? {v : TypeVar} (hv : e.isMarked v = true) {a : Answer} (h : e.direct? v = some a) :
    Answer.Holds Q a := by
  unfold Erasure.direct? at h
  split at h
  · cases h
  · rename_i t hfilter
    cases h
    have hmem : t ∈ (e.graph.constraintTypes v).filter (!e.needs ·) := by simp [hfilter]
    obtain ⟨ht, hneeds⟩ := List.mem_filter.mp hmem
    exact Answer.holds_ok (he.usable (he.constraint hv t ht) (by simpa using hneeds))
  · cases h
    exact Answer.holds_error _

theorem rootOf (kinds : Constraints) (types : List Ty) : Answer.Holds Q (e.rootOf kinds types) := by
  rw [Erasure.rootOf]
  split
  · exact Answer.holds_ok he.valueType
  split
  · exact Answer.holds_ok he.object
  · exact Answer.holds_error _

end Inherited

theorem mem_typesOf {found : List Ty} {answers : List Answer} {t : Ty}
    (h : t ∈ typesOf found answers) : t ∈ found ∨ .ok t ∈ answers := by
  induction answers generalizing found with
  | nil => exact .inl h
  | cons a answers ih =>
    cases a with
    | ok u =>
      obtain hfound | hanswers := ih h
      · obtain hfound | rfl := mem_addNew.mp hfound
        · exact .inl hfound
        · exact .inr List.mem_cons_self
      · exact .inr (List.mem_cons_of_mem _ hanswers)
    | error x => exact (ih h).imp_right (List.mem_cons_of_mem _)

/-- **What a parameter's constraints decide.** -/
theorem Inherited.verdict (he : e.Inherited P Q) {v : TypeVar} (hv : e.isMarked v = true)
    {answers : List Answer} (h : ∀ a ∈ answers, Answer.Holds Q a) :
    Answer.Holds Q (e.verdict v answers) := by
  rw [Erasure.verdict]
  split
  · rename_i hdirect
    exact he.direct? hv hdirect
  split
  · rename_i t htypes
    have hmem : t ∈ typesOf [] answers := by simp [htypes]
    exact h _ ((mem_typesOf hmem).resolve_left List.not_mem_nil)
  · exact he.rootOf _ _
  · exact Answer.holds_error _

/-! ## Runs -/

/-- The property is an invariant of answers. -/
theorem Inherited.invariant (he : e.Inherited P Q) :
    e.Invariant (Task.Holds e Q) fun _ => Answer.Holds Q where
  tasks hmarked := he.tasks hmarked
  given hgiven := Answer.holds_ok (he.given hgiven)
  underWay _ := Answer.holds_error _
  verdict hmarked h :=
    he.verdict hmarked (forall_mem_of_answeredBy h fun _ ha => he.tasks hmarked _ ha)

/-- **The answers of a run inherit the property**, and so does all that is remembered. -/
theorem Runs.inherited (he : e.Inherited P Q) {s s' : State} {ts : List Task} {as : List Answer}
    (h : e.Runs s ts as s') (hs : s.Holds Q) (hts : ∀ t ∈ ts, t.Holds e Q) :
    (∀ a ∈ as, Answer.Holds Q a) ∧ s'.Holds Q :=
  (h.invariant he.invariant hts hs).imp_left fun has =>
    forall_mem_of_answeredBy has fun _ ha => hts _ ha

namespace Inherited

variable (he : e.Inherited P Q) {s : State} (hs : s.Holds Q)

include he hs

theorem eraseParam {v : TypeVar} (hv : e.isMarked v = true) :
    Answer.Holds Q (e.eraseParam s v).1 ∧ (e.eraseParam s v).2.Holds Q := by
  have htask : (Task.param v).Holds e Q := hv
  exact ((runs_eraseParam s v).inherited he hs (List.forall_mem_singleton.mpr htask)).imp_left
    List.forall_mem_singleton.mp

/-- **The erasure of a type inherits the property.** -/
theorem simplify {t : Ty} (ht : P t) :
    Answer.Holds Q (e.simplify s t).1 ∧ (e.simplify s t).2.Holds Q :=
  ((runs_simplify s t).inherited he hs (List.forall_mem_singleton.mpr (he.taskOf ht))).imp_left
    List.forall_mem_singleton.mp

omit hs in
theorem plainTask? {t task : Ty} (h : e.plainTask? t = some task) : Q task :=
  he.standIn _ (mem_standIns_of_plainTask? h)

theorem simplifyReturn {t : Ty} (ht : P t) (isAsync : Bool) :
    Answer.Holds Q (e.simplifyReturn s t isAsync).1 ∧ (e.simplifyReturn s t isAsync).2.Holds Q := by
  rw [Erasure.simplifyReturn]
  split
  · split
    · rename_i htask
      exact ⟨Answer.holds_ok (he.plainTask? htask), hs⟩
    · exact he.simplify hs ht
  · exact he.simplify hs ht

end Inherited

end Erasure

end LateBridge
