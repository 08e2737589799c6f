import LateBridge.Proofs.Numbering.Hierarchy

/-!
# Proofs/Numbering/Erasure — erasing a number

    number ──mentions a marked parameter?──▸ base types, interfaces, constraint types
                                             ▾ the first usable one
                                    number of the erasure

Erasure asks what stands behind a number, compares numbers with those of the roots, and keeps what
it found out about parameters as numbers.  It numbers types only where base types and interfaces
are looked up.  Every step gives the number of what the step on types gives, so the erasure of a
number is the number of the erasure (`gives_simplify`, `gives_simplifyReturn`).
-/

namespace LateBridge

namespace Numbered

open Interning

/-! ## Answers -/

/-- **Why a number has no erasure.** -/
inductive Failure where
  | ambiguous (candidates : List Nat)
  | unresolvable
  | pointer (type : Nat)

/-- The number of an erased type, or why there is none. -/
abbrev Answer := Except Failure Nat

/-- **The state of erasing.** -/
structure State where
  erased : List (TypeVar × Answer) := []
  visiting : List TypeVar := []

/-- A step that erases a parameter; none when it is out of fuel. -/
abbrev VarStep := State → TypeVar → Interning (Option (Answer × State))

section Erasure

variable (e : Erasure) (label : Ty → Nat)

/-! ## Named types -/

/-- The single usable number of the first list with usable ones. -/
def pick : List (List Nat) → Interning Answer
  | [] => return .error .unresolvable
  | candidates :: rest => do
    match ← keep (!e.needs ·) candidates with
    | [id] => return .ok id
    | [] => pick rest
    | usable => return .error (.ambiguous usable)

/-- The single usable interface; the closure is walked in any case. -/
def toInterface (id : Nat) : Interning Answer := do
  let direct ← interfaces e.graph label id
  let all ← allInterfaces e.graph label id
  pick e [direct, all]

/-- The first usable number of a chain, before the numbers of the roots. -/
def firstUsable : List Nat → Interning (Option Nat)
  | [] => return none
  | id :: ids =>
    if id = label e.known.object ∨ id = label e.known.valueType then return none
    else do
      let needs ← ask e.needs id
      if needs then firstUsable ids else return some id

/-- The nearest usable base type below the roots. -/
def usableBase? (id : Nat) : Interning (Option Nat) := do
  let chain ← baseChain e.graph label id
  firstUsable e label chain

/-- A class or structure. -/
def toBase (id : Nat) : Interning Answer := do
  match ← usableBase? e label id with
  | some base => return .ok base
  | none =>
    match ← toInterface e label id with
    | .ok found => return .ok found
    | .error _ => do
      let isValue ← ask e.graph.isValueType id
      return if isValue then .ok (label e.known.valueType) else .error .unresolvable

/-- A declared type. -/
def ofNamed (id : Nat) : Interning Answer := do
  let isInterface ← ask e.graph.isInterface id
  if isInterface then toInterface e label id else toBase e label id

/-! ## All types -/

/-- **The erasure of a number**, given how to erase a parameter. -/
def simplifyBy (eraseVar : VarStep) (s : State) (id : Nat) : Interning (Option (Answer × State)) := do
  let needs ← ask e.needs id
  if !needs then return some (.ok id, s)
  else do
    let tooDeep ← ask Erasure.tooDeep id
    if tooDeep then return some (.error .unresolvable, s)
    else do
      match ← shapeOf id with
      | .array _ _ => return some (.ok (label e.known.array), s)
      | .param v => eraseVar s v
      | .pointer _ | .fnptr _ _ => return some (.error (.pointer id), s)
      | .named _ _ => do
        let answer ← ofNamed e label id
        return some (answer, s)
      | .void | .dynamic | .error => return some (.ok id, s)

/-- The erasures of several numbers that have one, after those already found, each once. -/
def eraseEach (eraseVar : VarStep) (s : State) (found : List Nat) :
    List Nat → Interning (Option (List Nat × State))
  | [] => return some (found, s)
  | id :: ids => do
    match ← simplifyBy e label eraseVar s id with
    | none => return none
    | some (.ok r, s) => eraseEach eraseVar s (Erasure.addNew found r) ids
    | some (.error _, s) => eraseEach eraseVar s found ids

/-- The root that the constraints of a parameter leave. -/
def rootOf (kinds : Constraints) (ids : List Nat) : Answer :=
  if kinds.wantsValue then .ok (label e.known.valueType)
  else if ids.isEmpty then .ok (label e.known.object)
  else .error .unresolvable

/-- A parameter erased through its constraint types. -/
def ofConstraints (eraseVar : VarStep) (s : State) (v : TypeVar) :
    Interning (Option (Answer × State)) := do
  let ids := (e.graph.constraintTypes v).map label
  match ← keep (!e.needs ·) ids with
  | [id] => return some (.ok id, s)
  | id :: id' :: rest => return some (.error (.ambiguous (id :: id' :: rest)), s)
  | [] => do
    match ← eraseEach e label eraseVar s [] ids with
    | none => return none
    | some ([id], s) => return some (.ok id, s)
    | some ([], s) => return some (rootOf e label (e.graph.constraints v) ids, s)
    | some (found, s) => return some (.error (.ambiguous found), s)

/-- **The erasure of a parameter** with some fuel. -/
def eraseVarWithin : Nat → VarStep
  | 0, _, _ => return none
  | fuel + 1, s, v =>
    match e.marked.lookup v with
    | some (some given) => return some (.ok (label given), s)
    | _ =>
      match s.erased.lookup v with
      | some answer => return some (answer, s)
      | none =>
        if v ∈ s.visiting then return some (.error .unresolvable, s)
        else do
          match ← ofConstraints e label (eraseVarWithin fuel)
            { s with visiting := v :: s.visiting } v with
          | none => return none
          | some (answer, s) =>
            return some (answer,
              { erased := (v, answer) :: s.erased, visiting := s.visiting.erase v })

/-- **Erasing a parameter.** -/
def eraseParam (s : State) (v : TypeVar) : Interning (Answer × State) := do
  let result ← eraseVarWithin e label e.fuel s v
  return result.getD (.error .unresolvable, s)

/-- **Erasing a number.** -/
def simplify (s : State) (id : Nat) : Interning (Answer × State) := do
  let result ← simplifyBy e label (eraseVarWithin e label e.fuel) s id
  return result.getD (.error .unresolvable, s)

/-- **Erasing the number of a return type.** -/
def simplifyReturn (s : State) (id : Nat) (isAsync : Bool) : Interning (Answer × State) := do
  let needs ← ask e.needs id
  if isAsync && needs then do
    match ← ask e.plainTask? id with
    | some task => return (.ok (label task), s)
    | none => simplify e label s id
  else simplify e label s id

end Erasure

/-! ## What answers mean -/

/-- A failure over types and the same one over their numbers. -/
inductive FailureDenotes (i : Numbers) : ErasureError → Failure → Prop
  | ambiguous {ts : List Ty} {ids : List Nat} (h : Meaning.type.list.Holds i ts ids) :
      FailureDenotes i (.ambiguous ts) (.ambiguous ids)
  | unresolvable : FailureDenotes i .unresolvable .unresolvable
  | pointer {t : Ty} {id : Nat} (h : i.Denotes t id) : FailureDenotes i (.pointer t) (.pointer id)

/-- An answer and the same one over numbers. -/
inductive AnswerDenotes (i : Numbers) : Erasure.Answer → Answer → Prop
  | ok {t : Ty} {id : Nat} (h : i.Denotes t id) : AnswerDenotes i (.ok t) (.ok id)
  | error {x : ErasureError} {x' : Failure} (h : FailureDenotes i x x') :
      AnswerDenotes i (.error x) (.error x')

/-- What answers mean. -/
def answer : Meaning Erasure.Answer Answer where
  Holds := AnswerDenotes
  mono h hij := by
    cases h with
    | ok h => exact .ok (h.mono hij)
    | error h =>
      cases h with
      | ambiguous h => exact .error (.ambiguous (Meaning.type.list.mono h hij))
      | unresolvable => exact .error .unresolvable
      | pointer h => exact .error (.pointer (h.mono hij))

/-- What states mean: the answers remembered, under the same parameters. -/
def state : Meaning Erasure.State State where
  Holds i s s' :=
    (Meaning.same.pair answer).list.Holds i s.erased s'.erased ∧ s'.visiting = s.visiting
  mono h hij := ⟨Meaning.mono _ h.1 hij, h.2⟩

theorem denotes_new (i : Numbers) : state.Holds i {} {} := ⟨.nil, rfl⟩

/-- What the result of a step means. -/
abbrev stepped : Meaning (Option (Erasure.Answer × Erasure.State)) (Option (Answer × State)) :=
  (answer.pair state).option

/-- **Loading has numbered what erasing a type looks up**: what the graph stores, the well-known
types, and the types given for marked parameters. -/
structure Prepared (e : Erasure) (label : Ty → Nat) (i : Numbers) : Prop where
  labels : Labels e.graph e.known label i
  given : ∀ {v t}, e.marked.lookup v = some (some t) → i.Denotes t (label t)

section Prepared

variable {e : Erasure} {label : Ty → Nat} {i j : Numbers} {t : Ty} {id : Nat}

theorem Prepared.mono (h : Prepared e label i) (hij : i.Extends j) : Prepared e label j :=
  ⟨h.labels.mono hij, fun ht => (h.given ht).mono hij⟩

variable (he : Prepared e label i)

include he

theorem Prepared.grounded : i.Grounded := he.labels.grounded

theorem Prepared.object : i.Denotes e.known.object (label e.known.object) :=
  he.labels.standIns _ (by simp [WellKnown.standIns])

theorem Prepared.valueType : i.Denotes e.known.valueType (label e.known.valueType) :=
  he.labels.standIns _ (by simp [WellKnown.standIns])

theorem Prepared.array : i.Denotes e.known.array (label e.known.array) :=
  he.labels.standIns _ (by simp [WellKnown.standIns])

/-! ## Named types -/

omit he in
theorem gives_pick {candidates : List (List Ty)} {candidates' : List (List Nat)} (hi : i.Grounded)
    (h : Meaning.type.list.list.Holds i candidates candidates') :
    (pick e candidates').Gives answer (e.pick candidates) i := by
  induction candidates generalizing i candidates' with
  | nil =>
    cases h
    exact gives_pure (.error .unresolvable)
  | cons first rest ih =>
    obtain ⟨first', rest', hfirst, hrest, rfl⟩ := List.forall₂_cons_left_iff.mp h
    rw [pick, Erasure.pick]
    refine Gives.bind hi (gives_keep _ hi hfirst) fun j usable hij husable => ?_
    generalize first.filter (!e.needs ·) = usable' at husable
    cases husable with
    | nil => exact ih hij.grounded (Meaning.mono _ hrest hij)
    | cons hid hmore =>
      cases hmore with
      | nil => exact gives_pure (.ok hid)
      | cons hid' hmore => exact gives_pure (.error (.ambiguous (.cons hid (.cons hid' hmore))))

theorem gives_toInterface (h : i.Denotes t id) :
    (toInterface e label id).Gives answer (e.toInterface t) i := by
  refine Gives.bind he.grounded (gives_interfaces he.labels h) fun j direct hij hdirect => ?_
  refine Gives.bind hij.grounded (gives_allInterfaces (he.labels.mono hij) (h.mono hij))
    fun k all hjk hall => ?_
  exact gives_pick hjk.grounded (.cons (Meaning.mono _ hdirect hjk) (.cons hall .nil))

theorem gives_firstUsable {ts : List Ty} {ids : List Nat} (h : Meaning.type.list.Holds i ts ids) :
    (firstUsable e label ids).Gives Meaning.type.option
      ((ts.takeWhile fun b => b != e.known.object && b != e.known.valueType).find?
        (!e.needs ·)) i := by
  induction ts generalizing i ids with
  | nil =>
    cases h
    exact gives_pure .none
  | cons t ts ih =>
    obtain ⟨id, ids, hid, hids, rfl⟩ := List.forall₂_cons_left_iff.mp h
    rw [firstUsable, List.takeWhile_cons]
    simp only [eq_iff hid he.object, eq_iff hid he.valueType]
    by_cases hroot : t = e.known.object ∨ t = e.known.valueType
    · rw [if_pos hroot, if_neg (by simpa [Classical.or_iff_not_imp_left] using hroot)]
      exact gives_pure .none
    · rw [if_neg hroot, if_pos (by simpa [not_or] using hroot), List.find?_cons]
      refine Gives.bind he.grounded (gives_ask _ he.grounded hid) fun j needs hij hneeds => ?_
      obtain rfl : needs = e.needs t := hneeds
      cases e.needs t with
      | true => exact ih (he.mono hij) (Meaning.type.list.mono hids hij)
      | false => exact gives_pure (.some (hid.mono hij))

theorem gives_toBase (h : i.Denotes t id) : (toBase e label id).Gives answer (e.toBase t) i := by
  have hbase : (usableBase? e label id).Gives Meaning.type.option (e.usableBase? t) i :=
    Gives.bind he.grounded (gives_baseChain he.labels h) fun j chain hij hchain =>
      gives_firstUsable (he.mono hij) hchain
  rw [toBase, Erasure.toBase]
  refine Gives.bind he.grounded hbase fun j base hij hbase => ?_
  generalize e.usableBase? t = base' at hbase
  cases hbase with
  | some hbase => exact gives_pure (.ok hbase)
  | none =>
    have hej := he.mono hij
    refine Gives.bind hij.grounded (gives_toInterface hej (h.mono hij)) fun k found hjk hfound => ?_
    generalize e.toInterface t = found' at hfound
    cases hfound with
    | ok hfound => exact gives_pure (.ok hfound)
    | error hfound =>
      have hek := hej.mono hjk
      refine Gives.bind hek.grounded (gives_ask _ hek.grounded (h.mono (hij.trans hjk)))
        fun l isValue hkl hvalue => ?_
      obtain rfl : isValue = e.graph.isValueType t := hvalue
      dsimp only
      split
      · exact gives_pure (.ok (hek.valueType.mono hkl))
      · exact gives_pure (.error .unresolvable)

theorem gives_ofNamed (h : i.Denotes t id) :
    (ofNamed e label id).Gives answer (e.ofNamed t) i := by
  rw [ofNamed, Erasure.ofNamed]
  refine Gives.bind he.grounded (gives_ask _ he.grounded h) fun j isInterface hij hinterface => ?_
  obtain rfl : isInterface = e.graph.isInterface t := hinterface
  split
  · exact gives_toInterface (he.mono hij) (h.mono hij)
  · exact gives_toBase (he.mono hij) (h.mono hij)

/-! ## All types -/

omit he in
/-- **A step on numbers that goes along with a step on types.** -/
def Follows (label : Ty → Nat) (f : Erasure.VarStep) (f' : VarStep) (e : Erasure) : Prop :=
  ∀ {i : Numbers} {s : Erasure.State} {s' : State} (v : TypeVar), Prepared e label i →
    state.Holds i s s' → (f' s' v).Gives stepped (f s v) i

variable {f : Erasure.VarStep} {f' : VarStep} (hf : Follows label f f' e)
  {s : Erasure.State} {s' : State}

include hf

theorem gives_simplifyBy (hs : state.Holds i s s') (h : i.Denotes t id) :
    (simplifyBy e label f' s' id).Gives stepped (e.simplifyBy f s t) i := by
  unfold simplifyBy Erasure.simplifyBy
  refine Gives.bind he.grounded (gives_ask _ he.grounded h) fun j needs hij hneeds => ?_
  obtain rfl : needs = e.needs t := hneeds
  have hs := state.mono hs hij
  have h := h.mono hij
  have he := he.mono hij
  cases e.needs t with
  | false => exact gives_pure (.some ⟨.ok h, hs⟩)
  | true =>
    refine Gives.bind he.grounded (gives_ask _ he.grounded h) fun k tooDeep hjk hdeep => ?_
    obtain rfl : tooDeep = Erasure.tooDeep t := hdeep
    have hs := state.mono hs hjk
    have h := h.mono hjk
    have he := he.mono hjk
    cases Erasure.tooDeep t with
    | true => exact gives_pure (.some ⟨.error .unresolvable, hs⟩)
    | false =>
      refine Gives.shapeOf_bind he.grounded h fun l shape hkl hspells _ => ?_
      have hs := state.mono hs hkl
      have h := h.mono hkl
      have he := he.mono hkl
      cases hspells with
      | named =>
        exact Gives.bind he.grounded (gives_ofNamed he h) fun m found hlm hfound =>
          gives_pure (.some ⟨hfound, state.mono hs hlm⟩)
      | array => exact gives_pure (.some ⟨.ok he.array, hs⟩)
      | @var v => exact hf v he hs
      | pointer | fnptr => exact gives_pure (.some ⟨.error (.pointer h), hs⟩)
      | void | dynamic | error => exact gives_pure (.some ⟨.ok h, hs⟩)

omit he hf in
/-- The same number is added, or left out, as the type. -/
theorem list_addNew {found : List Ty} {found' : List Nat}
    (hfound : Meaning.type.list.Holds i found found') (h : i.Denotes t id) :
    Meaning.type.list.Holds i (Erasure.addNew found t) (Erasure.addNew found' id) := by
  rw [Erasure.addNew, Erasure.addNew]
  simp only [mem_iff hfound h]
  split
  · exact hfound
  · exact List.rel_append hfound (.cons h .nil)

theorem gives_eraseEach {found ts : List Ty} {found' ids : List Nat} (hs : state.Holds i s s')
    (hfound : Meaning.type.list.Holds i found found') (h : Meaning.type.list.Holds i ts ids) :
    (eraseEach e label f' s' found' ids).Gives (Meaning.type.list.pair state).option
      (e.eraseEach f s found ts) i := by
  induction ts generalizing i s s' found found' ids with
  | nil =>
    cases h
    exact gives_pure (.some ⟨hfound, hs⟩)
  | cons t ts ih =>
    obtain ⟨id, ids, hid, hids, rfl⟩ := List.forall₂_cons_left_iff.mp h
    rw [eraseEach, Erasure.eraseEach]
    refine Gives.bind he.grounded (gives_simplifyBy he hf hs hid) fun j result hij hresult => ?_
    generalize e.simplifyBy f s t = result' at hresult
    cases hresult with
    | none => exact gives_pure .none
    | @some a b hresult =>
      obtain ⟨a, s⟩ := a
      obtain ⟨b, s'⟩ := b
      obtain ⟨hanswer, hs⟩ := hresult
      have he := he.mono hij
      have hids := Meaning.type.list.mono hids hij
      have hfound := Meaning.type.list.mono hfound hij
      cases hanswer with
      | ok hr => exact ih he hs (list_addNew hfound hr) hids
      | error _ => exact ih he hs hfound hids

omit hf in
theorem denotes_rootOf (kinds : Constraints) {ts : List Ty} {ids : List Nat}
    (h : Meaning.type.list.Holds i ts ids) :
    answer.Holds i (e.rootOf kinds ts) (rootOf e label kinds ids) := by
  rw [rootOf, Erasure.rootOf]
  split
  · exact .ok he.valueType
  · cases h with
    | nil => exact .ok he.object
    | cons => exact .error .unresolvable

omit hf in
/-- **Loading has numbered the constraint types.** -/
theorem Prepared.constraintTypes (v : TypeVar) :
    Meaning.type.list.Holds i (e.graph.constraintTypes v)
      ((e.graph.constraintTypes v).map label) :=
  List.forall₂_map_right_iff.mpr (List.forall₂_same.mpr fun t ht =>
    he.labels.stored t (Graph.mem_storedTypes_of_constraintTypes ht))

theorem gives_ofConstraints (v : TypeVar) (hs : state.Holds i s s') :
    (ofConstraints e label f' s' v).Gives stepped (e.ofConstraints f s v) i := by
  have htypes := he.constraintTypes v
  rw [ofConstraints, Erasure.ofConstraints]
  refine Gives.bind he.grounded (gives_keep _ he.grounded htypes) fun j usable hij husable => ?_
  generalize (e.graph.constraintTypes v).filter (!e.needs ·) = usable' at husable
  have hs := state.mono hs hij
  cases husable with
  | cons hid hmore =>
    cases hmore with
    | nil => exact gives_pure (.some ⟨.ok hid, hs⟩)
    | cons hid' hmore =>
      exact gives_pure (.some ⟨.error (.ambiguous (.cons hid (.cons hid' hmore))), hs⟩)
  | nil =>
    have he := he.mono hij
    have htypes := he.constraintTypes v
    refine Gives.bind hij.grounded (gives_eraseEach he hf hs .nil htypes)
      fun k result hjk hresult => ?_
    generalize e.eraseEach f s [] (e.graph.constraintTypes v) = result' at hresult
    cases hresult with
    | none => exact gives_pure .none
    | @some a b hresult =>
      obtain ⟨found, s⟩ := a
      obtain ⟨found', s'⟩ := b
      obtain ⟨hfound, hs⟩ := hresult
      cases hfound with
      | nil =>
        have he := he.mono hjk
        exact gives_pure (.some ⟨denotes_rootOf he _ (he.constraintTypes v), hs⟩)
      | cons hid hmore =>
        cases hmore with
        | nil => exact gives_pure (.some ⟨.ok hid, hs⟩)
        | cons hid' hmore =>
          exact gives_pure (.some ⟨.error (.ambiguous (.cons hid (.cons hid' hmore))), hs⟩)

end Prepared

/-! ## Parameters and types -/

section Erasing

variable {e : Erasure} {label : Ty → Nat}

/-- **Erasing a parameter on numbers goes along with erasing it.** -/
theorem follows_eraseVarWithin (fuel : Nat) :
    Follows label (e.eraseVarWithin fuel) (eraseVarWithin e label fuel) e := by
  induction fuel with
  | zero => exact fun _ _ _ => gives_pure .none
  | succ fuel ih =>
    intro i s s' v he hs
    unfold eraseVarWithin Erasure.eraseVarWithin
    rcases hmarked : e.marked.lookup v with _ | _ | given
    case some.some => exact gives_pure (.some ⟨.ok (he.given hmarked), hs⟩)
    -- Unmarked and marked without a type: both go by the constraints.
    all_goals
      dsimp only
      have hlookup := rel_lookup hs.1 v
      generalize s.erased.lookup v = found, s'.erased.lookup v = found' at hlookup
      cases hlookup with
      | some hanswer => exact gives_pure (.some ⟨hanswer, hs⟩)
      | none =>
        simp only [hs.2]
        split
        · exact gives_pure (.some ⟨.error .unresolvable, hs⟩)
        have hpushed : state.Holds i { s with visiting := v :: s.visiting }
            { s' with visiting := v :: s.visiting } := ⟨hs.1, rfl⟩
        refine Gives.bind he.grounded (gives_ofConstraints he ih v hpushed)
          fun j result hij hresult => ?_
        generalize e.ofConstraints (e.eraseVarWithin fuel) _ v = result' at hresult
        cases hresult with
        | none => exact gives_pure .none
        | @some a b hresult =>
          obtain ⟨a, s⟩ := a
          obtain ⟨b, s'⟩ := b
          obtain ⟨hanswer, herased, hvisiting⟩ := hresult
          exact gives_pure (.some ⟨hanswer, .cons ⟨rfl, hanswer⟩ herased,
            congrArg (List.erase · v) hvisiting⟩)

variable {i : Numbers} {t : Ty} {id : Nat} {s : Erasure.State} {s' : State}
  (he : Prepared e label i) (hs : state.Holds i s s')

include hs

omit he in
/-- A result that falls back to the state before. -/
theorem denotes_getD {r : Option (Erasure.Answer × Erasure.State)} {r' : Option (Answer × State)}
    (h : stepped.Holds i r r') : (answer.pair state).Holds i
      (r.getD (.error .unresolvable, s)) (r'.getD (.error .unresolvable, s')) := by
  cases h with
  | some h => exact h
  | none => exact ⟨.error .unresolvable, hs⟩

include he

theorem gives_eraseParam (v : TypeVar) :
    (eraseParam e label s' v).Gives (answer.pair state) (e.eraseParam s v) i :=
  Gives.bind he.grounded (follows_eraseVarWithin e.fuel v he hs) fun _ _ hij hresult =>
    gives_pure (denotes_getD (state.mono hs hij) hresult)

/-- **The erasure of a number is the number of the erasure.** -/
theorem gives_simplify (h : i.Denotes t id) :
    (simplify e label s' id).Gives (answer.pair state) (e.simplify s t) i :=
  Gives.bind he.grounded (gives_simplifyBy he (follows_eraseVarWithin e.fuel) hs h)
    fun _ _ hij hresult => gives_pure (denotes_getD (state.mono hs hij) hresult)

/-- Parameters erased one after the other. -/
theorem gives_eraseParams (vs : List TypeVar) :
    (eachWith (eraseParam e label) s' vs).Gives (answer.list.pair state)
      (threaded e.eraseParam s vs) i :=
  gives_eachWithOf he.grounded vs hs fun _ _ _ hij hxy v _ => gives_eraseParam (he.mono hij) hxy v

/-- Numbers erased one after the other. -/
theorem gives_simplifyEach {ts : List Ty} {ids : List Nat} (h : Meaning.type.list.Holds i ts ids) :
    (eachWith (simplify e label) s' ids).Gives (answer.list.pair state)
      (threaded e.simplify s ts) i :=
  gives_eachWith he.grounded h hs fun _ _ _ hij hxy _ _ _ _ hid =>
    gives_simplify (he.mono hij) hxy hid

/-- **The same for return types.** -/
theorem gives_simplifyReturn (h : i.Denotes t id) (isAsync : Bool) :
    (simplifyReturn e label s' id isAsync).Gives (answer.pair state)
      (e.simplifyReturn s t isAsync) i := by
  rw [simplifyReturn, Erasure.simplifyReturn]
  refine Gives.bind he.grounded (gives_ask _ he.grounded h) fun j needs hij hneeds => ?_
  obtain rfl : needs = e.needs t := hneeds
  have hs := state.mono hs hij
  have h := h.mono hij
  have he := he.mono hij
  split
  · refine Gives.bind he.grounded (gives_ask _ he.grounded h) fun k task hjk htask => ?_
    obtain rfl : task = e.plainTask? t := htask
    cases htask : e.plainTask? t with
    | some task =>
      have hstandIn := Erasure.mem_standIns_of_plainTask? htask
      exact gives_pure ⟨.ok ((he.mono hjk).labels.standIns _ hstandIn), state.mono hs hjk⟩
    | none => exact gives_simplify (he.mono hjk) (state.mono hs hjk) (h.mono hjk)
  · exact gives_simplify he hs h

end Erasing

end Numbered

end LateBridge
