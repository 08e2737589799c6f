import LateBridge.Proofs.Bridge.Signatures
import LateBridge.Source.BridgeCode

/-!
# Proofs/Source/Awaiting — where a failure from inside a bridge is told from its own

    body ──fails──▸ call ──target──▸ marked ──wrapper──▸ unmarked, handed on
                     ╰──task──target──▸ task ──wrapper awaits──▸ taken for its own

A failure inside a bridged method is marked by the target, and the wrapper hands on what is marked.
A failure that the method keeps in the task it returns is raised only where the task is awaited, and
a handler sees it only if its own statement awaits.  The target never awaits, while the wrapper of an
asynchronous method does.  So just these failures reach the wrapper without the mark, and are
answered like a call that did not bind (`carry_eq`).
-/

namespace LateBridge

open BridgeEmitter (failureName failureMark markEntry textIf methodCall targetCall)

/-! ## Failures on their way -/

/-- **A binding failure on its way to the caller.** -/
structure Raised where
  /-- It is kept in a returned task and raised where the task is awaited. -/
  inTask : Bool
  marked : Bool
  deriving DecidableEq, Repr

/-- **What a member does with a failure.** -/
inductive Passage where
  /-- The failure goes on to the caller. -/
  | on (r : Raised)
  /-- The member goes its own way, by some code. -/
  | answered (code : List Code)

/-- **Whether a statement awaits the call it makes.** -/
def awaits (statement : String) : Bool :=
  "await ".toList.isPrefixOf statement.toList || "return await ".toList.isPrefixOf statement.toList

/-- The statements of a handler up to the one that throws the failure on: the mark it then has. -/
def rethrown? (marked : Bool) : List Code → Option Bool
  | .line text :: rest =>
    if text = "throw;" then some marked
    else if text = markEntry ++ " = \"\";" then rethrown? true rest
    else if text = failureName ++ ".Data.Remove(\"" ++ failureMark ++ "\");" then
      rethrown? false rest
    else none
  | _ => none

/-- Statements that throw a failure on, or do something else. -/
def Passage.ofStatements (inTask marked : Bool) (body : List Code) : Passage :=
  match rethrown? marked body with
  | some marked => .on ⟨inTask, marked⟩
  | none => .answered body

/-- **A handler at work** on a failure it has caught; only marked failures pass a test for the mark.
What is thrown on by an asynchronous member is kept in its task. -/
def handle (inTask marked : Bool) : List Code → Passage
  | .line test :: .block body :: rest =>
    if test = "if(" ++ markEntry ++ " != null)" then
      if marked then .ofStatements inTask marked body else .answered rest
    else .answered (.line test :: .block body :: rest)
  | body => .ofStatements inTask marked body

/-- **A member at work** on a failure of the call that it guards.  A task is handed on by a statement
that does not await it, with the failure it keeps. -/
def pass (member : List Code) (r : Raised) : Passage :=
  match member.getLast? with
  | some (.block [_, .block [.line statement], _, .block body]) =>
    if r.inTask && !awaits statement then .on r else handle (awaits statement) r.marked body
  | _ => .on r

/-- **A failure of the bridged method** on its way through both members of the bridge. -/
def BridgeEmitter.carry (b : BridgeEmitter) (p : BridgePlan) (inTask : Bool) : Passage :=
  match pass (b.targetCode p) ⟨inTask, false⟩ with
  | .on r => pass (b.wrapperCode p) r
  | .answered code => .answered code

/-! ## Statements that await -/

/-- A word and a blank are not in front of a name that is followed by a bracket. -/
theorem not_prefix_of_bracket {word name tail cs : List Char} {c : Char}
    (hname : ' ' ∉ name) (hblank : c ≠ ' ') (hword : c ∉ word) :
    ¬ word ++ ' ' :: tail <+: name ++ c :: cs := by
  induction word generalizing name with
  | nil =>
    cases name with
    | nil => exact fun h => hblank (List.cons_prefix_cons.mp h).1.symm
    | cons n name => exact fun h => hname ((List.cons_prefix_cons.mp h).1 ▸ List.mem_cons_self)
  | cons x word ih =>
    obtain ⟨hx, hword⟩ := not_or.mp (List.mem_cons.not.mp hword)
    cases name with
    | nil => exact fun h => hx (List.cons_prefix_cons.mp h).1.symm
    | cons n name =>
      refine fun h => ih (fun hmem => hname (List.mem_cons_of_mem _ hmem)) hword ?_
      exact (List.cons_prefix_cons.mp h).2

/-- **A call by a name without blanks awaits nothing**, whether or not its value is returned. -/
theorem awaits_call {name rest : String} (hname : ' ' ∉ name.toList) {c : Char} {cs : List Char}
    (hrest : rest.toList = c :: cs) (hc : c = '<' ∨ c = '(') (returned : Bool) :
    awaits (textIf returned "return " ++ (name ++ rest)) = false := by
  have hblank : c ≠ ' ' := by rcases hc with rfl | rfl <;> decide
  have hawait : ¬ "await".toList ++ [' '] <+: name.toList ++ c :: cs :=
    not_prefix_of_bracket hname hblank (by rcases hc with rfl | rfl <;> decide)
  have hreturn : ¬ "return".toList ++ ' ' :: "await ".toList <+: name.toList ++ c :: cs :=
    not_prefix_of_bracket hname hblank (by rcases hc with rfl | rfl <;> decide)
  rw [awaits, Bool.or_eq_false_iff, ← Bool.not_eq_true, ← Bool.not_eq_true, List.isPrefixOf_iff_prefix,
    List.isPrefixOf_iff_prefix]
  cases returned with
  | false =>
    rw [textIf, if_neg Bool.false_ne_true, String.empty_append, String.toList_append, hrest]
    exact ⟨hawait, hreturn⟩
  | true =>
    rw [textIf, if_pos rfl, String.toList_append, String.toList_append, hrest]
    refine ⟨fun h => ?_, fun h => hawait ?_⟩
    · exact absurd (List.cons_prefix_cons.mp h).1 (by decide)
    · exact (List.prefix_append_right_inj "return ".toList).mp h

theorem exists_cons_angledNames (names : List String) (text : String) :
    ∃ c cs, (angledNames names ++ "(" ++ text).toList = c :: cs ∧ (c = '<' ∨ c = '(') := by
  rw [angledNames]
  split
  · exact ⟨'(', text.toList, by simp, .inr rfl⟩
  · refine ⟨'<', (", ".intercalate names ++ ">" ++ "(" ++ text).toList, ?_, .inl rfl⟩
    simp

/-- **The target awaits nothing.** -/
theorem awaits_methodCall {m : Method} (h : ' ' ∉ m.name.toList) :
    awaits (methodCall m) = false := by
  obtain ⟨c, cs, hrest, hc⟩ := exists_cons_angledNames (m.vars.map (·.name))
    (", ".intercalate (m.params.map fun q => q.refKind.lead ++ q.name) ++ ");")
  have hcall := awaits_call h hrest hc (!m.returnsVoid)
  simpa only [methodCall, String.append_assoc] using hcall

/-- **The wrapper awaits the target** exactly if it is asynchronous. -/
theorem awaits_targetCall {p : BridgePlan} (h : ' ' ∉ p.target.toList) :
    awaits (targetCall p) = p.shape.isAsync := by
  unfold targetCall
  generalize ", ".intercalate (p.wrapper.params.map fun q =>
    q.refKind.lead ++ textIf q.isDynamic "(dynamic)" ++ q.name) = args
  cases hasync : p.shape.isAsync with
  | false =>
    have hrest : ("(" ++ (args ++ ");")).toList = '(' :: (args ++ ");").toList := by simp
    have hcall := awaits_call h hrest (.inr rfl) p.shape.value?.isSome
    simpa only [textIf, Bool.false_eq_true, if_false, String.append_empty, String.append_assoc]
      using hcall
  | true =>
    rw [awaits, Bool.or_eq_true, List.isPrefixOf_iff_prefix, List.isPrefixOf_iff_prefix]
    cases p.shape.value?.isSome with
    | false =>
      refine .inl ⟨(p.target ++ "(" ++ args ++ ");").toList, ?_⟩
      simp [textIf]
    | true =>
      refine .inr ⟨(p.target ++ "(" ++ args ++ ");").toList, ?_⟩
      simp [textIf]

/-! ## Members at work -/

theorem rethrown?_mark : rethrown? false [.line (markEntry ++ " = \"\";"), .line "throw;"] =
    some true := by
  decide

theorem rethrown?_unmark (marked : Bool) :
    rethrown? marked [.line (failureName ++ ".Data.Remove(\"" ++ failureMark ++ "\");"),
      .line "throw;"] = some false := by
  decide +revert

variable {b : BridgeEmitter} {p : BridgePlan}

/-- A failure passes by a handler if it is in a task that is not awaited. -/
theorem pass_guarded (front : List Code) (statement : String) (body : List Code) (r : Raised) :
    pass (front ++ [b.guarded statement body]) r =
      if r.inTask && !awaits statement then .on r else handle (awaits statement) r.marked body := by
  rw [pass, List.getLast?_concat]
  rfl

/-- **The target marks what it can see**, and tasks it cannot look into. -/
theorem pass_targetCode (hname : ' ' ∉ p.method.name.toList) (inTask : Bool) :
    pass (b.targetCode p) ⟨inTask, false⟩ = .on ⟨inTask, !inTask⟩ := by
  rw [BridgeEmitter.targetCode, pass_guarded, awaits_methodCall hname]
  cases inTask with
  | true => rfl
  | false =>
    rw [handle, Passage.ofStatements, rethrown?_mark]
    · rfl
    · simp

/-- **The wrapper tells failures apart by the mark** if it sees them. -/
theorem pass_wrapperCode (htarget : ' ' ∉ p.target.toList) (r : Raised) :
    pass (b.wrapperCode p) r =
      if r.inTask && !p.shape.isAsync then .on r
      else if r.marked then .on ⟨p.shape.isAsync, false⟩
      else .answered (b.fallbackCode p) := by
  rw [BridgeEmitter.wrapperCode, pass_guarded, awaits_targetCall htarget,
    BridgeEmitter.wrapperHandler, handle, if_pos rfl, Passage.ofStatements, rethrown?_unmark]

/-- **Which failures of the bridged method reach the caller**: all but those that are kept in a task
which the wrapper awaits; these are answered by the fallback. -/
theorem carry_eq (hname : ' ' ∉ p.method.name.toList) (htarget : ' ' ∉ p.target.toList)
    (inTask : Bool) : b.carry p inTask =
      if inTask && p.shape.isAsync then .answered (b.fallbackCode p)
      else .on ⟨inTask || p.shape.isAsync, false⟩ := by
  simp only [BridgeEmitter.carry, pass_targetCode hname, pass_wrapperCode htarget]
  cases inTask <;> cases p.shape.isAsync <;> rfl

/-! ## Telling failures apart -/

/-- **A bridge that tells failures apart**: its target awaits the call that it guards if the wrapper
awaits the target, and a failure of the bridged method goes on to the caller without a mark, whether
it is thrown by the call or kept in a task. -/
structure TellsApart (b : BridgeEmitter) (p : BridgePlan) : Prop where
  awaits : p.shape.isAsync = true → awaits (methodCall p.method) = true
  on : ∀ inTask, ∃ inTask', b.carry p inTask = .on ⟨inTask', false⟩

/-- **A failure inside a bridge is taken for one of the bridge** exactly if it is kept in a task and
the wrapper awaits: the target awaits nothing, so the wrapper answers it just like a call that did
not bind. -/
theorem taken_for_own_iff (b : BridgeEmitter) {p : BridgePlan} (hname : ' ' ∉ p.method.name.toList)
    (htarget : ' ' ∉ p.target.toList) :
    awaits (methodCall p.method) = false ∧ awaits (targetCall p) = p.shape.isAsync ∧
      pass (b.wrapperCode p) ⟨false, false⟩ = .answered (b.fallbackCode p) ∧
      ∀ inTask,
        (b.carry p inTask = .answered (b.fallbackCode p) ↔
          inTask = true ∧ p.shape.isAsync = true) ∧
        ((∃ inTask', b.carry p inTask = .on ⟨inTask', false⟩) ↔
          ¬(inTask = true ∧ p.shape.isAsync = true)) := by
  refine ⟨awaits_methodCall hname, awaits_targetCall htarget, pass_wrapperCode htarget _,
    fun inTask => ?_⟩
  rw [carry_eq hname htarget]
  cases inTask <;> cases p.shape.isAsync <;> simp

/-! ## A program whose failures are taken for others -/

namespace Awaited

/-- An asynchronous method with a marked type parameter. -/
def put : MethodDoc :=
  { name := "Put", accessibility := "public", flags := { isAsync := true }
    typeParams := [{ CoreLibrary.param "T" with
      attributes := [⟨"Bridgegen.DynamicBridgeAttribute", [], []⟩] }]
    params := [⟨"item", "T", .none, none, false, none⟩]
    returns := "System.Threading.Tasks.Task", attributes := [], location := none }

/-- A class with the method. -/
def docs : List GraphDocument :=
  [{ coreLibrary := false, usings := []
     types := CoreLibrary.bareTypes ++ [
      CoreLibrary.classType "System.Threading.Tasks" "Task",
      { CoreLibrary.classType "Shop" "Store" with isPartial := true, methods := [put] }] }]

/-- The program gives a plan whose wrapper awaits. -/
theorem exists_plan : ∃ (g : Graph) (known : WellKnown) (p : BridgePlan), load docs = .ok g ∧
    WellKnown.resolve g = .ok known ∧
      p ∈ (Planner.planGroup ⟨g, known, {}⟩ g.methods).plans ∧
      p.shape.isAsync = true ∧ ' ' ∉ p.method.name.toList ∧ ' ' ∉ p.target.toList := by
  have hcheck : Given.check docs (fun _ p => p.shape.isAsync = true ∧
      ' ' ∉ p.method.name.toList ∧ ' ' ∉ p.target.toList) = true := by
    decide +kernel
  obtain ⟨g, known, p, -, hload, hknown, hp, -, h⟩ := Given.exists_plan_of_check hcheck
  exact ⟨g, known, p, hload, hknown, hp, of_decide_eq_true h⟩

end Awaited

/-- A failure that the asynchronous method keeps in its task is answered by the fallback. -/
theorem taken_for_own_put : ∃ (b : BridgeEmitter) (p : BridgePlan),
    load Awaited.docs = .ok b.graph ∧ ' ' ∉ p.method.name.toList ∧ ' ' ∉ p.target.toList ∧
      p.shape.isAsync = true ∧ b.carry p true = .answered (b.fallbackCode p) := by
  obtain ⟨g, known, p, hload, -, -, hasync, hname, htarget⟩ := Awaited.exists_plan
  obtain ⟨-, -, -, hcarry⟩ := taken_for_own_iff ⟨g, known, {}⟩ hname htarget
  exact ⟨⟨g, known, {}⟩, p, hload, hname, htarget, hasync, (hcarry true).1.mpr ⟨rfl, hasync⟩⟩

/-- **Bridges of asynchronous methods do not tell failures apart.** -/
theorem not_tellsApart_put : ¬∀ (docs : List GraphDocument) (g : Graph) (known : WellKnown)
    (options : EmitOptions) (p : BridgePlan), load docs = .ok g → WellKnown.resolve g = .ok known →
      p ∈ (Planner.planGroup ⟨g, known, {}⟩ g.methods).plans → p.shape.isAsync = true →
      TellsApart ⟨g, known, options⟩ p := by
  intro h
  obtain ⟨g, known, p, hload, hknown, hp, hasync, hname, htarget⟩ := Awaited.exists_plan
  obtain ⟨-, hon⟩ := h Awaited.docs g known {} p hload hknown hp hasync
  obtain ⟨inTask, hcarry⟩ := hon true
  rw [carry_eq hname htarget, hasync] at hcarry
  exact Passage.noConfusion hcarry

end LateBridge
