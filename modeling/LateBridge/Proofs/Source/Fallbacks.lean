import LateBridge.Proofs.Bridge.Signatures
import LateBridge.Proofs.Dispatch.Calls
import LateBridge.Source.BridgeCode

/-!
# Proofs/Source/Fallbacks — written and computed fallbacks agree

    plan ──fallback──▸ statements ──code──▸ the code of the handler
                           ╰───────run────▸ the outcome of the call

What a bridge does when its call does not bind is said twice: in the code that is written for the
handler of the wrapper, and in the outcome that a call computes.  Both are one list of statements
(`Fallback`), which can be written out and can be run.  The messages are one text as well: what is
written is the computed message with holes in the place of the names that are only known later.
-/

namespace LateBridge

/-! ## The declaration an argument has to match -/

/-- **What an argument has to match**: a declared type, or an array of one. -/
inductive Expected where
  | type (n : DeclName)
  | array (n : DeclName) (rank : Nat)
  deriving DecidableEq, Repr

namespace Expected

/-- What an argument for a parameter of a type has to match, if that can be named. -/
def ofType? : Ty → Option Expected
  | .named n _ => some (.type n)
  | .array (.named n _) rank => some (.array n rank)
  | _ => none

/-- A declared type in a run-time type query. -/
def queried (n : DeclName) : String :=
  (n.special?.bind Special.keyword?).getD
    ("global::" ++ n.spell ⟨"<", ",", ">"⟩ (List.replicate n.totalArity ""))

/-- The query of the run-time type. -/
def code : Expected → String
  | type n => "typeof(" ++ queried n ++ ")"
  | array n rank =>
    "typeof(" ++ queried n ++ ").MakeArrayType(" ++
      BridgeEmitter.textIf (rank > 1) (toString rank) ++ ")"

/-- The name for a reader. -/
def display : Expected → String
  | type n => n.display
  | array n rank => n.display ++ rankText rank

theorem unboundSource?_named (n : DeclName) (args : List Ty) :
    (Ty.named n args).unboundSource? = some (queried n) := by
  rw [Ty.unboundSource?, queried]
  cases n.special?.bind Special.keyword? <;> rfl

/-- The code queries what has to be matched. -/
theorem expectedType?_eq (t : Ty) : BridgeEmitter.expectedType? t = (ofType? t).map code := by
  rcases t with ⟨n, args⟩ | ⟨element, rank⟩ | _ | _ | _ | _ | _ | _
  case named => rw [BridgeEmitter.expectedType?, unboundSource?_named]; rfl
  case array =>
    cases element with
    | named n args => rw [BridgeEmitter.expectedType?, unboundSource?_named]; rfl
    | _ => rfl
  all_goals rfl

/-- The outcome names what has to be matched. -/
theorem expectedDeclaration?_eq (t : Ty) :
    BridgePlan.expectedDeclaration? t = (ofType? t).map display := by
  rcases t with ⟨n, args⟩ | ⟨element, rank⟩ | _ | _ | _ | _ | _ | _
  case array => cases element <;> rfl
  all_goals rfl

end Expected

/-! ## Statements -/

/-- **A statement of a fallback.** -/
inductive Fallback where
  /-- The parameter at a position gets the default value of its type. -/
  | reset (i : Nat) (q : WrapperParam)
  /-- The call gives the default value of a type. -/
  | give (t : Ty)
  /-- The argument of the parameter at a position is to blame. -/
  | blame (i : Nat) (q : WrapperParam) (expected? : Option Expected)
  /-- All late-bound arguments are to blame. -/
  | blameAll
  deriving DecidableEq, Repr

namespace Fallback

open BridgeEmitter (inBraces failureName)

/-- The message about one argument as it is written: a hole for the run-time type of the argument,
and one for what it has to match. -/
def messageCode (q : WrapperParam) (expected? : Option Expected) : String :=
  "$\"" ++ BridgeError.argumentMessage (some (inBraces ("((object)" ++ q.name ++ ")?.GetType()")))
    (expected?.map fun expected => inBraces expected.code) ++ "\""

/-- An exception with some arguments in front of the failure. -/
def thrown (b : BridgeEmitter) (args : String) : String :=
  "throw new " ++ b.known.argumentException.source ++ "(" ++ args ++ ", " ++ failureName ++ ");"

/-- **A statement as it is written.** -/
def code (b : BridgeEmitter) : Fallback → String
  | reset _ q => q.name ++ " = default(" ++ q.type.source ++ ");"
  | give t => "return default(" ++ t.source ++ ");"
  | blame _ q expected? => thrown b (messageCode q expected? ++ ", nameof(" ++ q.name ++ ")")
  | blameAll => thrown b BridgeEmitter.argumentsMessage

/-- **Running statements** on the argument slots: the value or failure of the call, and the slots
afterwards. -/
def run (g : Graph) (failure : BindFailure) :
    List Fallback → List Value → Except BridgeError Value × List Value
  | [], slots => (.ok .unit, slots)
  | reset i q :: rest, slots => run g failure rest (slots.set i (.default q.type))
  | give t :: _, slots => (.ok (.default t), slots)
  | blame i q expected? :: _, slots =>
    (.error (.argumentType q.name ((slots[i]?.bind (·.runtimeType? g)).map Ty.display)
      (expected?.map Expected.display) failure), slots)
  | blameAll :: _, slots => (.error (.arguments failure), slots)

/-- A reset for each result passed back by reference, from a position on. -/
def resets : Nat → List WrapperParam → List Fallback
  | _, [] => []
  | i, q :: qs => (if q.refKind == .out then [reset i q] else []) ++ resets (i + 1) qs

end Fallback

/-- **The fallback of a plan.** -/
def BridgePlan.fallback (p : BridgePlan) : List Fallback :=
  if p.ignoreUnbound then
    Fallback.resets 0 p.wrapper.params ++ p.shape.value?.toList.map .give
  else match p.dynamicSlots with
    | [(i, q)] => [.blame i q (Expected.ofType? q.target)]
    | _ => [.blameAll]

/-! ## The code of a fallback -/

namespace Fallback

variable {b : BridgeEmitter} {p : BridgePlan}

/-- **The written message is the computed one** with holes. -/
theorem argumentMessage_eq (q : WrapperParam) :
    BridgeEmitter.argumentMessage q = messageCode q (Expected.ofType? q.target) := by
  have hopen : "$\"The argument of type '" = "$\"" ++ "The argument of type '" := rfl
  have hmiddle : "' could not be dynamically resolved to its specific type" =
      "' could not be dynamically resolved to its specific " ++ "type" := rfl
  have hclose : ".\"" = "." ++ "\"" := rfl
  unfold BridgeEmitter.argumentMessage messageCode BridgeError.argumentMessage
  rw [Expected.expectedType?_eq, hopen, hmiddle, hclose]
  cases Expected.ofType? q.target with
  | none => simp only [Option.map_none, Option.getD_some, Option.getD_none, toString,
      String.append_assoc, String.append_empty]
  | some expected => simp only [Option.map_some, Option.getD_some, toString, String.append_assoc]

theorem map_snd_dynamicSlots (p : BridgePlan) :
    p.dynamicSlots.map Prod.snd = p.wrapper.dynamicParams := by
  have hparams : p.wrapper.dynamicParams =
      (p.wrapper.params.zipIdx.map Prod.fst).filter (·.isDynamic) := by
    rw [List.zipIdx_map_fst, Wrapper.dynamicParams]
  rw [BridgePlan.dynamicSlots, hparams, List.filter_map, List.map_map, List.filter_map]
  rfl

theorem code_resets (i : Nat) (qs : List WrapperParam) : (resets i qs).map (code b) =
    (qs.filter (·.refKind == .out)).map fun q => q.name ++ " = default(" ++ q.type.source ++ ");" := by
  induction qs generalizing i with
  | nil => rfl
  | cons q qs ih =>
    rw [resets, List.map_append, ih, List.filter_cons]
    split
    · rfl
    · rfl

/-- **The handler holds the fallback**, statement by statement. -/
theorem fallbackCode_eq (b : BridgeEmitter) (p : BridgePlan) :
    b.fallbackCode p = p.fallback.map fun statement => .line (statement.code b) := by
  have hcomp : (fun statement : Fallback => Code.line (statement.code b)) = .line ∘ code b := rfl
  rw [BridgeEmitter.fallbackCode, BridgePlan.fallback, hcomp]
  split
  · rw [BridgeEmitter.defaultsCode, List.map_append, ← List.map_map (l := resets _ _), code_resets,
      List.map_map]
    cases p.shape.value? <;> rfl
  · unfold BridgeEmitter.thrown
    rw [← map_snd_dynamicSlots]
    rcases p.dynamicSlots with _ | ⟨⟨i, q⟩, _ | ⟨second, others⟩⟩
    · rfl
    · simp only [List.map_cons, List.map_nil, argumentMessage_eq]
      rfl
    · rfl

/-! ## Forms of messages -/

theorem thrown_inj {args args' : String} (h : thrown b args = thrown b args') : args = args' := by
  unfold thrown at h
  simpa only [String.append_left_inj, String.append_right_inj] using h

/-- **The message about one argument is told from that about all.** -/
theorem code_blame_ne (b : BridgeEmitter) (i : Nat) (q : WrapperParam)
    (expected? : Option Expected) : (blame i q expected?).code b ≠ blameAll.code b := by
  intro h
  have hheads := congrArg (·.toList.head?) (thrown_inj h)
  simp [messageCode, BridgeEmitter.argumentsMessage] at hheads

/-- A message with a declaration in it is told from one without. -/
theorem isSome_of_argumentMessage_eq {runtimeType? expected? expected'? : Option String}
    (h : BridgeError.argumentMessage runtimeType? expected? =
      BridgeError.argumentMessage runtimeType? expected'?) :
    expected?.isSome = expected'?.isSome := by
  unfold BridgeError.argumentMessage at h
  simp only [String.append_right_inj, String.append_left_inj, toString] at h
  cases expected? <;> cases expected'? <;> simp at h ⊢

theorem isSome_of_code_eq {i : Nat} {q : WrapperParam} {expected? expected'? : Option Expected}
    (h : (blame i q expected?).code b = (blame i q expected'?).code b) :
    expected?.isSome = expected'?.isSome := by
  have hmessage := thrown_inj h
  simp only [String.append_left_inj, messageCode, String.append_right_inj] at hmessage
  simpa only [Option.isSome_map] using isSome_of_argumentMessage_eq hmessage

/-! ## The outcome of a fallback -/

section Outcome

variable {g : Graph} {args : List Value} {failure : BindFailure}

/-- Positions without a slot are not reset. -/
theorem run_resets_of_length_le {i : Nat} {qs : List WrapperParam} (rest : List Fallback)
    {slots : List Value} (h : slots.length ≤ i) :
    run g failure (resets i qs ++ rest) slots = run g failure rest slots := by
  induction qs generalizing i with
  | nil => rfl
  | cons q qs ih =>
    rw [resets, List.append_assoc]
    split
    · rw [List.singleton_append, run, List.set_eq_of_length_le h]
      exact ih (Nat.le_succ_of_le h)
    · exact ih (Nat.le_succ_of_le h)

/-- Resetting from a position on leaves the slots in front. -/
theorem run_resets (qs : List WrapperParam) (rest : List Fallback) (front slots : List Value) :
    run g failure (resets front.length qs ++ rest) (front ++ slots) =
      run g failure rest (front ++ BridgePlan.defaultSlots qs slots) := by
  induction qs generalizing front slots with
  | nil =>
    have hnone : BridgePlan.defaultSlots [] slots = slots := by cases slots <;> rfl
    rw [resets, List.nil_append, hnone]
  | cons q qs ih =>
    cases slots with
    | nil =>
      rw [BridgePlan.defaultSlots, run_resets_of_length_le rest (by simp)]
      simp
    | cons slot slots =>
      have hnext : ∀ value : Value, run g failure (resets (front.length + 1) qs ++ rest)
          (front ++ value :: slots) =
            run g failure rest (front ++ value :: BridgePlan.defaultSlots qs slots) := by
        intro value
        have h := ih (front ++ [value]) slots
        rwa [List.length_append, List.length_singleton, List.append_assoc, List.append_assoc] at h
      rw [resets, List.append_assoc, BridgePlan.defaultSlots]
      split
      · rw [List.singleton_append, run, List.set_append_right _ _ (Nat.le_refl _), Nat.sub_self]
        exact hnext _
      · exact hnext slot

/-- **The outcome of the call is that of the fallback.** -/
theorem unbound_eq_run (g : Graph) (p : BridgePlan) (args : List Value) (failure : BindFailure) :
    p.unbound g args failure = run g failure p.fallback args := by
  rw [BridgePlan.unbound, BridgePlan.fallback]
  split
  · have hresets : run g failure (resets 0 p.wrapper.params ++ p.shape.value?.toList.map .give) args =
        run g failure (p.shape.value?.toList.map .give)
          (BridgePlan.defaultSlots p.wrapper.params args) :=
      run_resets p.wrapper.params (p.shape.value?.toList.map .give) [] args
    rw [hresets, BridgePlan.defaultValue]
    cases p.shape.value? <;> rfl
  · rw [BridgePlan.unboundError]
    rcases p.dynamicSlots with _ | ⟨⟨i, q⟩, _ | ⟨second, others⟩⟩
    · rfl
    · simp only [Expected.expectedDeclaration?_eq]
      rfl
    · rfl

end Outcome

/-! ## The statements of a fallback -/

section Statements

variable {i : Nat} {q : WrapperParam}

theorem mem_resets {statement : Fallback} {start : Nat} {qs : List WrapperParam} :
    statement ∈ resets start qs ↔
      ∃ k q, statement = .reset (start + k) q ∧ qs[k]? = some q ∧ q.refKind = .out := by
  induction qs generalizing start with
  | nil => simp [resets]
  | cons first qs ih =>
    rw [resets, List.mem_append, ih]
    constructor
    · rintro (hmem | ⟨k, q, rfl, hq, hout⟩)
      · split at hmem
        · rename_i hout
          exact ⟨0, first, List.mem_singleton.mp hmem, rfl, eq_of_beq hout⟩
        · exact absurd hmem List.not_mem_nil
      · exact ⟨k + 1, q, by rw [Nat.add_right_comm, Nat.add_assoc], hq, hout⟩
    · rintro ⟨k, q, rfl, hq, hout⟩
      cases k with
      | zero =>
        obtain rfl := Option.some.inj hq
        exact .inl (by simp [hout])
      | succ k => exact .inr ⟨k, q, by rw [Nat.add_right_comm, Nat.add_assoc], hq, hout⟩

theorem mem_fallback_of_ignored (h : p.ignoreUnbound = true) {statement : Fallback} :
    statement ∈ p.fallback ↔
      (∃ i q, statement = .reset i q ∧ p.wrapper.params[i]? = some q ∧ q.refKind = .out) ∨
        ∃ t, statement = .give t ∧ p.shape.value? = some t := by
  rw [BridgePlan.fallback, if_pos h, List.mem_append, mem_resets, List.mem_map]
  simp only [Nat.zero_add, Option.mem_toList, and_comm, eq_comm]

theorem reset_mem_iff (h : p.ignoreUnbound = true) :
    .reset i q ∈ p.fallback ↔ p.wrapper.params[i]? = some q ∧ q.refKind = .out := by
  simp [mem_fallback_of_ignored h]

theorem give_mem_iff (h : p.ignoreUnbound = true) {t : Ty} :
    .give t ∈ p.fallback ↔ p.shape.value? = some t := by
  simp [mem_fallback_of_ignored h]

theorem not_blame_mem (h : p.ignoreUnbound = true) {expected? : Option Expected} :
    .blame i q expected? ∉ p.fallback := by
  simp [mem_fallback_of_ignored h]

theorem not_blameAll_mem (h : p.ignoreUnbound = true) : .blameAll ∉ p.fallback := by
  simp [mem_fallback_of_ignored h]

theorem fallback_of_onlyDynamic (h : p.ignoreUnbound = false) (honly : p.wrapper.OnlyDynamic i q) :
    p.fallback = [.blame i q (Expected.ofType? q.target)] := by
  rw [BridgePlan.fallback, h, BridgePlan.dynamicSlots_eq_singleton.mpr honly]
  rfl

theorem fallback_of_not_onlyDynamic (h : p.ignoreUnbound = false)
    (hseveral : ¬∃ i q, p.wrapper.OnlyDynamic i q) : p.fallback = [.blameAll] := by
  rw [BridgePlan.fallback, h, if_neg Bool.false_ne_true]
  split
  · rename_i i q hslots
    exact absurd ⟨i, q, BridgePlan.dynamicSlots_eq_singleton.mp hslots⟩ hseveral
  · rfl

end Statements

/-! ## Agreement -/

/-- **Written and computed fallback agree**: both are one list of statements.  The parameters that
the code resets are the slots that get default values, and the code returns a default value if the
call gives it; the code blames one argument by name if the call does, naming what it has to match if
the call does, and it blames all arguments if the call does. -/
structure Agrees (b : BridgeEmitter) (p : BridgePlan) (args : List Value) (failure : BindFailure)
    (result : Except BridgeError Value) (slots : List Value) : Prop where
  written : b.fallbackCode p = p.fallback.map fun statement => .line (statement.code b)
  computed : (result, slots) = run b.graph failure p.fallback args
  reset_slot : ∀ i q, .reset i q ∈ p.fallback → i < args.length →
    slots[i]? = some (.default q.type)
  other_slot : ∀ i : Nat, (∀ q, .reset i q ∉ p.fallback) → slots[i]? = args[i]?
  give_iff : ∀ t, .give t ∈ p.fallback ↔ result = .ok (.default t)
  blame_iff : ∀ name, (∃ i q expected?, .blame i q expected? ∈ p.fallback ∧ q.name = name) ↔
    ∃ runtimeType? expected?, result = .error (.argumentType name runtimeType? expected? failure)
  expected_eq : ∀ i q expected?, .blame i q expected? ∈ p.fallback → ∃ runtimeType?,
    result = .error (.argumentType q.name runtimeType? (expected?.map Expected.display) failure)
  blameAll_iff : .blameAll ∈ p.fallback ↔ result = .error (.arguments failure)

variable {args : List Value} {failure : BindFailure}

theorem agrees_of_ignored (h : p.ignoreUnbound = true) :
    Agrees b p args failure (p.unbound b.graph args failure).1
      (p.unbound b.graph args failure).2 := by
  have hdefaults : p.GivesDefaults args (p.unbound b.graph args failure).1
      (p.unbound b.graph args failure).2 := BridgePlan.givesDefaults_unbound h
  obtain ⟨hvalue, hunit, -, hout, hother⟩ := hdefaults
  have hgive : ∀ t, p.shape.value? = some t ↔
      (p.unbound b.graph args failure).1 = .ok (.default t) := by
    intro t
    cases hshape : p.shape.value? with
    | none => simp [hunit hshape]
    | some u => simp [hvalue u hshape]
  have hok : ∀ e, (p.unbound b.graph args failure).1 ≠ .error e := by
    intro e
    cases hshape : p.shape.value? with
    | none => simp [hunit hshape]
    | some u => simp [hvalue u hshape]
  refine ⟨fallbackCode_eq b p, unbound_eq_run b.graph p args failure, fun i q hmem hi => ?_,
    fun i hnone => hother i fun q hq hout => hnone q ((reset_mem_iff h).mpr ⟨hq, hout⟩),
    fun t => (give_mem_iff h).trans (hgive t), fun name => ?_,
    fun i q expected? hmem => absurd hmem (not_blame_mem h),
    iff_of_false (not_blameAll_mem h) (hok _)⟩
  · obtain ⟨hq, hisOut⟩ := (reset_mem_iff h).mp hmem
    exact hout i q hq hisOut hi
  · refine iff_of_false ?_ ?_
    · rintro ⟨i, q, expected?, hmem, -⟩
      exact not_blame_mem h hmem
    · rintro ⟨runtimeType?, expected?, hresult⟩
      exact hok _ hresult

theorem agrees_of_onlyDynamic {i : Nat} {q : WrapperParam} (h : p.ignoreUnbound = false)
    (honly : p.wrapper.OnlyDynamic i q) :
    Agrees b p args failure (p.unbound b.graph args failure).1
      (p.unbound b.graph args failure).2 := by
  have htells : p.TellsFailure b.graph args failure (p.unbound b.graph args failure).1
      (p.unbound b.graph args failure).2 := BridgePlan.tellsFailure_unbound h
  obtain ⟨hslots, hargument, -⟩ := htells
  have hresult := hargument i q honly
  have hfallback := fallback_of_onlyDynamic h honly
  rw [Expected.expectedDeclaration?_eq] at hresult
  refine ⟨fallbackCode_eq b p, unbound_eq_run b.graph p args failure, ?_, ?_, ?_, ?_, ?_, ?_⟩
  · simp [hfallback]
  · simp [hslots]
  · simp [hfallback, hresult]
  · simp [hfallback, hresult]
  · intro j r expected? hmem
    rw [hfallback, List.mem_singleton] at hmem
    obtain ⟨rfl, rfl, rfl⟩ := Fallback.blame.inj hmem
    exact ⟨_, hresult⟩
  · simp [hfallback, hresult]

theorem agrees_of_not_onlyDynamic (h : p.ignoreUnbound = false)
    (hseveral : ¬∃ i q, p.wrapper.OnlyDynamic i q) :
    Agrees b p args failure (p.unbound b.graph args failure).1
      (p.unbound b.graph args failure).2 := by
  have htells : p.TellsFailure b.graph args failure (p.unbound b.graph args failure).1
      (p.unbound b.graph args failure).2 := BridgePlan.tellsFailure_unbound h
  obtain ⟨hslots, -, harguments⟩ := htells
  have hresult := harguments hseveral
  have hfallback := fallback_of_not_onlyDynamic h hseveral
  refine ⟨fallbackCode_eq b p, unbound_eq_run b.graph p args failure, ?_, ?_, ?_, ?_, ?_, ?_⟩
  · simp [hfallback]
  · simp [hslots]
  · simp [hfallback, hresult]
  · simp [hfallback, hresult]
  · simp [hfallback]
  · simp [hfallback, hresult]

/-- **Written and computed fallback agree** for every call that does not bind, and the messages that
are written tell the same apart as the errors. -/
theorem fallback_agrees (b : BridgeEmitter) (p : BridgePlan) {args : List Value}
    {failure : BindFailure} (hfails : b.graph.infer p.method args = .error failure) (body : Body) :
    Agrees b p args failure (p.invoke b.graph args body).1 (p.invoke b.graph args body).2 ∧
      (∀ i q expected?, (blame i q expected?).code b ≠ blameAll.code b) ∧
      ∀ i q expected? expected'?, (blame i q expected?).code b = (blame i q expected'?).code b →
        expected?.isSome = expected'?.isSome := by
  have hinvoke : p.invoke b.graph args body = p.unbound b.graph args failure := by
    rw [BridgePlan.invoke, BridgePlan.invokeIn, hfails]
    rfl
  refine ⟨?_, code_blame_ne b, fun i q expected? expected'? => isSome_of_code_eq⟩
  rw [hinvoke]
  cases h : p.ignoreUnbound with
  | true => exact agrees_of_ignored h
  | false =>
    by_cases honly : ∃ i q, p.wrapper.OnlyDynamic i q
    · obtain ⟨i, q, honly⟩ := honly
      exact agrees_of_onlyDynamic h honly
    · exact agrees_of_not_onlyDynamic h honly

/-- A call with two null arguments, from which no type argument can be inferred. -/
theorem fallback_agrees_nulls : ∃ (b : BridgeEmitter) (p : BridgePlan) (failure : BindFailure),
    load (Given.docs "IBox<S[]>") = .ok b.graph ∧
      p ∈ (Planner.planGroup ⟨b.graph, b.known, {}⟩ b.graph.methods).plans ∧
      b.graph.infer p.method [.null, .null] = .error failure ∧
      ∃ runtimeType?, (p.invoke b.graph [.null, .null] fun _ slots => (.ok .unit, slots)).1 =
        .error (.argumentType "item" runtimeType? none failure) := by
  have hcheck : loadsWith (Given.docs "IBox<S[]>") (fun g known =>
      (Planner.planGroup ⟨g, known, {}⟩ g.methods).plans.any fun p =>
        (p.wrapper.params.zipIdx.any fun slot =>
          slot.1.name == "item" && p.fallback.contains (.blame slot.2 slot.1 none)) &&
        !(g.infer p.method [.null, .null]).isOk) = true := by
    decide +kernel
  obtain ⟨g, known, hload, -, h⟩ := exists_of_loadsWith hcheck
  obtain ⟨p, hp, h⟩ := List.any_eq_true.mp h
  obtain ⟨hblames, hrefused⟩ := (Bool.and_eq_true ..).mp h
  obtain ⟨⟨q, i⟩, -, hblame⟩ := List.any_eq_true.mp hblames
  obtain ⟨hname, hmem⟩ := (Bool.and_eq_true ..).mp hblame
  cases hfails : g.infer p.method [.null, .null] with
  | ok s => simp [hfails, Except.isOk, Except.toBool] at hrefused
  | error failure =>
    obtain ⟨hagrees, -, -⟩ := fallback_agrees ⟨g, known, {}⟩ p hfails
      fun _ slots => (.ok .unit, slots)
    obtain ⟨runtimeType?, hresult⟩ := hagrees.expected_eq i q none (List.contains_iff_mem.mp hmem)
    rw [eq_of_beq hname] at hresult
    exact ⟨⟨g, known, {}⟩, p, failure, hload, hp, hfails, runtimeType?, hresult⟩

end Fallback

end LateBridge
