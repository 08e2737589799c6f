import LateBridge.Dispatch.Call
import Mathlib.Data.List.Nodup
import Mathlib.Data.List.Perm.Basic

/-!
# Proofs/Dispatch/Calls — what a caller of a bridge sees

    arguments ──infer──▸ failure ───────────────▸ an error, or default values
                     └─▸ type arguments ──body──▸ its value, or its failure unchanged

Where a failure comes from decides what becomes of it.  A call that does not bind is refused without
the body (`TellsFailure`, `GivesDefaults`), and one that binds is a run of the body and nothing
else, whatever that fails with.  Both are said in the monad of the body, where every run of it shows
(`invoke_tells_origin`).
-/

namespace LateBridge

/-- **The only late-bound parameter of a wrapper**, at its position. -/
structure Wrapper.OnlyDynamic (w : Wrapper) (i : Nat) (q : WrapperParam) : Prop where
  at_position : w.params[i]? = some q
  isDynamic : q.isDynamic = true
  unique : ∀ (j : Nat) (r : WrapperParam), w.params[j]? = some r → r.isDynamic = true → j = i

namespace BridgePlan

variable {g : Graph} {p : BridgePlan} {args : List Value} {failure : BindFailure}

/-! ## Late-bound parameters -/

theorem mem_dynamicSlots {i : Nat} {q : WrapperParam} :
    (i, q) ∈ p.dynamicSlots ↔ p.wrapper.params[i]? = some q ∧ q.isDynamic = true := by
  simp only [dynamicSlots, List.mem_filter, List.mem_map, Prod.mk.injEq, Prod.exists]
  constructor
  · rintro ⟨⟨r, j, hmem, rfl, rfl⟩, hdynamic⟩
    exact ⟨List.mem_zipIdx_iff_getElem?.mp hmem, hdynamic⟩
  · rintro ⟨hposition, hdynamic⟩
    exact ⟨⟨q, i, List.mem_zipIdx_iff_getElem?.mpr hposition, rfl, rfl⟩, hdynamic⟩

theorem nodup_dynamicSlots : p.dynamicSlots.Nodup := by
  refine List.Nodup.filter _ (List.Nodup.of_map Prod.fst ?_)
  have hpositions : (p.wrapper.params.zipIdx.map Prod.snd).Nodup := by
    rw [List.zipIdx_map_snd, ← List.range_eq_range']
    exact List.nodup_range
  rw [List.map_map]
  exact hpositions

/-- One late-bound parameter is listed exactly if it is the only one. -/
theorem dynamicSlots_eq_singleton {i : Nat} {q : WrapperParam} :
    p.dynamicSlots = [(i, q)] ↔ p.wrapper.OnlyDynamic i q := by
  constructor
  · intro h
    have hmem : ∀ j r, p.wrapper.params[j]? = some r → r.isDynamic = true → (j, r) = (i, q) :=
      fun j r hposition hdynamic =>
        List.mem_singleton.mp (h ▸ mem_dynamicSlots.mpr ⟨hposition, hdynamic⟩)
    obtain ⟨hposition, hdynamic⟩ := mem_dynamicSlots.mp (h ▸ List.mem_singleton_self (i, q))
    exact ⟨hposition, hdynamic, fun j r hr hrdynamic => (Prod.mk.inj (hmem j r hr hrdynamic)).1⟩
  · rintro ⟨hposition, hdynamic, hunique⟩
    refine List.perm_singleton.mp ((List.perm_ext_iff_of_nodup nodup_dynamicSlots
      (List.nodup_singleton _)).mpr fun (j, r) => ?_)
    rw [List.mem_singleton, mem_dynamicSlots]
    constructor
    · rintro ⟨hr, hrdynamic⟩
      obtain rfl := hunique j r hr hrdynamic
      rw [Option.some.inj (hr.symm.trans hposition)]
    · rintro ⟨⟩
      exact ⟨hposition, hdynamic⟩

/-- What the caller is told about the only late-bound argument. -/
theorem unboundError_of_onlyDynamic {i : Nat} {q : WrapperParam}
    (h : p.wrapper.OnlyDynamic i q) : p.unboundError g args failure =
      .argumentType q.name ((args[i]?.bind (·.runtimeType? g)).map Ty.display)
        (expectedDeclaration? q.target) failure := by
  rw [unboundError, dynamicSlots_eq_singleton.mpr h]

theorem unboundError_of_not_onlyDynamic (h : ¬∃ i q, p.wrapper.OnlyDynamic i q) :
    p.unboundError g args failure = .arguments failure := by
  rw [unboundError]
  split
  · rename_i i q hslots
    exact absurd ⟨i, q, dynamicSlots_eq_singleton.mp hslots⟩ h
  · rfl

/-! ## Slots -/

/-- Defaults go into the slots of results passed back, and every other slot stays. -/
theorem getElem?_defaultSlots (qs : List WrapperParam) (slots : List Value) (i : Nat) :
    (defaultSlots qs slots)[i]? = slots[i]?.map fun slot =>
      match qs[i]? with
      | some q => if q.refKind == .out then .default q.type else slot
      | none => slot := by
  induction qs generalizing slots i with
  | nil => simp [defaultSlots]
  | cons q qs ih =>
    cases slots with
    | nil => simp [defaultSlots]
    | cons slot slots =>
      cases i with
      | zero => simp [defaultSlots]
      | succ i => simpa [defaultSlots] using ih slots i

theorem length_defaultSlots (qs : List WrapperParam) (slots : List Value) :
    (defaultSlots qs slots).length = slots.length := by
  induction qs generalizing slots with
  | nil => simp [defaultSlots]
  | cons q qs ih => cases slots <;> simp [defaultSlots, ih]

/-! ## Refused calls -/

/-- **A failure of the binding, as the caller is told of it**: no slot has changed, and the one
late-bound parameter is named with the run-time type of its argument, if there is just one. -/
structure TellsFailure (g : Graph) (p : BridgePlan) (args : List Value) (failure : BindFailure)
    (result : Except BridgeError Value) (slots : List Value) : Prop where
  slots : slots = args
  argument : ∀ i q, p.wrapper.OnlyDynamic i q →
    result = .error (.argumentType q.name ((args[i]?.bind (·.runtimeType? g)).map Ty.display)
      (expectedDeclaration? q.target) failure)
  arguments : (¬∃ i q, p.wrapper.OnlyDynamic i q) → result = .error (.arguments failure)

/-- **Default values in place of a failure**: the value of the call, and the slots of results passed
back by reference. -/
structure GivesDefaults (p : BridgePlan) (args : List Value) (result : Except BridgeError Value)
    (slots : List Value) : Prop where
  value : ∀ t, p.shape.value? = some t → result = .ok (.default t)
  unit : p.shape.value? = none → result = .ok .unit
  length : slots.length = args.length
  out : ∀ i q, p.wrapper.params[i]? = some q → q.refKind = .out → i < args.length →
    slots[i]? = some (.default q.type)
  other : ∀ i : Nat, (∀ q, p.wrapper.params[i]? = some q → q.refKind ≠ .out) →
    slots[i]? = args[i]?

theorem tellsFailure_unbound (h : p.ignoreUnbound = false) :
    p.TellsFailure g args failure (p.unbound g args failure).1 (p.unbound g args failure).2 := by
  have hunbound : p.unbound g args failure = (.error (p.unboundError g args failure), args) := by
    simp [unbound, h]
  rw [hunbound]
  exact ⟨rfl, fun i q honly => congrArg _ (unboundError_of_onlyDynamic honly),
    fun hseveral => congrArg _ (unboundError_of_not_onlyDynamic hseveral)⟩

theorem givesDefaults_unbound (h : p.ignoreUnbound = true) :
    p.GivesDefaults args (p.unbound g args failure).1 (p.unbound g args failure).2 := by
  have hunbound : p.unbound g args failure =
      (.ok p.defaultValue, defaultSlots p.wrapper.params args) := by
    simp [unbound, h]
  rw [hunbound]
  refine ⟨fun t ht => by rw [defaultValue, ht], fun hnone => by rw [defaultValue, hnone],
    length_defaultSlots _ _, fun i q hq hout hi => ?_, fun i hother => ?_⟩
  · simp [getElem?_defaultSlots, hq, hout, List.getElem?_eq_getElem hi]
  · rw [getElem?_defaultSlots]
    cases hq : p.wrapper.params[i]? with
    | none => simp
    | some q => simp [hother q hq]

/-! ## Calls -/

/-- **A caller can tell where a failure comes from.**  A call that does not bind never runs the
body: it tells the failure of the binding, or gives default values if the bridge says so.  A call
that binds runs the body once, on the arguments as they are and with the inferred type arguments,
and hands on its result; a failure of the body is marked as such and otherwise left alone. -/
theorem invoke_tells_origin {m : Type → Type} [Monad m] (g : Graph) (p : BridgePlan)
    (args : List Value) (body : BodyIn m) :
    (∀ failure, g.infer p.method args = .error failure →
      ∃ result slots, p.invokeIn g args body = pure (result, slots) ∧
        (p.ignoreUnbound = false → p.TellsFailure g args failure result slots) ∧
        (p.ignoreUnbound = true → p.GivesDefaults args result slots)) ∧
    (∀ s, g.infer p.method args = .ok s → p.invokeIn g args body = do
      let (result, slots) ← body s args
      return (result.mapError .inner, slots)) := by
  constructor
  · intro failure hinfer
    refine ⟨(p.unbound g args failure).1, (p.unbound g args failure).2, ?_, tellsFailure_unbound,
      givesDefaults_unbound⟩
    rw [invokeIn, hinfer]
  · intro s hinfer
    rw [invokeIn, hinfer]
    refine congrArg (body s args >>= ·) (funext fun (result, slots) => ?_)
    cases result <;> rfl

end BridgePlan

end LateBridge
