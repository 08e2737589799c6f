import LateBridge.Proofs.Bridge.ErasureInheritance
import LateBridge.Proofs.Bridge.Remembering
import LateBridge.Proofs.Document.Order
import LateBridge.Proofs.Symbols.FiniteWalk
import LateBridge.Proofs.Symbols.HierarchyCheck

/-!
# Proofs/Bridge/ErasureTermination — erasing returns

    return type ──▸ type ──▸ marked parameter ──▸ its constraint types, one after the other

While a query is answered others are asked, and constraints may lead in cycles.  A marked parameter
that starts is waiting no more, and all it asks for is asked while it is under way; so no chain of
queries goes on for ever (`calls_wellFounded`), the stack never holds a parameter twice
(`Calls.stacks`), and the fuel is more than enough (`askWithin_eq`).  The walks over interfaces end
where finitely many interfaces are reached, for all types that are asked for within one visit limit
(`erasure_returns`).
-/

namespace LateBridge

namespace Erasure

variable {e : Erasure}

/-! ## Queries that ask for others -/

/-- **The queries asked while another one is answered**, each from the state that erasing has come
to: a return type asks for itself as a type, unless a plain task replaces it; a type asks for the
marked parameter it is; and a parameter that is under way from now on asks for its constraint types,
unless the given type, what is remembered, the stack or a usable constraint type decide. -/
inductive Calls (e : Erasure) : State × Query → State × Query → Prop where
  | returnType {s t isAsync} (h : (isAsync && e.needs t) = true → e.plainTask? t = none) :
      Calls e (s, .returnType t isAsync) (s, .type t)
  | type {s v} (hmarked : e.isMarked v = true) : Calls e (s, .type (.var v)) (s, .param v)
  | param {s v before t after} (hgiven : e.given? v = none) (hlookup : s.erased.lookup v = none)
      (hvisiting : v ∉ s.visiting) (hdirect : e.direct? v = none)
      (htypes : e.graph.constraintTypes v = before ++ t :: after) :
      Calls e (s, .param v) (e.afterAll (s.push v) (before.map .type), .type t)

/-- The answers to several queries, each asked after those before it. -/
def answers (e : Erasure) (s : State) : List Query → List Answer
  | [] => []
  | q :: qs => (e.ask s q).1 :: answers e (e.ask s q).2 qs

/-- Asking several queries is a run of their tasks. -/
theorem runs_answers (s : State) (qs : List Query) :
    e.Runs s (qs.map e.taskOfQuery) (e.answers s qs) (e.afterAll s qs) := by
  induction qs generalizing s with
  | nil => exact .nil
  | cons q qs ih => exact (runs_ask s q).cons (ih _)

/-- A run of a query's task is what answers it. -/
theorem ask_eq_of_runs {s s' : State} {q : Query} {a : Answer}
    (h : e.Runs s [e.taskOfQuery q] [a] s') : e.ask s q = (a, s') := by
  obtain ⟨hanswer, hstate⟩ := (runs_ask s q).unique h
  exact Prod.ext (List.head_eq_of_cons_eq hanswer) hstate

/-- The type that a query is about. -/
def Query.types : Query → List Ty
  | .param _ => []
  | .type t | .returnType t _ => [t]

/-- **What is asked for is the type at the start, or a constraint type.** -/
theorem Calls.types {s : State} {q : Query} {c : State × Query}
    (h : Relation.ReflTransGen e.Calls (s, q) c) :
    ∀ t ∈ c.2.types, t ∈ q.types ∨ ∃ v, t ∈ e.graph.constraintTypes v := by
  induction h with
  | refl => exact fun t ht => .inl ht
  | tail _ hcall ih =>
    cases hcall with
    | returnType => exact ih
    | type => exact List.forall_mem_nil _
    | @param s v before t after _ _ _ _ htypes =>
      refine List.forall_mem_singleton.mpr (.inr ⟨v, ?_⟩)
      rw [htypes]
      exact List.mem_append_right _ List.mem_cons_self

/-! ## No endless chains -/

theorem visiting_ask (e : Erasure) (s : State) (q : Query) : (e.ask s q).2.visiting = s.visiting :=
  (runs_ask s q).keeps.visiting

theorem visiting_afterAll (e : Erasure) (s : State) (qs : List Query) :
    (e.afterAll s qs).visiting = s.visiting := (runs_answers s qs).keeps.visiting

theorem waiting_push_le (s : State) (v : TypeVar) : e.waiting (s.push v) ≤ e.waiting s := by
  refine (List.monotone_filter_right _ fun w hw => ?_).length_le
  simp only [State.push, List.mem_cons, not_or, decide_eq_true_eq] at hw ⊢
  exact hw.2

/-- How far a query is from its end: by the marked parameters that wait, and from one to the next by
what asks for what. -/
def rank (e : Erasure) : State × Query → Nat
  | (s, .param v) => 3 * e.waiting s + if e.isMarked v then 0 else 3
  | (s, .type _) => 3 * e.waiting s + 1
  | (s, .returnType ..) => 3 * e.waiting s + 2

/-- **A query that is asked for is nearer to its end.** -/
theorem Calls.rank_lt {c c' : State × Query} (h : e.Calls c c') : e.rank c' < e.rank c := by
  cases h with
  | returnType h => exact Nat.lt_succ_self _
  | type hmarked =>
    rw [rank, if_pos hmarked]
    exact Nat.lt_succ_self _
  | @param s v before t after _ _ hvisiting _ _ =>
    rw [rank, rank, waiting_congr (visiting_afterAll e _ _)]
    split
    · rename_i hmarked
      have hless := waiting_push_lt hmarked hvisiting
      omega
    · have hle := waiting_push_le (e := e) s v
      omega

/-- **No chain of queries goes on for ever**, whatever cycles the constraints form. -/
theorem calls_wellFounded (e : Erasure) : WellFounded fun c c' => e.Calls c' c :=
  Subrelation.wf (fun h => h.rank_lt) (measure e.rank).wf

/-! ## The stack -/

/-- What was put on the stack of a state, no parameter twice. -/
def Stacks (s s' : State) : Prop :=
  ∃ added : List TypeVar, s'.visiting = added ++ s.visiting ∧ added.Nodup ∧
    ∀ v ∈ added, v ∉ s.visiting

theorem Calls.stacks_step {s s₁ : State} {c : State × Query} {q : Query}
    (h : e.Calls (s₁, q) c) (hs : Stacks s s₁) : Stacks s c.1 := by
  cases h with
  | returnType | type => exact hs
  | @param s v before t after _ _ hvisiting _ _ =>
    obtain ⟨added, hadded, hnodup, hfresh⟩ := hs
    rw [hadded, List.mem_append, not_or] at hvisiting
    refine ⟨v :: added, ?_, List.nodup_cons.mpr ⟨hvisiting.1, hnodup⟩, ?_⟩
    · rw [visiting_afterAll, State.push, hadded, List.cons_append]
    · exact List.forall_mem_cons.mpr ⟨hvisiting.2, hfresh⟩

/-- **The stack never holds a parameter twice.** -/
theorem Calls.stacks {s : State} {q : Query} {c : State × Query}
    (h : Relation.ReflTransGen e.Calls (s, q) c) : Stacks s c.1 := by
  induction h with
  | refl => exact ⟨[], rfl, List.nodup_nil, fun _ hv => nomatch hv⟩
  | tail _ hcall ih => exact hcall.stacks_step ih

/-! ## Fuel -/

/-- The answer to a query within some fuel, and the state after it. -/
def askWithin (e : Erasure) (fuel : Nat) (s : State) : Query → Option (Answer × State)
  | .param v => e.eraseVarWithin fuel s v
  | .type t => e.simplifyBy (e.eraseVarWithin fuel) s t
  | .returnType t isAsync =>
    match (if isAsync && e.needs t then e.plainTask? t else none) with
    | some task => some (.ok task, s)
    | none => e.simplifyBy (e.eraseVarWithin fuel) s t

/-- A query is answered as its task says. -/
theorem askWithin_eq_taskOfQuery (fuel : Nat) (s : State) (q : Query) :
    e.askWithin fuel s q = match e.taskOfQuery q with
      | .plain a => some (a, s)
      | .param v => e.eraseVarWithin fuel s v := by
  cases q with
  | param v => rfl
  | type t => exact simplifyBy_eq _ s t
  | returnType t isAsync =>
    rw [askWithin, taskOfQuery]
    cases (if isAsync && e.needs t then e.plainTask? t else none) with
    | some task => rfl
    | none => exact simplifyBy_eq _ s t

/-- **The fuel is enough for every query from every state**, and more fuel changes nothing. -/
theorem askWithin_eq {fuel : Nat} (hfuel : e.fuel ≤ fuel) (s : State) (q : Query) :
    e.askWithin fuel s q = some (e.ask s q) := by
  rw [askWithin_eq_taskOfQuery]
  cases htask : e.taskOfQuery q with
  | plain a =>
    have hrun : e.Runs s [e.taskOfQuery q] [a] s := htask ▸ .plain .nil
    rw [ask_eq_of_runs hrun]
  | param v =>
    obtain ⟨⟨a, s'⟩, h⟩ := Option.isSome_iff_exists.mp (eraseVarWithin_isSome hfuel s v)
    rw [ask_eq_of_runs (htask ▸ computesRuns fuel s v a s' h)]
    exact h

/-! ## Visit limits -/

/-- Erasing with another visit limit. -/
def withVisitLimit (e : Erasure) (limit : Nat) : Erasure :=
  { e with graph := e.graph.withVisitLimit limit }

/-- **Runs are the same** if the given types, the tasks and the verdicts on parameters are. -/
theorem Runs.congr {e' : Erasure} (hgiven : e'.given? = e.given?) (htasks : e'.tasks = e.tasks)
    (hverdict : e'.verdict = e.verdict) {s s' : State} {ts : List Task} {as : List Answer}
    (h : e.Runs s ts as s') : e'.Runs s ts as s' := by
  induction h with
  | nil => exact .nil
  | plain _ ih => exact .plain ih
  | given hv _ ih => exact .given (hgiven ▸ hv) ih
  | remembered hv hlookup _ ih => exact .remembered (hgiven ▸ hv) hlookup ih
  | underWay hv hlookup hvisiting _ ih => exact .underWay (hgiven ▸ hv) hlookup hvisiting ih
  | computed hv hlookup hvisiting _ _ ihrun ih =>
    rw [← hverdict] at ih ⊢
    exact .computed (hgiven ▸ hv) hlookup hvisiting (htasks ▸ ihrun) ih

section Limit

variable {limit : Nat}

theorem needs_withVisitLimit : (e.withVisitLimit limit).needs = e.needs := needs_congr rfl

theorem direct?_withVisitLimit : (e.withVisitLimit limit).direct? = e.direct? := by
  funext v
  rw [direct?, direct?, needs_withVisitLimit]
  rfl

theorem verdict_withVisitLimit : (e.withVisitLimit limit).verdict = e.verdict := by
  funext v answers
  rw [verdict, verdict, direct?_withVisitLimit]
  rfl

/-- A type has the same answer within another limit if its walk finds the same. -/
theorem settled_withVisitLimit {t : Ty}
    (h : (e.graph.withVisitLimit limit).closure? t = e.graph.closure? t) :
    (e.withVisitLimit limit).settled t = e.settled t := by
  have hinterface : (e.withVisitLimit limit).toInterface t = e.toInterface t := by
    have hpick : (e.withVisitLimit limit).pick = e.pick := pick_congr rfl
    rw [toInterface, toInterface, hpick, Graph.allInterfaces, Graph.allInterfaces]
    exact congrArg (fun found => e.pick [e.graph.interfaces t, found.getD []]) h
  have hchain : (e.withVisitLimit limit).graph.baseChain = e.graph.baseChain :=
    Graph.baseChain_congr rfl
  have hbase : (e.withVisitLimit limit).usableBase? t = e.usableBase? t := by
    rw [usableBase?, usableBase?, needs_withVisitLimit, hchain]
    rfl
  simp only [settled, needs_withVisitLimit, ofNamed, toBase, hinterface, hbase]
  rfl

theorem taskOf_withVisitLimit {t : Ty}
    (h : (e.graph.withVisitLimit limit).closure? t = e.graph.closure? t) :
    (e.withVisitLimit limit).taskOf t = e.taskOf t := by
  cases t with
  | var v => rfl
  | _ => exact congrArg Task.plain (settled_withVisitLimit h)

/-- **A query has the same answer within another limit** if the walks over its type and over all
constraint types find the same. -/
theorem ask_withVisitLimit (e : Erasure) (limit : Nat) {q : Query}
    (hq : ∀ t ∈ q.types, (e.graph.withVisitLimit limit).closure? t = e.graph.closure? t)
    (hconstraints : ∀ v, ∀ t ∈ e.graph.constraintTypes v,
      (e.graph.withVisitLimit limit).closure? t = e.graph.closure? t) (s : State) :
    (e.withVisitLimit limit).ask s q = e.ask s q := by
  have htasks : (e.withVisitLimit limit).tasks = e.tasks := by
    funext v
    rw [tasks, tasks, direct?_withVisitLimit]
    split
    · rfl
    · exact List.map_congr_left fun t ht => taskOf_withVisitLimit (hconstraints v t ht)
  have htask : (e.withVisitLimit limit).taskOfQuery q = e.taskOfQuery q := by
    cases q with
    | param v => rfl
    | type t => exact taskOf_withVisitLimit (hq t List.mem_cons_self)
    | returnType t isAsync =>
      rw [taskOfQuery, taskOfQuery, needs_withVisitLimit,
        taskOf_withVisitLimit (hq t List.mem_cons_self)]
      rfl
  have hgiven : (e.withVisitLimit limit).given? = e.given? := rfl
  have hrun := (runs_ask s q).congr hgiven htasks verdict_withVisitLimit
  exact ask_eq_of_runs (htask ▸ hrun)

end Limit

/-! ## Erasing returns -/

/-- **A query that returns** from a state: no chain of queries that it leads to is endless, the walks
over the types in it end, it needs no more than the fuel, no parameter is put on the stack twice, and
every query on the way leaves the stack as it was, whatever its answer is. -/
structure Returns (e : Erasure) (s : State) (q : Query) : Prop where
  chains : Acc (fun c c' => e.Calls c' c) (s, q)
  walks : ∀ c, Relation.ReflTransGen e.Calls (s, q) c →
    ∀ t ∈ c.2.types, (e.graph.closure? t).isSome
  fuel : ∀ fuel ≥ e.fuel, e.askWithin fuel s q = some (e.ask s q)
  stack : ∀ c, Relation.ReflTransGen e.Calls (s, q) c → Stacks s c.1
  restored : ∀ c, Relation.ReflTransGen e.Calls (s, q) c →
    (e.ask c.1 c.2).2.visiting = c.1.visiting

/-- A query returns if the walks over its type and over all constraint types end. -/
theorem returns_of_walks (e : Erasure) {q : Query} (hq : ∀ t ∈ q.types, (e.graph.closure? t).isSome)
    (hconstraints : ∀ v, ∀ t ∈ e.graph.constraintTypes v, (e.graph.closure? t).isSome)
    (s : State) : e.Returns s q where
  chains := (calls_wellFounded e).apply (s, q)
  walks c hc t ht := by
    obtain hmem | ⟨v, hv⟩ := Calls.types hc t ht
    · exact hq t hmem
    · exact hconstraints v t hv
  fuel _ hfuel := askWithin_eq hfuel s q
  stack _ hc := Calls.stacks hc
  restored c _ := visiting_ask e c.1 c.2

end Erasure

/-- **Erasing returns where finitely many interfaces are reached from every type**, whatever cycles
the constraints of parameters and the base types form.  Within a large enough visit limit, which
depends on the query only, it returns from every state; and a larger limit changes no answer. -/
theorem erasure_returns (e : Erasure) (hfinite : e.graph.FinitelyExtends) (q : Erasure.Query) :
    ∃ limit, ∀ n ≥ limit, ∀ s, (e.withVisitLimit n).Returns s q ∧
      (e.withVisitLimit n).ask s q = (e.withVisitLimit limit).ask s q := by
  obtain ⟨limit, hlimit⟩ := hfinite.exists_limit (q.types ++ e.graph.storedTypes)
  refine ⟨limit, fun n hn s => ?_⟩
  obtain ⟨hq, hstored⟩ := List.forall_mem_append.mp (hlimit n hn)
  have hconstraints : ∀ v, ∀ t ∈ e.graph.constraintTypes v, t ∈ e.graph.storedTypes := fun v t =>
    Graph.mem_storedTypes_of_constraintTypes
  constructor
  · exact (e.withVisitLimit n).returns_of_walks (fun t ht => (hq t ht).1)
      (fun v t ht => (hstored t (hconstraints v t ht)).1) s
  · exact (e.withVisitLimit limit).ask_withVisitLimit n (fun t ht => (hq t ht).2)
      (fun v t ht => (hstored t (hconstraints v t ht)).2) s

/-! A program of cycles: two interfaces extend each other, two classes derive from each other, and two
parameters of a method constrain each other. -/

namespace Cycles

/-- The program. -/
def docs : List GraphDocument :=
  [{ coreLibrary := false, usings := []
     types := CoreLibrary.bareTypes ++ [
      { CoreLibrary.interfaceType "Farm" "ILeft" with interfaces := ["IRight"] },
      { CoreLibrary.interfaceType "Farm" "IRight" with interfaces := ["ILeft"] },
      { CoreLibrary.classType "Farm" "Hen" with base? := "Egg", interfaces := ["ILeft"] },
      { CoreLibrary.classType "Farm" "Egg" with base? := "Hen" },
      { CoreLibrary.classType "Farm" "Host" with methods := [
        { name := "M", accessibility := "public", flags := {}
          typeParams := [{ CoreLibrary.param "A" with constraints := ["B"] },
            { CoreLibrary.param "B" with constraints := ["A"] }]
          params := [⟨"a", "A", .none, none, false, none⟩, ⟨"b", "B", .none, none, false, none⟩]
          returns := "void", attributes := [], location := none }] }] }]

/-- The method of the program. -/
def method : MethodId := ⟨.top (some "Farm") "Host" [], 0⟩

/-- Its parameters. -/
def first : TypeVar := ⟨.method method, 0, "A"⟩

/-- The second one. -/
def second : TypeVar := ⟨.method method, 1, "B"⟩

/-- Erasing both. -/
def erasure (g : Graph) (known : WellKnown) : Erasure := ⟨g, known, [(first, none), (second, none)]⟩

/-- Whether a class is its own base type's base type. -/
def circular (g : Graph) (t : Ty) : Bool := (g.base? t).bind g.base? == some t

/-- The program loads with these cycles, and its interfaces mention no parameters. -/
theorem exists_cycles : ∃ g known, load docs = .ok g ∧ WellKnown.resolve g = .ok known ∧
    circular g (.plain (.top (some "Farm") "Hen" [])) = true ∧
    g.constraintTypes first = [.var second] ∧ g.constraintTypes second = [.var first] ∧
    g.FinitelyExtends := by
  have hcheck : loadsWith docs (fun g _ => circular g (.plain (.top (some "Farm") "Hen" [])) &&
      g.constraintTypes first == [.var second] && g.constraintTypes second == [.var first] &&
      g.decls.all fun d => d.interfaces.all (·.vars.isEmpty)) = true := by decide +kernel
  obtain ⟨g, known, hload, hknown, h⟩ := exists_of_loadsWith hcheck
  simp only [Bool.and_eq_true, beq_iff_eq, List.all_eq_true, List.isEmpty_iff] at h
  obtain ⟨⟨⟨hcircular, hfirst⟩, hsecond⟩, hvars⟩ := h
  exact ⟨g, known, hload, hknown, hcircular, hfirst, hsecond, Graph.finitelyExtends_of_vars hvars⟩

end Cycles

/-- Erasing a parameter that is constrained in a cycle returns, from every state. -/
theorem erasure_returns_cycles : ∃ g known, load Cycles.docs = .ok g ∧
    WellKnown.resolve g = .ok known ∧
    Cycles.circular g (.plain (.top (some "Farm") "Hen" [])) = true ∧
    g.constraintTypes Cycles.first = [.var Cycles.second] ∧
    g.constraintTypes Cycles.second = [.var Cycles.first] ∧ g.FinitelyExtends ∧
    ∃ limit, ∀ n ≥ limit, ∀ s,
      ((Cycles.erasure g known).withVisitLimit n).Returns s (.type (.var Cycles.first)) ∧
      ((Cycles.erasure g known).withVisitLimit n).ask s (.type (.var Cycles.first)) =
        ((Cycles.erasure g known).withVisitLimit limit).ask s (.type (.var Cycles.first)) := by
  obtain ⟨g, known, hload, hknown, hcircular, hfirst, hsecond, hfinite⟩ :=
    Cycles.exists_cycles
  exact ⟨g, known, hload, hknown, hcircular, hfirst, hsecond, hfinite,
    erasure_returns (Cycles.erasure g known) hfinite (.type (.var Cycles.first))⟩

end LateBridge
