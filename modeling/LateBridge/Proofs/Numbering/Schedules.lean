import LateBridge.Proofs.Generation
import LateBridge.Proofs.Numbering.Planning

/-!
# Proofs/Numbering/Schedules — the order of groups never shows

    one table ◂── group ── group ── group ── anybody else
                    ▾        ▾        ▾
             plans over numbers, reports, file

The groups of a pass share one table.  Which numbers a group gets depends on what was numbered
before it, but in every schedule each group means what it means by itself (`schedules_agree`):
reports and files are those of the pass, and the plans are those of the groups one after the other
under a renaming of numbers.
-/

namespace LateBridge

namespace Numbered

open Interning

/-! ## Loaded tables -/

/-- **A table as a pass finds it**: what the graph stores is numbered, and the well-known types, if
they are there. -/
structure Loaded (g : Graph) (label : Ty → Nat) (i : Numbers) : Prop where
  grounded : i.Grounded
  labels : ∀ known, WellKnown.resolve g = .ok known → Labels g known label i

/-- The well-known types of a graph that stand in for others. -/
def wellKnownTypes (g : Graph) : List Ty :=
  ((WellKnown.resolve g).toOption.map WellKnown.standIns).getD []

/-- A table as loading leaves it. -/
def loadedTable (g : Graph) : Numbers := Interner.ofTypes (g.storedTypes ++ wellKnownTypes g)

/-- The number of a type in a table that knows it. -/
def labelIn (i : Numbers) (t : Ty) : Nat := (i.enter t).1

theorem denotes_labelIn {i : Numbers} (hi : i.Grounded) {t : Ty} (h : i.Knows t) :
    i.Denotes t (labelIn i t) := by
  obtain ⟨id, hid⟩ := h
  obtain ⟨hext, hentered⟩ := Interner.extends_enter hi t
  rwa [labelIn, hentered.unique (hid.mono hext)]

/-- **Every graph can be loaded into a table.** -/
theorem loaded_loadedTable (g : Graph) : Loaded g (labelIn (loadedTable g)) (loadedTable g) := by
  have hgrounded : (loadedTable g).Grounded := Interner.grounded_ofTypes _
  refine ⟨hgrounded, fun known hknown => ⟨hgrounded, fun t ht => ?_, fun t ht => ?_⟩⟩
  · exact denotes_labelIn hgrounded (Interner.knows_ofTypes (List.mem_append_left _ ht))
  · refine denotes_labelIn hgrounded (Interner.knows_ofTypes (List.mem_append_right _ ?_))
    rwa [wellKnownTypes, hknown]

/-! ## Groups that share a table -/

/-- A group with the plans under other numbers. -/
def GroupResult.rename (σ : Nat → Nat) (r : GroupResult) : GroupResult :=
  { r with plans := r.plans.map (·.rename σ) }

/-- **The groups of a pass** over one table, in first-seen order; none if a well-known type is
missing. -/
def pool (g : Graph) (options : GeneratorOptions) (label : Ty → Nat) (i : Numbers) :
    Pool GroupResult where
  table := i
  threads :=
    match WellKnown.resolve g with
    | .error _ => []
    | .ok known => (groupBySpace (options.names.candidates g)).map fun x =>
      runGroup g known options label x.1 x.2

/-- **Each group of a pool gives the group of the pass.** -/
theorem sound_pool {g : Graph} {label : Ty → Nat} {i : Numbers} (hl : Loaded g label i)
    (options : GeneratorOptions) :
    (pool g options label i).Sound group (generate g options).groups := by
  refine ⟨hl.grounded, ?_⟩
  simp only [pool, generate]
  cases hknown : WellKnown.resolve g with
  | error d => exact .nil
  | ok known =>
    refine List.forall₂_map_left_iff.mpr (List.forall₂_map_right_iff.mpr ?_)
    refine List.forall₂_same.mpr fun x hx => ?_
    refine gives_runGroup (hl.labels known hknown) options x.1 fun m hm => ?_
    rw [(mem_groupBySpace.mp hx).1] at hm
    exact List.mem_of_mem_filter (List.mem_of_mem_filter hm)

/-- Groups that mean the same in two tables differ by a renaming. -/
theorem group_eq_rename {σ : Nat → Nat} {i j : Numbers} (hσ : Renumbers σ i j)
    {r : LateBridge.GroupResult} {n n' : GroupResult} (h : group.Holds i r n)
    (h' : group.Holds j r n') : n' = n.rename σ := by
  obtain ⟨space, plans, artifact?, reports⟩ := n
  obtain ⟨space', plans', artifact?', reports'⟩ := n'
  obtain ⟨rfl, hplans, rfl, rfl⟩ := h
  obtain ⟨rfl, hplans', rfl, rfl⟩ := h'
  obtain rfl : plans' = plans.map (·.rename σ) := list_eq_map hplans hplans' (plan_eq_rename hσ)
  rfl

/-! ## Every schedule -/

/-- **The order of groups never shows.**  Let the groups of a pass share a loaded table, do their
steps in any order, and let others number further types before any step.  Once all are done, each
group has the reports and the file that the pass gives it, and plans over numbers that mean its
plans.  One after the other in first-seen order the groups give the same, but for a renaming of
the numbers that takes each type to itself.  A pass in which an interface closure goes past the visit
limit does not end, and is not meant. -/
theorem schedules_agree {g : Graph} {label : Ty → Nat} {i : Numbers} (hl : Loaded g label i)
    (options : GeneratorOptions) {final : Pool GroupResult} {rs : List GroupResult}
    (h : (pool g options label i).Reaches final) (hdone : final.threads = rs.map .done) :
    List.Forall₂ (GroupDenotes final.table) (generate g options).groups rs ∧
      ∃ σ, Function.Injective σ ∧ Renumbers σ final.table (pool g options label i).runEach.2 ∧
        (pool g options label i).runEach.1 = rs.map (·.rename σ) := by
  have hsound := sound_pool hl options
  have hfinal := (h.sound hsound).2.holds hdone
  have hsequential := ((Pool.reaches_runEach _).sound hsound).2.holds rfl
  refine ⟨hfinal, renumber _ _, renumber_injective, renumbers_renumber, ?_⟩
  exact list_eq_map hfinal hsequential (group_eq_rename renumbers_renumber)

/-! Two groups put the same shelf in the place of a pair.  Its number is that of the next new type,
and another one if somebody numbers a type before. -/

/-- A declared type in a namespace with a base type. -/
def sampleType (space name : String) (params : List String) (base? : Option Ty) : TypeDecl :=
  let n := DeclName.top (some space) name params
  { sampleClass space name [] with
    name := n, base?, typeParams := n.vars.map fun v => ⟨v, .none, {}, [], [], none⟩ }

/-- A method whose parameter is a pair of a fixed and a marked type. -/
def pairMethod (space : String) : Method :=
  let id : MethodId := ⟨.top (some space) "Store" [], 0⟩
  let v : TypeVar := ⟨.method id, 0, "T"⟩
  let pair := Ty.named (.top (some "Shop") "Pair" ["A", "B"])
    [.plain (.top (some "Shop") "Crate" []), .var v]
  { sampleMethod with
    id, typeParams := [⟨v, .none, {}, [], [⟨"Bridgegen.DynamicBridgeAttribute", [], []⟩], none⟩]
    params := [⟨"pair", pair, .none, none, false, none⟩] }

/-- Two namespaces with such a method each. -/
def pairGraph : Graph :=
  let shelfOf (n : DeclName) : Ty :=
    .named (.top (some "Shop") "Shelf" ["U"]) (n.vars.take 1 |>.map .var)
  { decls := [sampleClass "System" "Object" [], sampleClass "System" "ValueType" [],
      sampleClass "System" "Array" [], sampleClass "System" "String" [],
      sampleClass "System" "Boolean" [], sampleClass "System" "ArgumentException" [],
      sampleClass "Microsoft.CSharp.RuntimeBinder" "RuntimeBinderException" [],
      sampleClass "Shop" "Crate" [], sampleType "Shop" "Shelf" ["U"] none,
      sampleType "Shop" "Pair" ["A", "B"] (some (shelfOf (.top (some "Shop") "Pair" ["A", "B"]))),
      sampleClass "Shop" "Store" [pairMethod "Shop"],
      sampleClass "Yard" "Store" [pairMethod "Yard"]] }

/-- The numbers of the wrappers' parameter types in some groups. -/
def wrapperTypes (rs : List GroupResult) : List (List Nat) :=
  rs.map fun r => r.plans.flatMap fun p => p.wrapper.params.map (·.type)

/-- The groups of the sample. -/
def pairPool : Pool GroupResult :=
  pool pairGraph {} (labelIn (loadedTable pairGraph)) (loadedTable pairGraph)

/-- The same after somebody numbered an array type. -/
def laterPool : Pool GroupResult := ⟨(pairPool.table.place (.array voidId 1)).2, pairPool.threads⟩

/-- The groups agree about everything but the number of the shelf. -/
theorem schedules_agree_pairs : ∃ final rs, pairPool.Reaches final ∧ final.threads = rs.map .done ∧
    wrapperTypes pairPool.runEach.1 = [[14], [14]] ∧ wrapperTypes rs = [[15], [15]] ∧
    List.Forall₂ (GroupDenotes final.table) (generate pairGraph {}).groups rs ∧
    ∃ σ, Function.Injective σ ∧ pairPool.runEach.1 = rs.map (·.rename σ) := by
  have hother : pairPool.Step laterPool :=
    .other (List.forall_mem_singleton.mpr (denotes_void pairPool.table).lt_size)
  have hreaches : pairPool.Reaches _ := .head hother (Pool.reaches_runEach laterPool)
  have hfirst : wrapperTypes pairPool.runEach.1 = [[14], [14]] := by decide +kernel
  have hlater : wrapperTypes laterPool.runEach.1 = [[15], [15]] := by decide +kernel
  obtain ⟨hgroups, σ, hσ, -, hrenamed⟩ :=
    schedules_agree (loaded_loadedTable pairGraph) {} hreaches rfl
  exact ⟨_, _, hreaches, rfl, hfirst, hlater, hgroups, σ, hσ, hrenamed⟩

end Numbered

end LateBridge
