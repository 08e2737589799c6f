import LateBridge.Proofs.Dispatch.Equations
import LateBridge.Proofs.Document.Loading

/-!
# Proofs/Dispatch/Reordering — late binding does not depend on the order of parameters

Of a program, binding a call reads base types, interfaces, kinds of types and type parameters; other
parameter lists change none of these (`Graph.infer_withParams`).  Of the call it reads pairs of a
parameter and an argument, and its bindings and checks are about each pair by itself
(`Graph.infer_of_perm`).  So parameters and arguments in another order bind the same type arguments
(`infer_reordered_iff`).
-/

namespace LateBridge

variable {params : Method → List Param}

/-! ## Programs with other parameter lists -/

/-- A method with another parameter list. -/
def Method.withParams (params : Method → List Param) (m : Method) : Method :=
  { m with params := params m }

/-- A declaration whose methods have other parameter lists. -/
def TypeDecl.withParams (params : Method → List Param) (d : TypeDecl) : TypeDecl :=
  { d with methods := d.methods.map (Method.withParams params) }

namespace Graph

variable {g : Graph}

/-- **A program whose methods have other parameter lists**, and which is the same otherwise. -/
def withParams (params : Method → List Param) (g : Graph) : Graph :=
  { decls := g.decls.map (TypeDecl.withParams params), visitLimit := g.visitLimit }

theorem methods_withParams :
    (g.withParams params).methods = g.methods.map (Method.withParams params) := by
  rw [methods, methods, withParams, List.flatMap_map, List.map_flatMap]
  rfl

@[simp] theorem find?_withParams (name : String) :
    (g.withParams params).find? name = (g.find? name).map (TypeDecl.withParams params) := by
  rw [find?_eq, find?_eq, withParams, List.find?_map]
  rfl

@[simp] theorem decl?_withParams (n : DeclName) :
    (g.withParams params).decl? n = (g.decl? n).map (TypeDecl.withParams params) :=
  find?_withParams n.metadata

theorem typeParam?_withParams : (g.withParams params).typeParam? = g.typeParam? := by
  funext v
  have hmethod (id : MethodId) :
      (g.withParams params).method? id = (g.method? id).map (Method.withParams params) := by
    rw [method?, method?, decl?_withParams]
    cases g.decl? id.type <;> simp [TypeDecl.withParams]
  rw [typeParam?, typeParam?]
  cases v.owner with
  | type n =>
    simp only [decl?_withParams, Option.bind_map]
    rfl
  | method id =>
    simp only [hmethod, Option.bind_map]
    rfl

theorem constraints_withParams : (g.withParams params).constraints = g.constraints := by
  funext v
  rw [constraints, constraints, typeParam?_withParams]

theorem constraintTypes_withParams :
    (g.withParams params).constraintTypes = g.constraintTypes := by
  funext v
  rw [constraintTypes, constraintTypes, typeParam?_withParams]

theorem isValueType_withParams : (g.withParams params).isValueType = g.isValueType := by
  funext t
  cases t with
  | named n args =>
    rw [isValueType, isValueType, decl?_withParams, Option.any_map]
    rfl
  | var v => rw [isValueType, isValueType, constraints_withParams]
  | _ => rfl

theorem base?_withParams : (g.withParams params).base? = g.base? := by
  funext t
  cases t with
  | named n args =>
    rw [base?, base?, decl?_withParams]
    cases g.decl? n <;> rfl
  | array element rank =>
    rw [base?, base?, special?, special?, find?_withParams, Option.map_map]
    rfl
  | _ => rfl

theorem interfaces_withParams : (g.withParams params).interfaces = g.interfaces := by
  funext t
  cases t with
  | named n args =>
    rw [interfaces, interfaces, decl?_withParams]
    cases g.decl? n <;> rfl
  | _ => rfl

theorem baseChain_withParams : (g.withParams params).baseChain = g.baseChain :=
  baseChain_congr base?_withParams

theorem allInterfaces_withParams : (g.withParams params).allInterfaces = g.allInterfaces :=
  allInterfaces_congr base?_withParams interfaces_withParams rfl

theorem isAssignable_withParams : (g.withParams params).isAssignable = g.isAssignable :=
  isAssignable_congr baseChain_withParams allInterfaces_withParams isValueType_withParams

/-! ## Binding in them -/

theorem runtimeType?_withParams (arg : Value) :
    arg.runtimeType? (g.withParams params) = arg.runtimeType? g := by
  cases arg <;> simp only [Value.runtimeType?, isValueType_withParams]

theorem instances_withParams : (g.withParams params).instances = g.instances := by
  funext n t
  rw [instances, instances, baseChain_withParams, allInterfaces_withParams]

theorem fitsArg_withParams {generic : List TypeVar} {r : Ty.Subst} {x : Param × Value} :
    (g.withParams params).FitsArg generic r x ↔ g.FitsArg generic r x := by
  simp only [FitsArg, runtimeType?_withParams]
  exact forall₂_congr fun _ _ => ⟨.of_instances_eq instances_withParams.symm,
    .of_instances_eq instances_withParams⟩

theorem isNonNullable_withParams : (g.withParams params).isNonNullable = g.isNonNullable := by
  funext t
  rw [isNonNullable, isNonNullable, isValueType_withParams, find?_withParams]
  cases g.find? "System.Nullable`1" <;> rfl

theorem satisfies_withParams : (g.withParams params).satisfies = g.satisfies := by
  funext s v t
  rw [satisfies, satisfies, constraints_withParams, constraintTypes_withParams,
    isValueType_withParams, isNonNullable_withParams, isAssignable_withParams]

theorem checkArg_withParams : (g.withParams params).checkArg = g.checkArg := by
  funext s q arg
  rw [checkArg, checkArg, runtimeType?_withParams, isAssignable_withParams,
    isNonNullable_withParams]

/-! ## Pairs in another order -/

theorem solution_withParams_iff_of_perm {generic : List TypeVar} {pairs pairs' : List (Param × Value)}
    {s : Ty.Subst} (hpairs : pairs'.Perm pairs) :
    (g.withParams params).Solution generic pairs' s ↔ g.Solution generic pairs s := by
  have hfits (r : Ty.Subst) : (∀ x ∈ pairs', (g.withParams params).FitsArg generic r x) ↔
      ∀ x ∈ pairs, g.FitsArg generic r x :=
    forall_congr' fun x => imp_congr hpairs.mem_iff fitsArg_withParams
  constructor
  · intro h
    exact ⟨h.vars, h.lookup, fun r => (h.least r).trans (hfits r)⟩
  · intro h
    exact ⟨h.vars, h.lookup, fun r => (h.least r).trans (hfits r).symm⟩

end Graph

/-- **Late binding does not depend on the order of parameters.**  Parameters in another order, in the
method and in its program, bind with the arguments in that order exactly if they did before, and bind
the same type arguments. -/
theorem infer_reordered_iff {g : Graph} {m : Method} {args args' : List Value} {s : Ty.Subst}
    (hparams : (params m).length = m.params.length) (hargs : args'.length = args.length)
    (hpairs : ((params m).zip args').Perm (m.params.zip args)) :
    (g.withParams params).infer (m.withParams params) args' = .ok s ↔ g.infer m args = .ok s := by
  rw [Graph.infer_eq_ok_iff_solution, Graph.infer_eq_ok_iff_solution, Graph.satisfies_withParams,
    Graph.checkArg_withParams]
  have hlength : args'.length = (m.withParams params).params.length ↔
      args.length = m.params.length := by
    rw [hargs, ← hparams]
    rfl
  refine and_congr hlength (and_congr ?_ (and_congr_right fun _ => ?_))
  · exact Graph.solution_withParams_iff_of_perm hpairs
  · exact forall_congr' fun x => imp_congr_left hpairs.mem_iff

/-! A method that puts an item into a box of such items, and the same method that takes the box
first. -/

namespace Mirror

/-- The method. -/
def put : MethodDoc :=
  { name := "Put", accessibility := "public", flags := {}, typeParams := [CoreLibrary.param "T"]
    params := [⟨"item", "T", .none, none, false, none⟩, ⟨"box", "IBox<T>", .none, none, false, none⟩]
    returns := "void", attributes := [], location := none }

/-- A program with the method, and a class that is a box of birds. -/
def docs : List GraphDocument :=
  [{ coreLibrary := false, usings := []
     types := CoreLibrary.bareTypes ++ [
      { CoreLibrary.interfaceType "Farm" "IBox" with typeParams := [CoreLibrary.param "C"] },
      CoreLibrary.classType "Farm" "Bird",
      { CoreLibrary.classType "Farm" "Cage" with interfaces := ["IBox<Bird>"] },
      { CoreLibrary.classType "Farm" "Host" with methods := [put] }] }]

/-- The type of the item. -/
def bird : Ty := .plain (.top (some "Farm") "Bird" [])

/-- An item and a box for it. -/
def args : List Value := [.object bird 0, .object (.plain (.top (some "Farm") "Cage" [])) 1]

/-- Parameters from the last to the first. -/
def backwards (m : Method) : List Param := m.params.reverse

/-- The program loads, and the call with an item and a box binds birds. -/
theorem exists_call : ∃ g m, load docs = .ok g ∧ m ∈ g.methods ∧
    m.params.map (·.name) = ["item", "box"] ∧ g.infer m args = .ok (m.vars.map (·, bird)) := by
  have hcheck : loadsWith docs (fun g _ => g.methods.any fun m =>
      m.params.map (·.name) == ["item", "box"] && g.infer m args == .ok (m.vars.map (·, bird))) =
        true := by decide +kernel
  obtain ⟨g, -, hload, -, h⟩ := exists_of_loadsWith hcheck
  obtain ⟨m, hm, h⟩ := List.any_eq_true.mp h
  obtain ⟨hnames, hinfer⟩ := Bool.and_eq_true_iff.mp h
  exact ⟨g, m, hload, hm, eq_of_beq hnames, eq_of_beq hinfer⟩

end Mirror

/-- The method binds birds, whichever it takes first. -/
theorem infer_reordered_iff_mirror : ∃ (g : Graph) (m : Method), load Mirror.docs = .ok g ∧
    m ∈ g.methods ∧ m.withParams Mirror.backwards ∈ (g.withParams Mirror.backwards).methods ∧
    (m.withParams Mirror.backwards).params.map (·.name) = ["box", "item"] ∧
    (g.withParams Mirror.backwards).infer (m.withParams Mirror.backwards) Mirror.args.reverse =
      .ok (m.vars.map (·, Mirror.bird)) := by
  obtain ⟨g, m, hload, hm, hnames, hinfer⟩ := Mirror.exists_call
  have hlength : m.params.length = Mirror.args.length := by
    rw [← List.length_map, hnames]
    rfl
  have hpairs : (Mirror.backwards m).zip Mirror.args.reverse = (m.params.zip Mirror.args).reverse :=
    (List.reverse_zipWith hlength).symm
  refine ⟨g, m, hload, hm, ?_, ?_, ?_⟩
  · rw [Graph.methods_withParams]
    exact List.mem_map_of_mem hm
  · rw [Method.withParams, Mirror.backwards, List.map_reverse, hnames]
    rfl
  · exact (infer_reordered_iff List.length_reverse List.length_reverse
      (hpairs ▸ List.reverse_perm _)).mpr hinfer

end LateBridge
