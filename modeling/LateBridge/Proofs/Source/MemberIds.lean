import LateBridge.Proofs.Source.TypeIds

/-!
# Proofs/Source/MemberIds — a documentation id names one signature

The id of a member is its name, its arity and the types of its parameters, one behind the other.  The
name holds neither of the marks that the arity and the parameters start with, so all of them can be
read off (`signature_of_memberDocId`).  Type parameters are known by their numbers: those of the
enclosing types are numbered through, outermost first, and those of the method have numbers of their
own (`idForm_eq_of_docId`).
-/

namespace LateBridge

open Text (Ends append_inj_of_all separated_inj)

/-! ## Variables -/

namespace DeclName

theorem getElem?_ownVars {n : DeclName} {v : TypeVar} (h : v ∈ n.ownVars) :
    n.ownVars[v.index]? = some v ∧ v.owner = .type n := by
  obtain ⟨⟨name, index⟩, hmem, rfl⟩ := List.mem_map.mp h
  refine ⟨?_, rfl⟩
  rw [ownVars, List.getElem?_map, List.getElem?_zipIdx, List.mk_mem_zipIdx_iff_getElem?.mp hmem]
  simp

/-- **The type parameters in scope are numbered through**, outermost type first. -/
theorem docId_of_mem_vars {n : DeclName} {v : TypeVar} (h : v ∈ n.vars) :
    ∃ i : Nat, n.vars[i]? = some v ∧ v.docId = "`" ++ toString i := by
  induction n with
  | top space name params =>
    obtain ⟨hindex, howner⟩ := getElem?_ownVars h
    refine ⟨v.index, hindex, ?_⟩
    simp [TypeVar.docId, howner, totalArity, arity, DeclName.params]
  | nested outer name params ih =>
    obtain h | h := List.mem_append.mp h
    · obtain ⟨i, hi, hid⟩ := ih h
      obtain ⟨hlt, -⟩ := List.getElem?_eq_some_iff.mp hi
      exact ⟨i, by rw [vars, List.getElem?_append_left hlt, hi], hid⟩
    · obtain ⟨hindex, howner⟩ := getElem?_ownVars h
      refine ⟨outer.totalArity + v.index, ?_, ?_⟩
      · rw [vars, ← length_vars, List.getElem?_append_right (Nat.le_add_right _ _),
          Nat.add_sub_cancel_left, hindex]
      · simp [TypeVar.docId, howner, totalArity, arity, DeclName.params]

end DeclName

/-- The number of a type parameter of a method. -/
theorem TypeVar.docId_of_method {v : TypeVar} {m : MethodId} (howner : v.owner = .method m)
    (hindex : v.index < 65536) : v.docId = "``" ++ toString v.index := by
  have hordinal : v.ordinal = v.index := Nat.mod_eq_of_lt hindex
  simp only [docId, howner, hordinal]

theorem TypeVar.idForm_of_method {v : TypeVar} {m : MethodId} (howner : v.owner = .method m) :
    v.idForm = { owner := .method default, index := v.index, name := "" } := by
  simp only [idForm, howner]

theorem mark_append_injective {mark : String} {i j : Nat}
    (h : mark ++ toString i = mark ++ toString j) : i = j := by
  have hlist := congrArg String.toList h
  rw [String.toList_append, String.toList_append, List.append_cancel_left_eq,
    Text.toList_toString, Text.toList_toString] at hlist
  exact Text.digits_injective hlist

/-- One backtick or two. -/
theorem mark_append_ne (i j : Nat) : "`" ++ toString i ≠ "``" ++ toString j := by
  intro h
  have hlist : '`' :: Nat.toDigits 10 i = '`' :: '`' :: Nat.toDigits 10 j := by
    have htext := congrArg String.toList h
    rwa [String.toList_append, String.toList_append, Text.toList_toString, Text.toList_toString]
      at htext
  refine Text.not_mem_digits (c := '`') (by decide) i ?_
  rw [(List.cons.inj hlist).2]
  exact List.mem_cons_self

/-- **The number of a type parameter tells it**, in the scope of two methods of one type. -/
theorem idForm_eq_of_docId {n : DeclName} {vars vars' : List TypeVar} {m m' : MethodId}
    (hvars : ∀ v ∈ vars, v.owner = .method m ∧ v.index < 65536)
    (hvars' : ∀ v ∈ vars', v.owner = .method m' ∧ v.index < 65536) {v w : TypeVar}
    (hv : v ∈ n.vars ++ vars) (hw : w ∈ n.vars ++ vars') (h : v.docId = w.docId) :
    v.idForm = w.idForm := by
  obtain hv | hv := List.mem_append.mp hv <;> obtain hw | hw := List.mem_append.mp hw
  · obtain ⟨i, hi, hvid⟩ := DeclName.docId_of_mem_vars hv
    obtain ⟨j, hj, hwid⟩ := DeclName.docId_of_mem_vars hw
    rw [hvid, hwid] at h
    rw [mark_append_injective h, hj] at hi
    rw [Option.some.inj hi]
  · obtain ⟨i, -, hvid⟩ := DeclName.docId_of_mem_vars hv
    rw [hvid, TypeVar.docId_of_method (hvars' w hw).1 (hvars' w hw).2] at h
    exact absurd h (mark_append_ne _ _)
  · obtain ⟨j, -, hwid⟩ := DeclName.docId_of_mem_vars hw
    rw [hwid, TypeVar.docId_of_method (hvars v hv).1 (hvars v hv).2] at h
    exact absurd h.symm (mark_append_ne _ _)
  · obtain ⟨hvowner, hvindex⟩ := hvars v hv
    obtain ⟨hwowner, hwindex⟩ := hvars' w hw
    rw [TypeVar.docId_of_method hvowner hvindex, TypeVar.docId_of_method hwowner hwindex] at h
    rw [TypeVar.idForm_of_method hvowner, TypeVar.idForm_of_method hwowner, mark_append_injective h]

/-! ## Members -/

/-- Two parameters of which an id tells the same: by reference or not, and the type. -/
def Param.Alike (p q : Param) : Prop :=
  (p.refKind = .none ↔ q.refKind = .none) ∧ p.type.Alike q.type

namespace Method

/-- The text of a parameter. -/
def paramText (p : Param) : List Char :=
  p.type.docId.toList ++ if p.refKind == .none then [] else ['@']

/-- The text of the parameters. -/
def paramsText (params : List Param) : List Char :=
  if params.isEmpty then [] else '(' :: ([','].intercalate (params.map paramText) ++ [')'])

/-- The text of the arity. -/
def arityText (arity : Nat) : List Char :=
  if arity = 0 then [] else '`' :: '`' :: Nat.toDigits 10 arity

theorem toList_memberDocId (m : Method) (name : String) : (m.memberDocId name).toList =
    name.toList ++ (arityText m.arity ++ paramsText m.params) := by
  have harity : (DeclName.aritySuffix "``" m.arity).toList = arityText m.arity := by
    rw [DeclName.aritySuffix, arityText]
    by_cases h : m.arity = 0
    · simp [h]
    · simp [h, Nat.repr_eq_ofList_toDigits]
  have hparams : (if m.params.isEmpty then "" else
      "(" ++ ",".intercalate m.docIdParams ++ ")").toList = paramsText m.params := by
    rw [paramsText]
    split
    · rfl
    · have hparam (p : Param) : (p.type.docId ++ if p.refKind == .none then "" else "@").toList =
          paramText p := by
        rw [String.toList_append, paramText]
        split <;> rfl
      rw [String.toList_append, String.toList_append, String.toList_intercalate, docIdParams,
        List.map_map, Function.comp_def]
      simp only [hparam]
      rfl
  rw [memberDocId, String.toList_append, String.toList_append, harity, hparams, List.append_assoc]

variable {names : List DeclName} {vars : List TypeVar} {p q : Param} {params params' : List Param}

/-- **A parameter can be read off.** -/
theorem paramText_inj (hp : p.type.Legible names vars) (hq : q.type.WellFormed names vars)
    {rest rest' : List Char} (hrest : Ends [',', ')'] rest) (hrest' : Ends [',', ')'] rest')
    (h : paramText p ++ rest = paramText q ++ rest') : p.Alike q ∧ rest = rest' := by
  have hmarks : [',', ')'] ⊆ IdSuffix.typeMarks := by decide
  have hat : '@' ∉ [',', ')'] := by decide
  have hends (r : Param) {rest : List Char} (hrest : Ends [',', ')'] rest) :
      Ends IdSuffix.typeMarks ((if r.refKind == .none then [] else ['@']) ++ rest) := by
    split
    · exact hrest.mono hmarks
    · exact Text.ends_cons.mpr (by decide)
  rw [paramText, paramText, List.append_assoc, List.append_assoc] at h
  obtain ⟨htype, hrests⟩ := hp.alike hq (hends p hrest) (hends q hrest') h
  rw [Param.Alike]
  by_cases hpkind : p.refKind = .none <;> by_cases hqkind : q.refKind = .none <;>
    simp only [hpkind, hqkind, beq_self_eq_true, beq_eq_false_iff_ne.mpr, ne_eq, not_false_eq_true,
      if_true, Bool.false_eq_true, if_false, List.nil_append, List.cons_append] at hrests
  · exact ⟨⟨iff_of_true hpkind hqkind, htype⟩, hrests⟩
  · exact absurd (Text.ends_cons.mp (hrests ▸ hrest)) hat
  · exact absurd (Text.ends_cons.mp (hrests ▸ hrest')) hat
  · exact ⟨⟨iff_of_false hpkind hqkind, htype⟩, (List.cons.inj hrests).2⟩

/-- **The parameters can be read off.** -/
theorem paramsText_inj (hparams : ∀ p ∈ params, p.type.Legible names vars)
    (hparams' : ∀ q ∈ params', q.type.WellFormed names vars)
    (h : paramsText params = paramsText params') : List.Forall₂ Param.Alike params params' := by
  rcases params with _ | ⟨p, params⟩ <;> rcases params' with _ | ⟨q, params'⟩
  · exact .nil
  · cases h
  · cases h
  · simp only [paramsText, List.isEmpty_cons, Bool.false_eq_true, if_false] at h
    exact (separated_inj [',', ')'] List.mem_cons_self
      (fun p hp q hq _ _ => paramText_inj (hparams p hp) (hparams' q hq)) (List.cons_ne_nil _ _)
      (List.cons_ne_nil _ _) (Text.ends_cons.mpr (by decide)) (Text.ends_cons.mpr (by decide))
      (by decide) (by decide) (List.cons.inj h).2).1

theorem ends_paramsText (params : List Param) : Ends ['('] (paramsText params) := by
  rw [paramsText]
  split
  · exact Text.ends_nil _
  · exact Text.ends_cons.mpr List.mem_cons_self

/-- The arity can be read off. -/
theorem arityText_inj {m n : Nat} {rest rest' : List Char} (hrest : Ends ['('] rest)
    (hrest' : Ends ['('] rest') (h : arityText m ++ rest = arityText n ++ rest') :
    m = n ∧ rest = rest' := by
  have hmark : '`' ∉ ['('] := by decide
  have hstop {l : List Char} (hl : Ends ['('] l) : ∀ c ∈ l.head?, c.isDigit = false := by
    intro c hc
    rw [List.mem_singleton.mp (hl c hc)]
    rfl
  by_cases hm : m = 0 <;> by_cases hn : n = 0 <;>
    simp only [arityText, hm, hn, if_true, if_false, List.nil_append, List.cons_append] at h
  · exact ⟨hm.trans hn.symm, h⟩
  · exact absurd (Text.ends_cons.mp (h ▸ hrest)) hmark
  · exact absurd (Text.ends_cons.mp (h ▸ hrest')) hmark
  · obtain ⟨hdigits, hrests⟩ := append_inj_of_all Text.isDigit_of_mem_digits
      Text.isDigit_of_mem_digits (hstop hrest) (hstop hrest') (List.cons.inj (List.cons.inj h).2).2
    exact ⟨Text.digits_injective hdigits, hrests⟩

/-- What follows the name starts with a backtick or a parenthesis. -/
theorem head?_signature (m : Method) :
    ∀ c ∈ (arityText m.arity ++ paramsText m.params).head?, (c != '`' && c != '(') = false := by
  intro c hc
  rw [arityText] at hc
  split at hc
  · rw [List.mem_singleton.mp (ends_paramsText m.params c hc)]
    rfl
  · obtain rfl := Option.some.inj hc
    rfl

end Method

/-- The variables of a loaded method of small arity. -/
theorem method_vars_of_load {docs : List GraphDocument} {g : Graph} (h : load docs = .ok g)
    {m : Method} (hm : m ∈ g.methods) (harity : m.arity < 65536) :
    ∀ v ∈ m.vars, v.owner = .method m.id ∧ v.index < 65536 := fun v hv =>
  ⟨(vars_of_load h hm).2 v hv, (index_lt_of_load h hm hv).trans harity⟩

theorem param_wellFormed {docs : List GraphDocument} {g : Graph} (h : load docs = .ok g)
    (hnames : ∀ doc ∈ docs, ∀ e ∈ doc.entries, e.name.wellNamed = true) {m : Method}
    (hm : m ∈ g.methods) : ∀ p ∈ m.params, p.type.WellFormed g.names (m.declaring.vars ++ m.vars) :=
  fun _ hp => wellFormed_of_wellNamed h hnames hm (List.mem_append_left _ (List.mem_append_left _
    (List.mem_append_right _ (List.mem_map_of_mem hp))))

namespace Twins

/-- A method that takes boxes of tables and a key. -/
def put (param key : String) : MethodDoc :=
  { name := "Put", accessibility := "public", flags := {}, typeParams := [CoreLibrary.param param]
    params := [
      ⟨"items", "Box<" ++ param ++ "[,]>", .ref, none, false, none⟩,
      ⟨"key", key, .none, none, false, none⟩]
    returns := "void", attributes := [], location := none }

/-- A store with two of them. -/
def docs : List GraphDocument :=
  [{ coreLibrary := false, usings := []
     types := [
      CoreLibrary.classType "System" "Object",
      { CoreLibrary.classType "Shop" "Box" with typeParams := [CoreLibrary.param "A"] },
      { CoreLibrary.classType "Shop" "Store" with
        methods := [put "T" "dynamic", put "S" "object"] }] }]

/-- The id of both. -/
def id : String := "Put``1(Shop.Box\x7b``0[0:,0:]\x7d@,System.Object)"

/-- Whether the documents load with two such methods. -/
def check : Bool :=
  match load docs with
  | .error _ => false
  | .ok g => g.methods.any fun m => g.methods.any fun m' =>
      m.declaring == m'.declaring && m.id != m'.id && m.arity == 1 && m'.arity == 1 &&
        m.memberDocId "Put" == id && m'.memberDocId "Put" == id

end Twins

end LateBridge
