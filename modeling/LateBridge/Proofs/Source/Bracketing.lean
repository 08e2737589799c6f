import LateBridge.Proofs.Bridge.Signatures
import LateBridge.Proofs.Source.Forest
import LateBridge.Proofs.Source.OneLine

/-!
# Proofs/Source/Bracketing — the braces of a file

    names on one line ──▸ plain lines ──▸ lines that are what they look like ──▸ matching braces

The lines of a file are braces of blocks, empty lines, and lines put together from names.  The last
kind never looks like a brace: it ends with a bracket or a semicolon, or it starts with a keyword
(`Text.Plain`).  So if no name breaks a line, the braces in the text are those of the blocks, for any
options, any namespace, and any plans (`emit_wellBracketed`).
-/

namespace LateBridge

open Text (OneLine oneLine_append oneLine_enclosed oneLine_intercalate oneLine_textIf)

/-! ## Plain lines -/

namespace Text

/-- **A plain line** has no line end inside and is no brace. -/
def Plain (line : String) : Prop := OneLine line ∧ brace? line = none

instance (line : String) : Decidable (Plain line) := inferInstanceAs (Decidable (_ ∧ _))

/-- Whether characters end a plain line: no line end among them, and a last one that is no brace. -/
def endsPlain (ending : List Char) : Bool :=
  !ending.contains '\n' && ending.getLast?.any fun c => c != '\x7b' && c != '\x7d'

theorem plain_of_ending {front : String} {ending : List Char} (hfront : OneLine front)
    (hending : endsPlain ending = true) : Plain (front ++ String.ofList ending) := by
  obtain ⟨hline, hlast⟩ := (Bool.and_eq_true ..).mp hending
  obtain ⟨c, hlast, hc⟩ := (Option.any_eq_true ..).mp hlast
  refine ⟨oneLine_append.mpr ⟨hfront, oneLine_ofList.mpr (by simpa using hline)⟩,
    brace?_eq_none_of_getLast? fun d hd => ?_⟩
  rw [String.toList_append, String.toList_ofList, List.getLast?_append, hlast, Option.some_or] at hd
  obtain rfl := Option.some.inj hd
  simpa using hc

theorem plain_of_keyword {word rest : String} (hword : Plain word)
    (hlong : 2 ≤ word.toList.length ∧ (word.toList.head?.any fun c => !isIndent c) = true)
    (hrest : OneLine rest) : Plain (word ++ rest) := by
  refine ⟨oneLine_append.mpr ⟨hword.1, hrest⟩, ?_⟩
  obtain ⟨hlength, hhead⟩ := hlong
  match hchars : word.toList with
  | [] | [_] => simp [hchars] at hlength
  | c :: d :: cs =>
    have hline : (word ++ rest).toList = c :: d :: (cs ++ rest.toList) := by
      rw [String.toList_append, hchars]
      rfl
    exact brace?_eq_none_of_cons hline (by simpa [hchars] using hhead)

end Text

namespace Code

/-- **Code whose lines are what they look like.** -/
def Fair (body : List Code) : Prop := ∀ line ∈ linesList body, line.Fair

section Fair

variable {body rest : List Code} {text : String}

theorem fair_nil : Fair [] := nofun

theorem fair_line (htext : Text.Plain text) (hrest : Fair rest) : Fair (.line text :: rest) :=
  List.forall_mem_cons.mpr ⟨htext, hrest⟩

theorem fair_block (hbody : Fair body) (hrest : Fair rest) : Fair (.block body :: rest) := by
  refine List.forall_mem_append.mpr ⟨List.forall_mem_cons.mpr ⟨trivial, ?_⟩, hrest⟩
  exact List.forall_mem_append.mpr ⟨hbody, List.forall_mem_singleton.mpr trivial⟩

theorem fair_append (hbody : Fair body) (hrest : Fair rest) : Fair (body ++ rest) := by
  rw [Fair, linesList_append]
  exact List.forall_mem_append.mpr ⟨hbody, hrest⟩

theorem fair_spaced {bodies : List (List Code)} (h : ∀ body ∈ bodies, Fair body) :
    Fair (spaced bodies) := by
  induction bodies with
  | nil => exact fair_nil
  | cons body bodies ih =>
    obtain ⟨hbody, hmore⟩ := List.forall_mem_cons.mp h
    rcases bodies with _ | ⟨next, bodies⟩
    · exact hbody
    · exact fair_append hbody (List.forall_mem_cons.mpr ⟨trivial, ih hmore⟩)

theorem fair_map_line {α : Type} {f : α → Code} {as : List α}
    (h : ∀ a ∈ as, Fair [f a]) : Fair (as.map f) := by
  induction as with
  | nil => exact fair_nil
  | cons a as ih =>
    obtain ⟨ha, has⟩ := List.forall_mem_cons.mp h
    rw [List.map_cons, ← List.singleton_append]
    exact fair_append ha (ih has)

end Fair

end Code

/-! ## The names in a plan -/

/-- The names in a constraint clause. -/
def ConstraintClause.words (c : ConstraintClause) : List String :=
  c.param.name :: c.types.flatMap Ty.words

/-- The names in the signature of a method. -/
def Method.words (m : Method) : List String :=
  m.name :: m.vars.map (·.name) ++ m.params.flatMap (fun q => q.name :: q.type.words) ++
    m.returns.words ++ m.typeParams.flatMap (·.clause.words)

/-- The names in a parameter of a wrapper. -/
def WrapperParam.words (q : WrapperParam) : List String := q.name :: q.type.words ++ q.target.words

/-- The names in the signature of a wrapper, and its modifiers. -/
def Wrapper.words (w : Wrapper) : List String :=
  w.name :: w.modifiers :: w.typeParams.map (·.name) ++ w.params.flatMap WrapperParam.words ++
    w.returns.words ++ w.constraints.flatMap ConstraintClause.words

/-- The names in the header of a repeated type. -/
def Graph.headerWords (g : Graph) (n : DeclName) : List String :=
  n.simple :: (g.decl? n).toList.flatMap fun d =>
    d.name.simple :: d.typeParams.map (·.var.name)

/-- **The names in a plan**, those of the types around the bridge included. -/
def BridgePlan.words (g : Graph) (p : BridgePlan) : List String :=
  p.target :: p.method.words ++ p.wrapper.words ++ p.shape.value?.toList.flatMap Ty.words ++
    p.declaring.chain.flatMap g.headerWords

/-! ## Shared pieces -/

namespace BridgeEmitter

theorem oneLine_clauseParts {c : ConstraintClause} (h : ∀ word ∈ c.words, OneLine word) :
    ∀ part ∈ clauseParts c, OneLine part := by
  obtain ⟨-, htypes⟩ := List.forall_mem_cons.mp h
  rw [List.forall_mem_flatMap] at htypes
  simp only [clauseParts, List.forall_mem_append, List.forall_mem_map]
  refine ⟨⟨⟨⟨?_, ?_⟩, ?_⟩, fun t ht => Ty.oneLine_source (htypes t ht)⟩, ?_⟩
  all_goals split_ifs <;> decide

theorem fair_clauses {cs : List ConstraintClause} (h : ∀ c ∈ cs, ∀ word ∈ c.words, OneLine word) :
    Code.Fair (clauses cs) := by
  refine Code.fair_map_line fun c hc => List.forall_mem_singleton.mpr ?_
  have hwords := h c (List.mem_of_mem_filter hc)
  have hparts : OneLine (", ".intercalate (clauseParts c)) :=
    oneLine_intercalate (by decide) (oneLine_clauseParts hwords)
  have hname : OneLine c.param.name := hwords _ List.mem_cons_self
  rw [String.append_assoc, String.append_assoc]
  refine ⟨Text.plain_of_keyword (by decide) (by decide) ?_, _, rfl⟩
  exact oneLine_append.mpr ⟨hname, oneLine_append.mpr ⟨by decide, hparts⟩⟩

variable {b : BridgeEmitter}

theorem fair_attribute {name : String} (h : OneLine name) :
    Code.Fair [.line ("[" ++ name ++ "]")] :=
  Code.fair_line (Text.plain_of_ending (oneLine_append.mpr ⟨by decide, h⟩) (by decide))
    Code.fair_nil

theorem fair_debuggerAttribute (hknown : b.known.OneLine) : Code.Fair b.debuggerAttribute := by
  rw [debuggerAttribute]
  split
  · rename_i t ht
    exact fair_attribute (hknown.debuggerHidden t ht)
  · exact Code.fair_nil

theorem fair_guarded (hknown : b.known.OneLine) {statement : String} {body : List Code}
    (hstatement : Text.Plain statement) (hbody : Code.Fair body) :
    Code.Fair [b.guarded statement body] := by
  have hcatch : Text.Plain ("catch(" ++ b.known.binderException.source ++ " " ++ failureName ++ ")") :=
    Text.plain_of_ending (by simpa [hknown.binderException] using by decide) (by decide)
  refine Code.fair_block ?_ Code.fair_nil
  exact Code.fair_line (by decide) (Code.fair_block (Code.fair_line hstatement Code.fair_nil)
    (Code.fair_line hcatch (Code.fair_block hbody Code.fair_nil)))

theorem oneLine_failureMark : OneLine failureMark := Text.oneLine_ofList.mpr (by decide)

theorem oneLine_markEntry : OneLine markEntry := oneLine_enclosed (by decide) oneLine_failureMark

/-! ## The target -/

theorem fair_hidingAttributes (hknown : b.known.OneLine) : Code.Fair b.hidingAttributes := by
  rw [hidingAttributes]
  split
  · refine Code.fair_append ?_ (fair_debuggerAttribute hknown)
    split
    · rename_i browsable state hbrowsable hstate
      have hattribute := hknown.editorBrowsable browsable hbrowsable
      have hvalue := hknown.editorBrowsableState state hstate
      refine Code.fair_line (Text.plain_of_ending ?_ (by decide)) Code.fair_nil
      simpa [hattribute, hvalue] using by decide
    · exact Code.fair_nil
  · exact Code.fair_nil

/-- The names in the signature of a method, part by part. -/
theorem oneLine_method {m : Method} (h : ∀ word ∈ m.words, OneLine word) :
    OneLine m.name ∧ (∀ name ∈ m.vars.map (·.name), OneLine name) ∧
      (∀ q ∈ m.params, OneLine q.name ∧ ∀ word ∈ q.type.words, OneLine word) ∧
      OneLine m.returns.source ∧
      ∀ c ∈ m.typeParams.map TypeParam.clause, ∀ word ∈ c.words, OneLine word := by
  simp only [Method.words, List.forall_mem_append, List.forall_mem_cons,
    List.forall_mem_flatMap] at h
  obtain ⟨⟨⟨⟨hname, hvars⟩, hparams⟩, hreturns⟩, hclauses⟩ := h
  exact ⟨hname, hvars, hparams, Ty.oneLine_source hreturns, List.forall_mem_map.mpr hclauses⟩

theorem oneLine_lead (kind : RefKind) : OneLine kind.lead := by
  cases kind <;> decide

theorem plain_targetHeader {p : BridgePlan} (htarget : OneLine p.target)
    (h : ∀ word ∈ p.method.words, OneLine word) : Text.Plain (targetHeader p) := by
  obtain ⟨-, hvars, hparams, hreturns, -⟩ := oneLine_method h
  have hnames := oneLine_angledNames hvars
  have htexts : OneLine (", ".intercalate (p.method.params.map targetParam)) := by
    refine oneLine_intercalate (by decide) (List.forall_mem_map.mpr fun q hq => ?_)
    obtain ⟨hname, htype⟩ := hparams q hq
    have hsource := Ty.oneLine_source htype
    simpa [targetParam, oneLine_lead, hname, hsource] using by decide
  refine Text.plain_of_ending ?_ (by decide)
  simp only [oneLine_append]
  refine ⟨⟨⟨⟨⟨⟨⟨?_, ?_⟩, hreturns⟩, ?_⟩, htarget⟩, hnames⟩, ?_⟩, htexts⟩
  · exact oneLine_textIf _ (by decide)
  · exact oneLine_textIf _ (by decide)
  all_goals decide

theorem plain_methodCall {m : Method} (h : ∀ word ∈ m.words, OneLine word) :
    Text.Plain (methodCall m) := by
  obtain ⟨hname, hvars, hparams, -, -⟩ := oneLine_method h
  have hnames := oneLine_angledNames hvars
  have htexts : OneLine (", ".intercalate (m.params.map fun q => q.refKind.lead ++ q.name)) :=
    oneLine_intercalate (by decide) (List.forall_mem_map.mpr fun q hq =>
      oneLine_append.mpr ⟨oneLine_lead q.refKind, (hparams q hq).1⟩)
  refine Text.plain_of_ending ?_ (by decide)
  simp only [oneLine_append]
  exact ⟨⟨⟨⟨oneLine_textIf _ (by decide), hname⟩, hnames⟩, by decide⟩, htexts⟩

theorem fair_targetCode (hknown : b.known.OneLine) {p : BridgePlan} (htarget : OneLine p.target)
    (h : ∀ word ∈ p.method.words, OneLine word) : Code.Fair (b.targetCode p) := by
  obtain ⟨-, -, -, -, hclauses⟩ := oneLine_method h
  have hmark : Code.Fair [.line (markEntry ++ " = \"\";"), .line "throw;"] :=
    Code.fair_line (Text.plain_of_ending oneLine_markEntry (by decide))
      (Code.fair_line (by decide) Code.fair_nil)
  refine Code.fair_append (Code.fair_append (fair_hidingAttributes hknown) ?_)
    (fair_guarded hknown (plain_methodCall h) hmark)
  exact Code.fair_line (plain_targetHeader htarget h) (fair_clauses hclauses)

/-! ## The wrapper -/

theorem fair_trimmingCode {p : BridgePlan} (htarget : OneLine p.target)
    (h : ∀ word ∈ p.method.words, OneLine word) : Code.Fair (b.trimmingCode p) := by
  obtain ⟨-, -, hparams, -, -⟩ := oneLine_method h
  have hid := oneLine_memberDocId (fun q hq => (hparams q hq).2) htarget
  rw [trimmingCode]
  split
  · have hattribute : OneLine dependencyAttribute := Text.oneLine_ofList.mpr (by decide)
    have hsuppression : OneLine suppressionAttribute := Text.oneLine_ofList.mpr (by decide)
    have hwarning : Text.Plain ("[" ++ suppressionAttribute ++
        "(\"AssemblyLoadTrimming\", \"IL2026:RequiresUnreferencedCode\")]") :=
      Text.plain_of_ending (oneLine_append.mpr ⟨by decide, hsuppression⟩) (by decide)
    refine Code.fair_line (Text.plain_of_ending ?_ (by decide))
      (Code.fair_line hwarning Code.fair_nil)
    simpa [hid, hattribute] using by decide
  · exact Code.fair_nil

/-- The names in the signature of a wrapper, part by part. -/
theorem oneLine_wrapper {w : Wrapper} (h : ∀ word ∈ w.words, OneLine word) :
    OneLine w.name ∧ OneLine w.modifiers ∧ (∀ name ∈ w.typeParams.map (·.name), OneLine name) ∧
      (∀ q ∈ w.params, OneLine q.name ∧ (∀ word ∈ q.type.words, OneLine word) ∧
        ∀ word ∈ q.target.words, OneLine word) ∧
      OneLine w.returns.source ∧ ∀ c ∈ w.constraints, ∀ word ∈ c.words, OneLine word := by
  simp only [Wrapper.words, WrapperParam.words, List.forall_mem_append, List.forall_mem_cons,
    List.forall_mem_flatMap] at h
  obtain ⟨⟨⟨⟨hname, hmodifiers, hvars⟩, hparams⟩, hreturns⟩, hconstraints⟩ := h
  exact ⟨hname, hmodifiers, hvars, fun q hq => (and_assoc.mp (hparams q hq)),
    Ty.oneLine_source hreturns, hconstraints⟩

theorem oneLine_wrapperParam {q : WrapperParam} (hname : OneLine q.name)
    (htype : ∀ word ∈ q.type.words, OneLine word) : OneLine (b.wrapperParam q) := by
  have hsource := Ty.oneLine_source htype
  simp only [wrapperParam, oneLine_append]
  refine ⟨⟨⟨⟨⟨oneLine_textIf _ (by decide), oneLine_lead _⟩, hsource⟩, by decide⟩, hname⟩, ?_⟩
  split
  · exact oneLine_append.mpr ⟨by decide, b.graph.oneLine_literal htype _⟩
  · decide

theorem plain_wrapperHeader {p : BridgePlan} (h : ∀ word ∈ p.wrapper.words, OneLine word) :
    Text.Plain (b.wrapperHeader p) := by
  obtain ⟨hname, hmodifiers, hvars, hparams, hreturns, -⟩ := oneLine_wrapper h
  have hnames := oneLine_angledNames hvars
  have htexts : OneLine (b.wrapperParams p.wrapper) := by
    refine oneLine_append.mpr ⟨oneLine_textIf _ (by decide), oneLine_intercalate (by decide) ?_⟩
    exact List.forall_mem_map.mpr fun q hq =>
      oneLine_wrapperParam (hparams q hq).1 (hparams q hq).2.1
  refine Text.plain_of_ending ?_ (by decide)
  simp only [oneLine_append]
  refine ⟨⟨⟨⟨⟨⟨⟨⟨⟨⟨?_, ?_⟩, ?_⟩, ?_⟩, ?_⟩, hreturns⟩, ?_⟩, hname⟩, hnames⟩, ?_⟩, htexts⟩
  · exact oneLine_textIf _ (oneLine_append.mpr ⟨hmodifiers, by decide⟩)
  · exact oneLine_textIf _ (by decide)
  · exact oneLine_textIf _ (by decide)
  · exact oneLine_textIf _ (by decide)
  · exact oneLine_textIf _ (by decide)
  all_goals decide

theorem plain_targetCall {p : BridgePlan} (htarget : OneLine p.target)
    (h : ∀ word ∈ p.wrapper.words, OneLine word) : Text.Plain (targetCall p) := by
  obtain ⟨-, -, -, hparams, -, -⟩ := oneLine_wrapper h
  have htexts : OneLine (", ".intercalate (p.wrapper.params.map fun q =>
      q.refKind.lead ++ textIf q.isDynamic "(dynamic)" ++ q.name)) := by
    refine oneLine_intercalate (by decide) (List.forall_mem_map.mpr fun q hq => ?_)
    simp only [oneLine_append]
    exact ⟨⟨oneLine_lead _, oneLine_textIf _ (by decide)⟩, (hparams q hq).1⟩
  refine Text.plain_of_ending ?_ (by decide)
  simp only [oneLine_append]
  exact ⟨⟨⟨⟨oneLine_textIf _ (by decide), oneLine_textIf _ (by decide)⟩, htarget⟩, by decide⟩,
    htexts⟩

theorem oneLine_expectedType? {t : Ty} (h : ∀ word ∈ t.words, OneLine word) {text : String}
    (htext : expectedType? t = some text) : OneLine text := by
  rcases t with ⟨n, args⟩ | ⟨element, rank⟩ | _ | _ | _ | _ | _ | _
  case named =>
    obtain ⟨word, hword, rfl⟩ := Option.map_eq_some_iff.mp htext
    have hsource := Ty.oneLine_unboundSource? h hword
    simpa [hsource] using by decide
  case array =>
    obtain ⟨word, hword, rfl⟩ := Option.map_eq_some_iff.mp htext
    have hsource := Ty.oneLine_unboundSource? (t := element) h hword
    have hrank := oneLine_textIf (decide (rank > 1)) (Text.oneLine_nat rank)
    have hdots : OneLine ").MakeArrayType(" := by decide
    simp only [oneLine_append]
    exact ⟨⟨⟨⟨by decide, hsource⟩, hdots⟩, hrank⟩, by decide⟩
  all_goals cases htext

theorem oneLine_argumentMessage {q : WrapperParam} (hname : OneLine q.name)
    (htarget : ∀ word ∈ q.target.words, OneLine word) : OneLine (argumentMessage q) := by
  have hfront : OneLine "$\"The argument of type '" := Text.oneLine_ofList.mpr (by decide)
  have hmiddle : OneLine "' could not be dynamically resolved to its specific type" :=
    Text.oneLine_ofList.mpr (by decide)
  unfold argumentMessage inBraces
  simp only [oneLine_append]
  refine ⟨⟨⟨⟨hfront, ⟨⟨by decide, ⟨⟨by decide, hname⟩, by decide⟩⟩, by decide⟩⟩, hmiddle⟩, ?_⟩,
    by decide⟩
  split
  · rename_i expected hexpected
    have htype := oneLine_expectedType? htarget hexpected
    simpa [htype] using by decide
  · decide

theorem plain_thrown (hknown : b.known.OneLine) {w : Wrapper}
    (h : ∀ word ∈ w.words, OneLine word) : Text.Plain (b.thrown w) := by
  obtain ⟨-, -, -, hparams, -, -⟩ := oneLine_wrapper h
  refine Text.plain_of_ending ?_ (by decide)
  simp only [oneLine_append]
  refine ⟨⟨⟨⟨⟨by decide, hknown.argumentException⟩, by decide⟩, ?_⟩, by decide⟩, by decide⟩
  split
  · rename_i q hq
    have hq : q ∈ w.params := List.mem_of_mem_filter (hq ▸ List.mem_singleton_self q)
    obtain ⟨hname, -, htarget⟩ := hparams q hq
    simp only [oneLine_append]
    exact ⟨⟨⟨oneLine_argumentMessage hname htarget, by decide⟩, hname⟩, by decide⟩
  · exact Text.oneLine_ofList.mpr (by decide)

theorem fair_defaultsCode {p : BridgePlan} (h : ∀ word ∈ p.wrapper.words, OneLine word)
    (hvalue : ∀ t ∈ p.shape.value?, ∀ word ∈ t.words, OneLine word) :
    Code.Fair (defaultsCode p) := by
  obtain ⟨-, -, -, hparams, -, -⟩ := oneLine_wrapper h
  refine Code.fair_append (Code.fair_map_line fun q hq => ?_) ?_
  · obtain ⟨hname, htype, -⟩ := hparams q (List.mem_of_mem_filter hq)
    have hsource := Ty.oneLine_source htype
    refine Code.fair_line (Text.plain_of_ending ?_ (by decide)) Code.fair_nil
    simpa [hname, hsource] using by decide
  · split
    · rename_i t ht
      have hsource := Ty.oneLine_source (hvalue t ht)
      refine Code.fair_line (Text.plain_of_ending ?_ (by decide)) Code.fair_nil
      simpa [hsource] using by decide
    · exact Code.fair_nil

theorem fair_wrapperHandler (hknown : b.known.OneLine) {p : BridgePlan}
    (h : ∀ word ∈ p.wrapper.words, OneLine word)
    (hvalue : ∀ t ∈ p.shape.value?, ∀ word ∈ t.words, OneLine word) :
    Code.Fair (b.wrapperHandler p) := by
  have hmarked : Code.Fair
      [.line (failureName ++ ".Data.Remove(\"" ++ failureMark ++ "\");"), .line "throw;"] := by
    refine Code.fair_line (Text.plain_of_ending ?_ (by decide)) (Code.fair_line (by decide)
      Code.fair_nil)
    exact oneLine_append.mpr ⟨by decide, oneLine_failureMark⟩
  have htest : Text.Plain ("if(" ++ markEntry ++ " != null)") :=
    Text.plain_of_ending (oneLine_append.mpr ⟨by decide, oneLine_markEntry⟩) (by decide)
  have hfallback : Code.Fair (b.fallbackCode p) := by
    rw [fallbackCode]
    split
    · exact fair_defaultsCode h hvalue
    · exact Code.fair_line (plain_thrown hknown h) Code.fair_nil
  exact Code.fair_line htest (Code.fair_block hmarked hfallback)

theorem fair_wrapperCode (hknown : b.known.OneLine) {p : BridgePlan} (htarget : OneLine p.target)
    (hmethod : ∀ word ∈ p.method.words, OneLine word)
    (h : ∀ word ∈ p.wrapper.words, OneLine word)
    (hvalue : ∀ t ∈ p.shape.value?, ∀ word ∈ t.words, OneLine word) :
    Code.Fair (b.wrapperCode p) := by
  obtain ⟨-, -, -, -, -, hconstraints⟩ := oneLine_wrapper h
  have hdebugger : Code.Fair (if b.options.hideTargets then b.debuggerAttribute else []) := by
    split
    · exact fair_debuggerAttribute hknown
    · exact Code.fair_nil
  refine Code.fair_append (Code.fair_append (Code.fair_append (fair_trimmingCode htarget hmethod)
    hdebugger) ?_) (fair_guarded hknown (plain_targetCall htarget h)
      (fair_wrapperHandler hknown h hvalue))
  exact Code.fair_line (plain_wrapperHeader h) (fair_clauses hconstraints)

/-! ## Bridges and types -/

/-- **The members of a bridge are what they look like** if no name in its plan breaks a line. -/
theorem fair_bridgeCode (hknown : b.known.OneLine) {g : Graph} {p : BridgePlan}
    (h : ∀ word ∈ p.words g, OneLine word) : Code.Fair (b.bridgeCode p) := by
  simp only [BridgePlan.words, List.forall_mem_append, List.forall_mem_cons,
    List.forall_mem_flatMap, Option.mem_toList] at h
  obtain ⟨⟨⟨⟨htarget, hmethod⟩, hwrapper⟩, hvalue⟩, -⟩ := h
  exact Code.fair_append (fair_targetCode hknown htarget hmethod)
    (fair_wrapperCode hknown htarget hmethod hwrapper hvalue)

theorem plain_typeHeader {n : DeclName} (h : ∀ word ∈ b.graph.headerWords n, OneLine word) :
    Text.Plain (b.typeHeader n) := by
  obtain ⟨hsimple, hdecl⟩ := List.forall_mem_cons.mp h
  refine Text.plain_of_keyword (by decide) (by decide) ?_
  rcases hd : b.graph.decl? n with _ | d
  · exact hsimple
  · rw [hd] at hdecl
    simp only [Option.toList_some, List.flatMap_cons, List.flatMap_nil, List.append_nil,
      List.forall_mem_cons, List.forall_mem_map] at hdecl
    have hkeyword : OneLine d.kind.keyword := by cases d.kind <;> decide
    have hvars : ∀ name ∈ d.typeParams.map fun p => p.variance.lead ++ p.var.name, OneLine name :=
      List.forall_mem_map.mpr fun p hp => oneLine_append.mpr
        ⟨by cases p.variance <;> decide, hdecl.2 p hp⟩
    simp only [Option.map_some, Option.getD_some, TypeDecl.header, oneLine_append]
    exact ⟨⟨⟨hkeyword, by decide⟩, hdecl.1⟩, oneLine_angledNames hvars⟩

mutual

theorem fair_typeCode : (n : TypeNode) →
    (∀ m ∈ n.nodes, Text.Plain (b.typeHeader m.type) ∧ ∀ p ∈ m.plans, Code.Fair (b.bridgeCode p)) →
    Code.Fair (b.typeCode n)
  | .node type plans nested, h => by
    obtain ⟨⟨hheader, hplans⟩, hnested⟩ := List.forall_mem_cons.mp h
    refine Code.fair_line hheader (Code.fair_block (Code.fair_spaced ?_) Code.fair_nil)
    exact List.forall_mem_append.mpr
      ⟨List.forall_mem_map.mpr hplans, fair_typesCode nested hnested⟩

theorem fair_typesCode : (trees : List TypeNode) →
    (∀ m ∈ TypeNode.nodesList trees,
      Text.Plain (b.typeHeader m.type) ∧ ∀ p ∈ m.plans, Code.Fair (b.bridgeCode p)) →
    ∀ code ∈ b.typesCode trees, Code.Fair code
  | [], _ => nofun
  | n :: ns, h => by
    obtain ⟨hn, hns⟩ := List.forall_mem_append.mp h
    exact List.forall_mem_cons.mpr ⟨fair_typeCode n hn, fair_typesCode ns hns⟩

end

theorem fair_preamble : Code.Fair b.preamble := by
  rw [preamble]
  split
  · exact Code.fair_line (by decide) (Code.fair_line (by decide)
      (List.forall_mem_singleton.mpr trivial))
  · exact Code.fair_line (by decide) (List.forall_mem_singleton.mpr trivial)

/-- **A file is what it looks like** if no name in it breaks a line. -/
theorem fair_fileCode (hknown : b.known.OneLine) {space : Option String}
    (hspace : ∀ name ∈ space, OneLine name) {plans : List BridgePlan}
    (hplans : ∀ p ∈ plans, ∀ word ∈ p.words b.graph, OneLine word) :
    Code.Fair (b.fileCode space plans) := by
  have hplaces := (TypeNode.fitBelow_forest plans).places
  have htypes : Code.Fair (Code.spaced (b.typesCode (TypeNode.forest plans))) := by
    refine Code.fair_spaced (fair_typesCode _ fun m hm => ⟨plain_typeHeader ?_, fun p hp => ?_⟩)
    · obtain ⟨p, hp, hchain⟩ := (hplaces.mem_types m.type).mp (List.mem_map_of_mem hm)
      exact fun word hword => hplans p hp word
        (List.mem_append_right _ (List.mem_flatMap.mpr ⟨m.type, hchain, hword⟩))
    · rw [hplaces.plans_eq m hm] at hp
      exact fair_bridgeCode hknown (hplans p (mem_declaredIn.mp hp).1)
  refine Code.fair_append fair_preamble ?_
  rcases space with _ | name
  · exact htypes
  · have hname : Text.Plain ("namespace " ++ name) :=
      Text.plain_of_keyword (by decide) (by decide) (hspace name rfl)
    exact Code.fair_line hname (Code.fair_block htypes Code.fair_nil)

/-- **Emission is well bracketed.**  With names on one line in the plans and in the namespace, the
text of a file has matching braces, and its lines are indented by the braces in front of them; only
constraint clauses stand one level deeper.  All writing begins at the start of a line, and there a
bridge and a repeated type leave the writer on its level, at the start of a line. -/
theorem emit_wellBracketed (hknown : WellKnown.resolve b.graph = .ok b.known)
    {space : Option String} (hspace : ∀ name ∈ space, OneLine name) {plans : List BridgePlan}
    (hplans : ∀ p ∈ plans, ∀ word ∈ p.words b.graph, OneLine word) :
    (b.emit space plans).text = Code.render b.options.indent (b.fileCode space plans) ∧
      Code.WellBracketed b.options.indent (b.fileCode space plans) ∧
      (∀ content, .clause content ∈ Code.linesList (b.fileCode space plans) →
        ∃ rest, content = "where " ++ rest) ∧
      (∀ before after, Code.opsList (b.fileCode space plans) = before ++ after →
        ((SourceWriter.new b.options.indent).run before).atLineStart = true) ∧
      ∀ w : SourceWriter, w.atLineStart = true →
        (∀ p, w.Keeps (Code.opsList (b.bridgeCode p))) ∧
        ∀ n, w.Keeps (Code.opsList (b.typeCode n)) := by
  have hfair := fair_fileCode (WellKnown.oneLine_of_resolve hknown) hspace hplans
  refine ⟨rfl, Code.wellBracketed_of_fair b.options.indent hfair, fun content hmem =>
    (hfair _ hmem).2, fun before after hops => ?_, fun w hw =>
      ⟨fun p => SourceWriter.keeps_opsList hw _, fun n => SourceWriter.keeps_opsList hw _⟩⟩
  refine SourceWriter.atLineStart_run (w := SourceWriter.new b.options.indent) rfl fun op hop => ?_
  exact Code.isWhole_of_mem_opsList (b.fileCode space plans) op (hops ▸ List.mem_append_left _ hop)

end BridgeEmitter

/-- The file of the one plan of a program, whose members have constraint clauses. -/
theorem emit_wellBracketed_box : ∃ (b : BridgeEmitter) (plans : List BridgePlan),
    load (Given.docs "IBox<S[]>") = .ok b.graph ∧ WellKnown.resolve b.graph = .ok b.known ∧
      plans.length = 1 ∧ Code.WellBracketed 2 (b.fileCode (some "Shop") plans) := by
  have hcheck : loadsWith (Given.docs "IBox<S[]>") (fun g known =>
      let plans := (Planner.planGroup ⟨g, known, {}⟩ g.methods).plans
      plans.length == 1 && plans.all fun p => (p.words g).all fun word => OneLine word) = true := by
    decide +kernel
  obtain ⟨g, known, hload, hknown, h⟩ := exists_of_loadsWith hcheck
  obtain ⟨hlength, hwords⟩ := (Bool.and_eq_true ..).mp h
  simp only [List.all_eq_true, decide_eq_true_eq] at hwords
  have hspace : ∀ name ∈ some "Shop", OneLine name := by decide
  obtain ⟨-, hbracketed, -⟩ := BridgeEmitter.emit_wellBracketed
    (b := ⟨g, known, { indent := 2 }⟩) hknown hspace hwords
  exact ⟨⟨g, known, { indent := 2 }⟩, _, hload, hknown, eq_of_beq hlength, hbracketed⟩

end LateBridge
