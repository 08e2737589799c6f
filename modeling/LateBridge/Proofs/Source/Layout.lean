import LateBridge.Source.Code
import Mathlib.Combinatorics.Enumerative.DyckWord

/-!
# Proofs/Source/Layout — the lines of generated code

    code ──ops──▸ operations ──run──▸ text
      ╰──lines──▸ lines ──laidOut──▸ indented lines, each with its end

Code is a tree, and a writer is asked for its lines one after the other.  The indent of a line is
that of the writer at the time, and it can be told from the lines in front alone: it is the number
of blocks that are open there (`run_opsList`).  A text that is written in this way has exactly these
lines, if no line has an end of its own inside, and its braces match (`wellBracketed_of_fair`).
-/

namespace LateBridge

/-! ## Lines -/

/-- **A line of generated source.** -/
inductive SourceLine where
  | text (content : String)
  /-- A line that continues a header. -/
  | clause (content : String)
  | opening
  | closing
  | empty
  deriving DecidableEq, Repr

namespace SourceLine

/-- What stands on a line behind its indent. -/
def content : SourceLine → String
  | text content | clause content => content
  | opening => "\x7b"
  | closing => "\x7d"
  | empty => ""

/-- How many blocks are open behind a line. -/
def depthAfter (depth : Nat) : SourceLine → Nat
  | opening => depth + 1
  | closing => depth - 1
  | text _ | clause _ | empty => depth

/-- **How many blocks are open** behind some lines: the opening braces that no closing brace has
matched. -/
def openBlocks (lines : List SourceLine) : Nat := lines.foldl depthAfter 0

/-- **The level of a line** among open blocks: a clause stands one level deeper, and a closing brace
does not count the block it closes. -/
def level (depth : Nat) : SourceLine → Nat
  | clause _ => depth + 1
  | closing => depth - 1
  | text _ | opening | empty => depth

/-- A line with its indent; a line without content has none. -/
def indented (unit : String) (depth : Nat) (line : SourceLine) : String :=
  if line.content.isEmpty then ""
  else String.join (List.replicate (line.level depth) unit) ++ line.content

/-- **Lines with their indents**, from a number of open blocks on. -/
def laidOut (unit : String) : Nat → List SourceLine → List String
  | _, [] => []
  | depth, line :: lines => line.indented unit depth :: laidOut unit (line.depthAfter depth) lines

@[simp] theorem laidOut_append (unit : String) (depth : Nat) (as bs : List SourceLine) :
    laidOut unit depth (as ++ bs) =
      laidOut unit depth as ++ laidOut unit (as.foldl depthAfter depth) bs := by
  induction as generalizing depth with
  | nil => rfl
  | cons a as ih => simp only [List.cons_append, laidOut, ih, List.foldl_cons]

@[simp] theorem length_laidOut (unit : String) (depth : Nat) (lines : List SourceLine) :
    (laidOut unit depth lines).length = lines.length := by
  induction lines generalizing depth with
  | nil => rfl
  | cons line lines ih => simp only [laidOut, List.length_cons, ih]

/-- Each line is indented by what stands in front of it. -/
theorem getElem?_laidOut (unit : String) (before after : List SourceLine) (line : SourceLine) :
    (laidOut unit 0 (before ++ line :: after))[before.length]? =
      some (line.indented unit (openBlocks before)) := by
  rw [laidOut_append, List.getElem?_append_right (Nat.le_of_eq (length_laidOut ..)),
    length_laidOut, Nat.sub_self]
  rfl

/-- Lines with their ends. -/
def written (texts : List String) : String := String.join (texts.map (· ++ "\n"))

theorem written_append (as bs : List String) : written (as ++ bs) = written as ++ written bs := by
  simp [written]

end SourceLine

open SourceLine (laidOut depthAfter openBlocks written written_append)

/-! ## The lines of code -/

namespace Code

mutual

/-- **The lines of a piece of code.** -/
def lines : Code → List SourceLine
  | .line text => [.text text]
  | .blank => [.empty]
  | .clause text => [.clause text]
  | .block body => .opening :: (linesList body ++ [.closing])

/-- The lines of several pieces. -/
def linesList : List Code → List SourceLine
  | [] => []
  | code :: rest => code.lines ++ linesList rest

end

theorem linesList_append (as bs : List Code) :
    linesList (as ++ bs) = linesList as ++ linesList bs := by
  induction as with
  | nil => rfl
  | cons a as ih => simp only [List.cons_append, linesList, ih, List.append_assoc]

mutual

/-- Every block that code opens is closed again. -/
theorem foldl_depthAfter_lines (depth : Nat) :
    (code : Code) → code.lines.foldl depthAfter depth = depth
  | .line _ | .blank | .clause _ => rfl
  | .block body => by
    rw [lines, List.foldl_cons, List.foldl_append, foldl_depthAfter_linesList _ body]
    rfl

theorem foldl_depthAfter_linesList (depth : Nat) :
    (body : List Code) → (linesList body).foldl depthAfter depth = depth
  | [] => rfl
  | code :: rest => by
    rw [linesList, List.foldl_append, foldl_depthAfter_lines _ code,
      foldl_depthAfter_linesList _ rest]

end

end Code

/-! ## A writer at work -/

namespace SourceWriter

/-- A writer after some more lines. -/
def adding (w : SourceWriter) (texts : List String) : SourceWriter :=
  { w with output := w.output ++ written texts }

theorem adding_append (w : SourceWriter) (as bs : List String) :
    w.adding (as ++ bs) = (w.adding as).adding bs := by
  simp only [adding, written_append, String.append_assoc]

theorem adding_cons (w : SourceWriter) (a : String) (bs : List String) :
    w.adding (a :: bs) = (w.adding [a]).adding bs := adding_append w [a] bs

/-- A whole line, written by a writer at the start of one. -/
theorem line_eq {w : SourceWriter} (h : w.atLineStart = true) (text : String) :
    w.line text = w.adding [if text.isEmpty then "" else w.lead ++ text] := by
  obtain ⟨output, unit, level, start⟩ := w
  obtain rfl : start = true := h
  by_cases htext : text.isEmpty = true
  · simp [line, write, newline, htext, adding, written]
  · simp [line, write, newline, indentLine, lead, htext, adding, written, String.append_assoc]

theorem step_openBlock {w : SourceWriter} (h : w.atLineStart = true) :
    w.step .openBlock = (w.adding [w.lead ++ "\x7b"]).indent := by
  rw [step, line_eq h]
  rfl

theorem step_closeBlock {w : SourceWriter} (h : w.atLineStart = true) :
    w.step .closeBlock = w.dedent.adding [w.dedent.lead ++ "\x7d"] := by
  rw [step, line_eq (w := w.dedent) h]
  rfl

mutual

/-- **Writing a piece of code** adds its lines, and leaves the writer where it was. -/
theorem run_ops {w : SourceWriter} (h : w.atLineStart = true) :
    (code : Code) → w.run code.ops = w.adding (laidOut w.unit w.level code.lines)
  | .line text => line_eq h text
  | .blank => by
    rw [Code.ops, run_cons, run_nil, step, if_pos h]
    exact line_eq h ""
  | .clause text => by
    rw [Code.ops, run_cons, run_cons, run_cons, run_nil, step, step, step,
      line_eq (w := w.indent) h]
    rfl
  | .block body => by
    let opened := (w.adding [w.lead ++ "\x7b"]).indent
    let filled := opened.adding (laidOut opened.unit opened.level (Code.linesList body))
    have hbody : opened.run (Code.opsList body) = filled := run_opsList (w := opened) h body
    have hclosed : filled.step .closeBlock = filled.dedent.adding [filled.dedent.lead ++ "\x7d"] :=
      step_closeBlock (w := filled) h
    rw [Code.ops, run_cons, step_openBlock h, run_append, hbody, run_cons, run_nil, hclosed,
      Code.lines, laidOut, SourceLine.laidOut_append, Code.foldl_depthAfter_linesList,
      adding_cons w _ (_ ++ _), adding_append]
    rfl

/-- **Writing several pieces** adds their lines. -/
theorem run_opsList {w : SourceWriter} (h : w.atLineStart = true) : (body : List Code) →
    w.run (Code.opsList body) = w.adding (laidOut w.unit w.level (Code.linesList body))
  | [] => by
    rw [Code.opsList, run_nil, Code.linesList, laidOut, adding, written, List.map_nil]
    simp
  | code :: rest => by
    rw [Code.opsList, run_append, run_ops h code,
      run_opsList (w := w.adding (laidOut w.unit w.level code.lines)) h rest, Code.linesList,
      SourceLine.laidOut_append, Code.foldl_depthAfter_lines, adding_append]
    rfl

end

end SourceWriter

/-! ## Levels and line starts on the way -/

/-- **Operations that leave a writer where it was**: on its level, at or behind a line start. -/
def SourceWriter.Keeps (w : SourceWriter) (ops : List WriterOp) : Prop :=
  (w.run ops).level = w.level ∧ (w.run ops).atLineStart = w.atLineStart

theorem SourceWriter.keeps_opsList {w : SourceWriter} (h : w.atLineStart = true)
    (body : List Code) : w.Keeps (Code.opsList body) := by
  rw [Keeps, run_opsList h]
  exact ⟨rfl, rfl⟩

namespace WriterOp

/-- Whether an operation takes the level down. -/
def lowers : WriterOp → Bool
  | .dedent | .closeBlock => true
  | _ => false

/-- Whether an operation writes whole lines only. -/
def isWhole : WriterOp → Bool
  | .write _ | .char _ | .joined .. => false
  | _ => true

end WriterOp

namespace SourceWriter

/-- **A run that takes the level down only above a base.** -/
def StaysAbove (base : Nat) : SourceWriter → List WriterOp → Prop
  | _, [] => True
  | w, op :: ops => (op.lowers = true → base < w.level) ∧ StaysAbove base (w.step op) ops

theorem staysAbove_append {base : Nat} {w : SourceWriter} {as bs : List WriterOp} :
    StaysAbove base w (as ++ bs) ↔ StaysAbove base w as ∧ StaysAbove base (w.run as) bs := by
  induction as generalizing w with
  | nil => simp [StaysAbove]
  | cons op as ih => simp only [List.cons_append, StaysAbove, ih, run_cons, and_assoc]

mutual

theorem staysAbove_ops {base : Nat} {w : SourceWriter} (h : w.atLineStart = true)
    (hbase : base ≤ w.level) : (code : Code) → StaysAbove base w code.ops
  | .line _ | .blank => ⟨nofun, trivial⟩
  | .clause text => by
    have hline : (w.indent.line text).level = w.level + 1 := by
      rw [line_eq (w := w.indent) h]
      rfl
    refine ⟨nofun, nofun, fun _ => ?_, trivial⟩
    exact Nat.lt_of_lt_of_eq (Nat.lt_succ_of_le hbase) hline.symm
  | .block body => by
    let opened := (w.adding [w.lead ++ "\x7b"]).indent
    have hopened : base ≤ opened.level := Nat.le_succ_of_le hbase
    refine ⟨nofun, ?_⟩
    rw [step_openBlock h]
    refine staysAbove_append.mpr ⟨staysAbove_opsList (w := opened) h hopened body, fun _ => ?_,
      trivial⟩
    rw [run_opsList (w := opened) h body]
    exact Nat.lt_succ_of_le hbase

theorem staysAbove_opsList {base : Nat} {w : SourceWriter} (h : w.atLineStart = true)
    (hbase : base ≤ w.level) : (body : List Code) → StaysAbove base w (Code.opsList body)
  | [] => trivial
  | code :: rest => by
    rw [Code.opsList, staysAbove_append, run_ops h code]
    exact ⟨staysAbove_ops h hbase code,
      staysAbove_opsList (w := w.adding (laidOut w.unit w.level code.lines)) h hbase rest⟩

end

/-- Before an operation that takes the level down, the level is above the one of the start. -/
theorem level_lt_of_lowers {w : SourceWriter} (h : w.atLineStart = true) {body : List Code}
    {before after : List WriterOp} {op : WriterOp}
    (hops : Code.opsList body = before ++ op :: after) (hlowers : op.lowers = true) :
    w.level < (w.run before).level := by
  have habove := staysAbove_opsList h (Nat.le_refl w.level) body
  rw [hops, staysAbove_append] at habove
  exact habove.2.1 hlowers

theorem atLineStart_step {w : SourceWriter} (h : w.atLineStart = true) {op : WriterOp}
    (hop : op.isWhole = true) : (w.step op).atLineStart = true :=
  match op, hop with
  | .newline, _ | .line _, _ | .openBlock, _ | .closeBlock, _ => rfl
  | .indent, _ | .dedent, _ => h
  | .blank, _ => by
    rw [step, if_pos h]
    rfl

theorem atLineStart_run {w : SourceWriter} (h : w.atLineStart = true) {ops : List WriterOp}
    (hops : ∀ op ∈ ops, op.isWhole = true) : (w.run ops).atLineStart = true := by
  induction ops generalizing w with
  | nil => exact h
  | cons op ops ih =>
    obtain ⟨hop, hops⟩ := List.forall_mem_cons.mp hops
    exact ih (atLineStart_step h hop) hops

end SourceWriter

namespace Code

mutual

/-- Code asks for whole lines only. -/
theorem isWhole_of_mem_ops : (code : Code) → ∀ op ∈ code.ops, op.isWhole = true
  | .line _ | .blank | .clause _ => by simp [ops, WriterOp.isWhole]
  | .block body => by
    simp only [ops, List.mem_cons, List.mem_append, List.not_mem_nil, or_false]
    rintro op (rfl | hop | rfl)
    · rfl
    · exact isWhole_of_mem_opsList body op hop
    · rfl

theorem isWhole_of_mem_opsList : (body : List Code) → ∀ op ∈ opsList body, op.isWhole = true
  | [] => fun _ h => nomatch h
  | code :: rest => by
    simp only [opsList, List.mem_append]
    rintro op (hop | hop)
    · exact isWhole_of_mem_ops code op hop
    · exact isWhole_of_mem_opsList rest op hop

end

end Code

/-! ## The lines of a text -/

namespace Text

/-- **The lines of a text**; a text that ends with a line end has an empty line last. -/
def lines (text : String) : List String := (text.toList.splitOn '\n').map String.ofList

theorem toList_written (texts : List String) :
    (written texts).toList = ['\n'].intercalate ((texts ++ [""]).map String.toList) := by
  induction texts with
  | nil => rfl
  | cons text texts ih =>
    obtain ⟨next, rest, hnext⟩ := List.exists_cons_of_ne_nil
      (List.append_ne_nil_of_right_ne_nil texts (List.cons_ne_nil "" []))
    have hfirst : (written (text :: texts)).toList = text.toList ++ '\n' :: (written texts).toList := by
      simp [written]
    rw [hfirst, ih, List.cons_append, hnext, List.map_cons, List.map_cons, List.map_cons,
      List.intercalate_cons_cons]
    simp

/-- Texts without line ends are the lines of what is written. -/
theorem lines_written {texts : List String} (h : ∀ text ∈ texts, '\n' ∉ text.toList) :
    lines (written texts) = texts ++ [""] := by
  have hpieces : ∀ piece ∈ (texts ++ [""]).map String.toList, '\n' ∉ piece := by
    intro piece hpiece
    obtain ⟨text, htext, rfl⟩ := List.mem_map.mp hpiece
    rcases List.mem_append.mp htext with htext | htext
    · exact h text htext
    · obtain rfl := List.mem_singleton.mp htext
      exact List.not_mem_nil
  rw [lines, toList_written, List.splitOn_intercalate _ hpieces (by simp), List.map_map]
  simp [Function.comp_def]

/-! ## Braces -/

/-- Whether a character may stand in an indent. -/
def isIndent (c : Char) : Bool := c == ' ' || c == '\t'

/-- **The brace that a line consists of** behind its indent, if it is one. -/
def brace? (line : String) : Option DyckStep :=
  match line.toList.dropWhile isIndent with
  | ['\x7b'] => some .U
  | ['\x7d'] => some .D
  | _ => none

/-- How many opening braces are unmatched behind one more brace. -/
def matchBrace (depth : Nat) : DyckStep → Nat
  | .U => depth + 1
  | .D => depth - 1

/-- **How many braces are unmatched** behind some lines. -/
def openBraces (lines : List String) : Nat := (lines.filterMap brace?).foldl matchBrace 0

/-- An indent changes nothing about what a line consists of. -/
theorem brace?_indent {unit : String} (hunit : ∀ c ∈ unit.toList, isIndent c = true) (level : Nat)
    (content : String) :
    brace? (String.join (List.replicate level unit) ++ content) = brace? content := by
  have hindent : ∀ c ∈ (List.replicate level unit).flatMap String.toList, isIndent c = true := by
    intro c hc
    obtain ⟨text, htext, hc⟩ := List.mem_flatMap.mp hc
    rw [List.eq_of_mem_replicate htext] at hc
    exact hunit c hc
  rw [brace?, String.toList_append, String.toList_join, List.dropWhile_append_of_pos hindent,
    brace?]

/-- A line that ends otherwise is no brace. -/
theorem brace?_eq_none_of_getLast? {line : String}
    (h : ∀ c ∈ line.toList.getLast?, c ≠ '\x7b' ∧ c ≠ '\x7d') : brace? line = none := by
  have hlast : ∀ c, line.toList.dropWhile isIndent = [c] → line.toList.getLast? = some c := by
    intro c hc
    rw [← List.takeWhile_append_dropWhile (p := isIndent) (l := line.toList), hc,
      List.getLast?_concat]
  rw [brace?]
  split
  · rename_i hopen
    exact absurd rfl (h _ (hlast _ hopen)).1
  · rename_i hclose
    exact absurd rfl (h _ (hlast _ hclose)).2
  · rfl

/-- A line of at least two characters that is not indented is no brace. -/
theorem brace?_eq_none_of_cons {line : String} {c d : Char} {cs : List Char}
    (h : line.toList = c :: d :: cs) (hc : isIndent c = false) : brace? line = none := by
  rw [brace?, h, List.dropWhile_cons_of_neg (by simp [hc])]
  split
  · rename_i hopen
    exact absurd (List.cons.inj hopen).2 (List.cons_ne_nil d cs)
  · rename_i hclose
    exact absurd (List.cons.inj hclose).2 (List.cons_ne_nil d cs)
  · rfl

end Text

namespace SourceLine

/-- The brace of a line, if it is one. -/
def brace? : SourceLine → Option DyckStep
  | opening => some .U
  | closing => some .D
  | text _ | clause _ | empty => none

/-- **A line that is what it looks like**: its text has no line end and is no brace, and a clause
starts with its keyword. -/
def Fair : SourceLine → Prop
  | text content => '\n' ∉ content.toList ∧ Text.brace? content = none
  | clause content => ('\n' ∉ content.toList ∧ Text.brace? content = none) ∧
    ∃ rest, content = "where " ++ rest
  | opening | closing | empty => True

theorem Fair.brace?_content {line : SourceLine} (h : line.Fair) :
    Text.brace? line.content = line.brace? := by
  rcases line with content | content | _ | _ | _
  · exact h.2
  · exact h.1.2
  · decide
  · decide
  · decide

theorem Fair.not_mem_content {line : SourceLine} (h : line.Fair) :
    '\n' ∉ line.content.toList := by
  rcases line with content | content | _ | _ | _
  · exact h.1
  · exact h.1.1
  · decide
  · decide
  · decide

section Fair

variable {unit : String} (hunit : ∀ c ∈ unit.toList, Text.isIndent c = true)

include hunit

theorem brace?_indented {line : SourceLine} (h : line.Fair) (depth : Nat) :
    Text.brace? (line.indented unit depth) = line.brace? := by
  rw [indented]
  split
  · rename_i hempty
    rw [← h.brace?_content, String.isEmpty_iff.mp hempty]
  · rw [Text.brace?_indent hunit, h.brace?_content]

theorem not_mem_indented {line : SourceLine} (h : line.Fair) (depth : Nat) :
    '\n' ∉ (line.indented unit depth).toList := by
  rw [indented]
  split
  · exact List.not_mem_nil
  · rw [String.toList_append, String.toList_join, List.mem_append, List.mem_flatMap]
    rintro (⟨text, htext, hmem⟩ | hmem)
    · rw [List.eq_of_mem_replicate htext] at hmem
      exact absurd (hunit _ hmem) (by decide)
    · exact h.not_mem_content hmem

theorem filterMap_brace?_laidOut {lines : List SourceLine} (h : ∀ line ∈ lines, line.Fair)
    (depth : Nat) : (laidOut unit depth lines).filterMap Text.brace? = lines.filterMap brace? := by
  induction lines generalizing depth with
  | nil => rfl
  | cons line lines ih =>
    obtain ⟨hline, hlines⟩ := List.forall_mem_cons.mp h
    rw [laidOut, List.filterMap_cons, List.filterMap_cons, brace?_indented hunit hline,
      ih hlines]

theorem not_mem_laidOut {lines : List SourceLine} (h : ∀ line ∈ lines, line.Fair)
    {depth : Nat} : ∀ text ∈ laidOut unit depth lines, '\n' ∉ text.toList := by
  induction lines generalizing depth with
  | nil => exact fun _ hmem => nomatch hmem
  | cons line lines ih =>
    obtain ⟨hline, hlines⟩ := List.forall_mem_cons.mp h
    rw [laidOut, List.forall_mem_cons]
    exact ⟨not_mem_indented hunit hline depth, ih hlines⟩

end Fair

/-- The open blocks are the unmatched braces. -/
theorem foldl_matchBrace (depth : Nat) (lines : List SourceLine) :
    (lines.filterMap brace?).foldl Text.matchBrace depth = lines.foldl depthAfter depth := by
  induction lines generalizing depth with
  | nil => rfl
  | cons line lines ih =>
    rw [List.foldl_cons, ← ih]
    cases line <;> rfl

end SourceLine

namespace Code

mutual

/-- **The braces of code** as a word of matching brackets. -/
def braces : Code → DyckWord
  | .line _ | .blank | .clause _ => 0
  | .block body => (bracesList body).nest

/-- The braces of several pieces. -/
def bracesList : List Code → DyckWord
  | [] => 0
  | code :: rest => code.braces + bracesList rest

end

mutual

theorem toList_braces : (code : Code) →
    code.braces.toList = code.lines.filterMap SourceLine.brace?
  | .line _ | .blank | .clause _ => rfl
  | .block body => by
    have hopen : SourceLine.brace? .opening = some .U := rfl
    rw [lines, List.filterMap_cons_some hopen, List.filterMap_append, ← toList_bracesList body]
    rfl

theorem toList_bracesList : (body : List Code) →
    (bracesList body).toList = (linesList body).filterMap SourceLine.brace?
  | [] => rfl
  | code :: rest => by
    rw [linesList, List.filterMap_append, ← toList_braces code, ← toList_bracesList rest]
    rfl

end

/-! ## Files -/

/-- The indent of one level in a file. -/
def unitOf (spaces : Nat) : String := (SourceWriter.new spaces).unit

theorem isIndent_of_mem_unitOf (spaces : Nat) : ∀ c ∈ (unitOf spaces).toList,
    Text.isIndent c = true := by
  rw [unitOf, SourceWriter.new]
  split
  · have htab : "\t".toList = ['\t'] := rfl
    rw [htab]
    exact List.forall_mem_singleton.mpr rfl
  · rw [String.toList_ofList]
    intro c hc
    rw [List.eq_of_mem_replicate hc]
    rfl

/-- **The text of a file** is its lines with their indents. -/
theorem render_eq (spaces : Nat) (file : List Code) :
    render spaces file = written (laidOut (unitOf spaces) 0 (linesList file)) := by
  rw [render, SourceWriter.run_opsList (w := SourceWriter.new spaces) rfl, SourceWriter.adding]
  exact String.empty_append

/-- **A file with matching braces.**  The writer takes its level down only above zero, and ends on
level zero at the start of a line; and in the text, lines that are a brace match, and a line with
content is indented by the braces that are unmatched in front of it. -/
structure WellBracketed (spaces : Nat) (file : List Code) : Prop where
  above : ∀ before op after, opsList file = before ++ op :: after → op.lowers = true →
    0 < ((SourceWriter.new spaces).run before).level
  level : ((SourceWriter.new spaces).run (opsList file)).level = 0
  atLineStart : ((SourceWriter.new spaces).run (opsList file)).atLineStart = true
  matched : ∃ word : DyckWord,
    word.toList = (Text.lines (render spaces file)).filterMap Text.brace?
  /-- The lines of the text are the lines of the code, and the empty rest behind the last end. -/
  length : (Text.lines (render spaces file)).length = (linesList file).length + 1
  last : (Text.lines (render spaces file)).getLast? = some ""
  brace : ∀ before line after, linesList file = before ++ line :: after →
    (Text.lines (render spaces file))[before.length]?.bind Text.brace? = line.brace?
  empty : ∀ before line after, linesList file = before ++ line :: after → line.content = "" →
    (Text.lines (render spaces file))[before.length]? = some ""
  indented : ∀ before line after, linesList file = before ++ line :: after → line.content ≠ "" →
    (Text.lines (render spaces file))[before.length]? =
      some (String.join (List.replicate
        (line.level (Text.openBraces ((Text.lines (render spaces file)).take before.length)))
        (unitOf spaces)) ++ line.content)

/-- **Code is well bracketed** if its lines are what they look like. -/
theorem wellBracketed_of_fair (spaces : Nat) {file : List Code}
    (h : ∀ line ∈ linesList file, line.Fair) : WellBracketed spaces file := by
  have hunit := isIndent_of_mem_unitOf spaces
  have hrun : (SourceWriter.new spaces).run (opsList file) =
      (SourceWriter.new spaces).adding (laidOut (unitOf spaces) 0 (linesList file)) :=
    SourceWriter.run_opsList (w := SourceWriter.new spaces) rfl file
  have hlines : Text.lines (render spaces file) =
      laidOut (unitOf spaces) 0 (linesList file) ++ [""] := by
    rw [render_eq, Text.lines_written (SourceLine.not_mem_laidOut hunit h)]
  have hat : ∀ before line after, linesList file = before ++ line :: after →
      (Text.lines (render spaces file))[before.length]? =
        some (line.indented (unitOf spaces) (openBlocks before)) := by
    intro before line after hsplit
    rw [hlines, hsplit, List.getElem?_append_left (by simp), SourceLine.getElem?_laidOut]
  have hdepth : ∀ before line after, linesList file = before ++ line :: after →
      Text.openBraces ((Text.lines (render spaces file)).take before.length) =
        openBlocks before := by
    intro before line after hsplit
    have hfair : ∀ line ∈ before, line.Fair := fun line hline =>
      h line (hsplit ▸ List.mem_append_left _ hline)
    rw [hlines, hsplit, SourceLine.laidOut_append, List.append_assoc,
      List.take_left' (SourceLine.length_laidOut ..), Text.openBraces,
      SourceLine.filterMap_brace?_laidOut hunit hfair, SourceLine.foldl_matchBrace, openBlocks]
  refine ⟨fun before op after hops => SourceWriter.level_lt_of_lowers
      (w := SourceWriter.new spaces) rfl hops, by rw [hrun]; rfl, by rw [hrun]; rfl,
    ⟨bracesList file, ?_⟩, by rw [hlines]; simp, by rw [hlines, List.getLast?_concat],
    fun before line after hsplit => ?_, fun before line after hsplit hempty => ?_,
    fun before line after hsplit hcontent => ?_⟩
  · rw [hlines, List.filterMap_append, SourceLine.filterMap_brace?_laidOut hunit h,
      toList_bracesList, List.filterMap_cons_none (by decide), List.filterMap_nil, List.append_nil]
  · have hfair : line.Fair := h line (hsplit ▸ List.mem_append_right _ List.mem_cons_self)
    rw [hat before line after hsplit, Option.bind_some, SourceLine.brace?_indented hunit hfair]
  · rw [hat before line after hsplit, SourceLine.indented, hempty]
    rfl
  · rw [hat before line after hsplit, hdepth before line after hsplit, SourceLine.indented,
      if_neg (mt String.isEmpty_iff.mp hcontent)]

end Code

end LateBridge
