import LateBridge.Proofs.Source.Layout
import LateBridge.Proofs.Source.OneLine
import Mathlib.Data.List.DropRight

/-!
# Proofs/Source/LogicalLines — the lines that a writer writes

    operations ──▸ events ──cut at the line ends──▸ logical lines
         ╰─────────run─────────▸ text ──lines────────────╯

Whatever a writer is asked for, four things happen to its text: a piece is put on the line, the line
ends, the level goes up, the level goes down.  Between two line ends lies a logical line.  Without
text it is empty; else it has the indent of the level at its first text, wherever the level goes
behind that, and then its texts in order.  A writer knows neither what comes nor what came before; at
any time it has written exactly the logical lines so far (`SourceWriter.writes_logicalLines`).
-/

namespace LateBridge

/-! ## Separators -/

theorem mem_intersperse_of_mem {α : Type} {a b : α} {as : List α} (h : a ∈ as) :
    a ∈ as.intersperse b := by
  induction as with
  | nil => cases h
  | cons c as ih =>
    cases as with
    | nil => exact h
    | cons d as =>
      rw [List.intersperse_cons_cons]
      obtain rfl | h := List.mem_cons.mp h
      · exact List.mem_cons_self
      · exact List.mem_cons_of_mem c (List.mem_cons_of_mem b (ih h))

theorem mem_cons_of_mem_intersperse {α : Type} {a b : α} {as : List α}
    (h : a ∈ as.intersperse b) : a ∈ b :: as := by
  induction as with
  | nil => cases h
  | cons c as ih =>
    cases as with
    | nil => exact List.mem_cons_of_mem b h
    | cons d as =>
      rw [List.intersperse_cons_cons, List.mem_cons, List.mem_cons] at h
      obtain rfl | rfl | h := h
      · exact List.mem_cons_of_mem b List.mem_cons_self
      · exact List.mem_cons_self
      · obtain rfl | h := List.mem_cons.mp (ih h)
        · exact List.mem_cons_self
        · exact List.mem_cons_of_mem b (List.mem_cons_of_mem c h)

/-! ## Events -/

/-- **What happens to a text** that is written. -/
inductive WriterEvent where
  /-- A piece of text, which may be empty. -/
  | put (text : String)
  | lineEnd
  | up
  | down
  deriving DecidableEq, Repr

namespace WriterEvent

/-- What an event puts on the line. -/
def content : WriterEvent → String
  | put text => text
  | lineEnd | up | down => ""

/-- Whether an event puts anything on the line. -/
def isText (event : WriterEvent) : Bool := !event.content.isEmpty

/-- The level behind an event. -/
def levelStep (level : Nat) : WriterEvent → Nat
  | up => level + 1
  | down => level - 1
  | put _ | lineEnd => level

/-- **The level behind some events**: the running sum of ups and downs, which stops at zero. -/
def levelAfter (events : List WriterEvent) : Nat := events.foldl levelStep 0

/-- **Whether the last line is unfinished**: there is text behind the last line end. -/
def unfinished (events : List WriterEvent) : Bool :=
  (events.rtakeWhile (· != lineEnd)).any isText

theorem unfinished_concat_lineEnd (events : List WriterEvent) :
    unfinished (events ++ [lineEnd]) = false := by
  rw [unfinished, List.rtakeWhile_concat_neg _ _ _ (by simp), List.any_nil]

theorem unfinished_concat {event : WriterEvent} (h : event ≠ lineEnd) (events : List WriterEvent) :
    unfinished (events ++ [event]) = (unfinished events || event.isText) := by
  rw [unfinished, List.rtakeWhile_concat_pos _ _ _ (by simpa using h), List.any_append,
    List.any_cons, List.any_nil, Bool.or_false]
  rfl

/-! ## Logical lines -/

/-- The indent of some levels. -/
def indentOf (unit : String) (level : Nat) : String := String.join (List.replicate level unit)

/-- **A logical line** behind some events.  Without text it is empty; else it has the indent of the
level at its first text, and its texts in order. -/
def lineText (unit : String) (before line : List WriterEvent) : String :=
  if line.any isText then
    indentOf unit (levelAfter (before ++ line.takeWhile (!·.isText))) ++
      String.join (line.map content)
  else ""

/-- Logical lines one after the other, each with an end behind it but the last. -/
def linesFrom (unit : String) (before : List WriterEvent) : List (List WriterEvent) → List String
  | [] => []
  | line :: lines =>
    lineText unit before line :: linesFrom unit (before ++ line ++ [lineEnd]) lines

/-- **The logical lines** of some events. -/
def logicalLines (unit : String) (events : List WriterEvent) : List String :=
  linesFrom unit [] (events.splitOn lineEnd)

theorem lineText_nil (unit : String) (before : List WriterEvent) : lineText unit before [] = "" := rfl

theorem isText_eq_false {event : WriterEvent} : event.isText = false ↔ event.content = "" := by
  simp [isText]

/-- **A line takes up one more event.**  The indent is decided by the first text. -/
theorem lineText_concat (unit : String) (before line : List WriterEvent) (event : WriterEvent) :
    lineText unit before (line ++ [event]) =
      lineText unit before line ++
        (if event.isText && !line.any isText then indentOf unit (levelAfter (before ++ line))
        else "") ++ event.content := by
  have hcontent : String.join ((line ++ [event]).map content) =
      String.join (line.map content) ++ event.content := by simp
  have hany : (line ++ [event]).any isText = (line.any isText || event.isText) := by simp
  rw [lineText, lineText, hcontent, hany]
  cases hline : line.any isText with
  | true =>
    have hlead : (line ++ [event]).takeWhile (!·.isText) = line.takeWhile (!·.isText) := by
      obtain ⟨first, hfirst, htext⟩ := List.any_eq_true.mp hline
      rw [List.takeWhile_append, if_neg]
      intro hlength
      have hall := List.takeWhile_eq_self_iff.mp
        ((List.takeWhile_prefix (p := (!·.isText)) (l := line)).eq_of_length hlength)
      simpa [htext] using hall first hfirst
    simp [hlead, String.append_assoc]
  | false =>
    have hno : ∀ e ∈ line, e.isText = false := by simpa using hline
    have hempty : String.join (line.map content) = "" := by
      rw [List.map_congr_left fun e he => isText_eq_false.mp (hno e he)]
      induction line <;> simp_all
    cases hevent : event.isText with
    | true =>
      have hlead : (line ++ [event]).takeWhile (!·.isText) = line := by
        rw [List.takeWhile_append_of_pos fun e he => by simp [hno e he]]
        simp [hevent]
      simp [hlead, hempty]
    | false => simp [isText_eq_false.mp hevent]

end WriterEvent

open WriterEvent

/-! ## Operations as events -/

namespace WriterOp

/-- **What happens for an operation.**  A blank line ends a line that is unfinished before it. -/
def events (open? : Bool) : WriterOp → List WriterEvent
  | write text => [.put text]
  | char c => [.put c.toString]
  | newline => [.lineEnd]
  | line text => [.put text, .lineEnd]
  | blank => if open? then [.lineEnd, .lineEnd] else [.lineEnd]
  | joined separator items => (items.intersperse separator).map .put
  | indent => [.up]
  | dedent => [.down]
  | openBlock => [.put "\x7b", .lineEnd, .up]
  | closeBlock => [.down, .put "\x7d", .lineEnd]

/-- **What happens for several operations**, one after the other. -/
def eventsOf (ops : List WriterOp) : List WriterEvent :=
  ops.foldl (fun before op => before ++ op.events (unfinished before)) []

theorem eventsOf_concat (ops : List WriterOp) (op : WriterOp) :
    eventsOf (ops ++ [op]) = eventsOf ops ++ op.events (unfinished (eventsOf ops)) := by
  rw [eventsOf, List.foldl_concat]
  rfl

/-- The texts that an operation is given. -/
def texts : WriterOp → List String
  | write text | line text => [text]
  | char c => [c.toString]
  | joined separator items => separator :: items
  | newline | blank | indent | dedent | openBlock | closeBlock => []

/-- What is put on a line is a text that was given, a brace or nothing. -/
theorem oneLine_of_mem_events {op : WriterOp} (h : ∀ text ∈ op.texts, Text.OneLine text)
    {open? : Bool} : ∀ event ∈ op.events open?, Text.OneLine event.content := by
  have hnone : Text.OneLine "" := List.not_mem_nil
  cases op with
  | write text | line text | char c => simpa [events, content, hnone, texts] using h
  | joined separator items =>
    intro event hevent
    obtain ⟨text, htext, rfl⟩ := List.mem_map.mp hevent
    exact h text (mem_cons_of_mem_intersperse htext)
  | blank => cases open? <;> simp [events, content, hnone]
  | newline | indent | dedent => simp [events, content, hnone]
  | openBlock | closeBlock => simp only [events, List.forall_mem_cons]; decide

theorem oneLine_of_mem_eventsOf {ops : List WriterOp}
    (h : ∀ op ∈ ops, ∀ text ∈ op.texts, Text.OneLine text) :
    ∀ event ∈ eventsOf ops, Text.OneLine event.content := by
  induction ops using List.reverseRecOn with
  | nil => exact List.forall_mem_nil _
  | append_singleton ops op ih =>
    rw [eventsOf_concat]
    obtain ⟨hops, hop⟩ := List.forall_mem_append.mp h
    exact List.forall_mem_append.mpr
      ⟨ih hops, oneLine_of_mem_events (List.forall_mem_singleton.mp hop)⟩

end WriterOp

namespace SourceWriter

/-- What a writer does for an event. -/
def happen (w : SourceWriter) : WriterEvent → SourceWriter
  | .put text => w.write text
  | .lineEnd => w.newline
  | .up => w.indent
  | .down => w.dedent

theorem writeAfter_eq (separator item : String) (items : List String) (w : SourceWriter) :
    writeAfter separator (w.write item) items =
      (((item :: items).intersperse separator).map .put).foldl happen w := by
  induction items generalizing w item with
  | nil => rfl
  | cons next items ih => rw [writeAfter, ih]; rfl

/-- **An operation is what happens for it**; a line is unfinished where the writer is not at its
start. -/
theorem step_eq_happen (w : SourceWriter) (op : WriterOp) :
    w.step op = (op.events (!w.atLineStart)).foldl happen w := by
  cases op with
  | blank => cases h : w.atLineStart <;> simp [step, WriterOp.events, happen, h]
  | joined separator items =>
    cases items with
    | nil => rfl
    | cons item items => exact writeAfter_eq separator item items w
  | _ => rfl

/-- An event that is no line end leaves the line unfinished if it puts a text there. -/
theorem atLineStart_happen (w : SourceWriter) {event : WriterEvent} (h : event ≠ .lineEnd) :
    (w.happen event).atLineStart = (w.atLineStart && !event.isText) := by
  cases event with
  | put text =>
    rw [happen, write]
    split
    · rename_i hempty
      simp [isText, content, hempty]
    · rename_i hempty
      cases hstart : w.atLineStart <;> simp [indentLine, isText, content, hempty, hstart]
  | lineEnd => exact absurd rfl h
  | up | down => simp [happen, indent, dedent, isText, content]

/-- **The flag of a writer** says whether the last line is unfinished. -/
theorem atLineStart_foldl_happen (spaces : Nat) (events : List WriterEvent) :
    (events.foldl happen (new spaces)).atLineStart = !unfinished events := by
  induction events using List.reverseRecOn with
  | nil => rfl
  | append_singleton events event ih =>
    rw [List.foldl_concat]
    by_cases h : event = .lineEnd
    · subst h
      rw [unfinished_concat_lineEnd]
      rfl
    · rw [atLineStart_happen _ h, ih, unfinished_concat h, Bool.not_or]

/-- **A run is what happens for its operations.** -/
theorem run_eq_happen (spaces : Nat) (ops : List WriterOp) :
    (new spaces).run ops = (WriterOp.eventsOf ops).foldl happen (new spaces) := by
  induction ops using List.reverseRecOn with
  | nil => rfl
  | append_singleton ops op ih =>
    rw [run_append, run_cons, run_nil, ih, step_eq_happen, atLineStart_foldl_happen, Bool.not_not,
      WriterOp.eventsOf_concat, List.foldl_append]

/-! ## A writer on a line -/

/-- **A writer on a logical line** behind some events: on the level that they lead to, at the start of
the line as long as no text is on it, and with a text that ends with the line. -/
structure OnLine (w : SourceWriter) (before line : List WriterEvent) (out : String) : Prop where
  level : w.level = levelAfter (before ++ line)
  atLineStart : w.atLineStart = !line.any isText
  output : w.output = out ++ lineText w.unit before line

variable {w : SourceWriter} {before line : List WriterEvent} {out : String}

@[simp] theorem unit_happen (w : SourceWriter) (event : WriterEvent) :
    (w.happen event).unit = w.unit := by
  cases event with
  | put text => rw [happen, write, indentLine]; split <;> [rfl; (split <;> rfl)]
  | lineEnd | up | down => rfl

theorem level_happen (w : SourceWriter) (event : WriterEvent) :
    (w.happen event).level = levelStep w.level event := by
  cases event with
  | put text => rw [happen, write, indentLine]; split <;> [rfl; (split <;> rfl)]
  | lineEnd | up | down => rfl

/-- What an event adds to the text of a line. -/
theorem output_happen (w : SourceWriter) {event : WriterEvent} (h : event ≠ .lineEnd) :
    (w.happen event).output =
      w.output ++ (if event.isText && w.atLineStart then indentOf w.unit w.level else "") ++
        event.content := by
  cases event with
  | put text =>
    rw [happen, write]
    by_cases hempty : text.isEmpty = true
    · simp [isText, content, String.isEmpty_iff.mp hempty]
    · cases hstart : w.atLineStart <;>
        simp [indentLine, isText, content, hempty, hstart, lead, indentOf]
  | lineEnd => exact absurd rfl h
  | up | down => simp [happen, indent, dedent, isText, content]

/-- **An event on the line.** -/
theorem OnLine.happen (h : w.OnLine before line out) {event : WriterEvent}
    (hevent : event ≠ .lineEnd) : (w.happen event).OnLine before (line ++ [event]) out where
  level := by rw [level_happen, h.level, ← List.append_assoc, levelAfter, levelAfter,
    List.foldl_concat]
  atLineStart := by simp [atLineStart_happen w hevent, h.atLineStart]
  output := by
    rw [output_happen w hevent, h.output, h.atLineStart, h.level, unit_happen, lineText_concat]
    simp only [String.append_assoc]

/-- **The end of the line**: the next one is empty yet. -/
theorem OnLine.lineEnd (h : w.OnLine before line out) :
    (w.happen .lineEnd).OnLine (before ++ line ++ [.lineEnd]) []
      (out ++ lineText w.unit before line ++ "\n") where
  level := by rw [level_happen, h.level, List.append_nil, levelAfter, levelAfter, List.foldl_concat]
  atLineStart := rfl
  output := by
    rw [lineText_nil, String.append_empty, ← h.output]
    rfl

/-- **A writer that goes on** completes the line and writes the lines behind it, by induction on what
happens. -/
theorem OnLine.output_foldl_happen (h : w.OnLine before line out) (hline : .lineEnd ∉ line)
    (events : List WriterEvent) : (events.foldl SourceWriter.happen w).output =
      out ++ "\n".intercalate (linesFrom w.unit before ((line ++ events).splitOn .lineEnd)) := by
  induction events generalizing w before line out with
  | nil =>
    rw [List.append_nil, List.splitOn_eq_singleton hline, linesFrom, linesFrom,
      String.intercalate_singleton]
    exact h.output
  | cons event events ih =>
    rw [List.foldl_cons]
    by_cases hevent : event = .lineEnd
    · subst hevent
      have hrest : linesFrom w.unit (before ++ line ++ [.lineEnd]) (events.splitOn .lineEnd) ≠ [] := by
        obtain ⟨next, more, hsplit⟩ := List.exists_cons_of_ne_nil (List.splitOn_ne_nil .lineEnd events)
        rw [hsplit]
        exact List.cons_ne_nil _ _
      rw [ih h.lineEnd List.not_mem_nil, List.nil_append,
        List.splitOn_append_cons_self_of_not_mem hline, linesFrom,
        String.intercalate_cons_of_ne_nil hrest, unit_happen]
      simp only [String.append_assoc]
    · have hmem : .lineEnd ∉ line ++ [event] := by
        simpa [hline] using fun h => hevent h.symm
      rw [ih (h.happen hevent) hmem, unit_happen, List.append_assoc, List.singleton_append]

end SourceWriter

/-! ## The lines of the text -/

/-- Texts without line ends are the lines of their text. -/
theorem Text.lines_intercalate {texts : List String} (h : ∀ text ∈ texts, OneLine text)
    (hne : texts ≠ []) : lines ("\n".intercalate texts) = texts := by
  have hpieces : ∀ piece ∈ texts.map String.toList, '\n' ∉ piece := List.forall_mem_map.mpr h
  have hend : "\n".toList = ['\n'] := rfl
  rw [lines, String.toList_intercalate, hend, List.splitOn_intercalate _ hpieces (by simpa using hne),
    List.map_map]
  simp [Function.comp_def]

namespace WriterEvent

theorem oneLine_lineText {unit : String} (hunit : Text.OneLine unit) {line : List WriterEvent}
    (hline : ∀ event ∈ line, Text.OneLine event.content) (before : List WriterEvent) :
    Text.OneLine (lineText unit before line) := by
  rw [lineText]
  split
  · refine Text.oneLine_append.mpr ⟨Text.oneLine_join fun text htext => ?_,
      Text.oneLine_join (List.forall_mem_map.mpr hline)⟩
    exact List.eq_of_mem_replicate htext ▸ hunit
  · exact List.not_mem_nil

theorem oneLine_linesFrom {unit : String} (hunit : Text.OneLine unit)
    {lines : List (List WriterEvent)}
    (h : ∀ line ∈ lines, ∀ event ∈ line, Text.OneLine event.content) (before : List WriterEvent) :
    ∀ text ∈ linesFrom unit before lines, Text.OneLine text := by
  induction lines generalizing before with
  | nil => exact List.forall_mem_nil _
  | cons line lines ih =>
    obtain ⟨hline, hlines⟩ := List.forall_mem_cons.mp h
    exact List.forall_mem_cons.mpr ⟨oneLine_lineText hunit hline before, ih hlines _⟩

/-- What happens on a line is among all that happens. -/
theorem mem_of_mem_splitOn {line events : List WriterEvent} (h : line ∈ events.splitOn lineEnd)
    {event : WriterEvent} (hevent : event ∈ line) : event ∈ events := by
  have hsplit : [lineEnd].intercalate (events.splitOn lineEnd) = events :=
    List.intercalate_splitOn lineEnd
  rw [← hsplit, List.intercalate]
  exact List.mem_flatten.mpr ⟨line, mem_intersperse_of_mem h, hevent⟩

/-- There is always a line, the one that is being written. -/
theorem logicalLines_ne_nil (unit : String) (events : List WriterEvent) :
    logicalLines unit events ≠ [] := by
  obtain ⟨line, lines, hsplit⟩ := List.exists_cons_of_ne_nil (List.splitOn_ne_nil lineEnd events)
  rw [logicalLines, hsplit]
  exact List.cons_ne_nil _ _

/-- Logical lines of texts without line ends have none. -/
theorem oneLine_logicalLines {unit : String} (hunit : Text.OneLine unit)
    {events : List WriterEvent} (h : ∀ event ∈ events, Text.OneLine event.content) :
    ∀ text ∈ logicalLines unit events, Text.OneLine text :=
  oneLine_linesFrom hunit (fun _ hline _ hevent => h _ (mem_of_mem_splitOn hline hevent)) []

end WriterEvent

namespace SourceWriter

theorem level_foldl_happen (w : SourceWriter) (events : List WriterEvent) :
    (events.foldl happen w).level = events.foldl levelStep w.level := by
  induction events generalizing w with
  | nil => rfl
  | cons event events ih => rw [List.foldl_cons, List.foldl_cons, ih, level_happen]

theorem oneLine_unitOf (spaces : Nat) : Text.OneLine (Code.unitOf spaces) :=
  Text.oneLine_of_forall (Code.isIndent_of_mem_unitOf spaces) rfl

theorem onLine_new (spaces : Nat) : (new spaces).OnLine [] [] "" := ⟨rfl, rfl, rfl⟩

/-- **A writer writes logical lines.**  Whatever it is asked for, its text is the logical lines with
an end between two of them, and its level is the running sum of ups and downs.  If the texts it is
given have no line ends, then the lines of its text are the logical lines. -/
theorem writes_logicalLines (spaces : Nat) (ops : List WriterOp) :
    let w := (new spaces).run ops
    let lines := logicalLines (Code.unitOf spaces) (WriterOp.eventsOf ops)
    w.output = "\n".intercalate lines ∧
      w.level = levelAfter (WriterOp.eventsOf ops) ∧
      ((∀ op ∈ ops, ∀ text ∈ op.texts, Text.OneLine text) → Text.lines w.output = lines) := by
  intro w lines
  have houtput : w.output = "\n".intercalate lines := by
    rw [show w = _ from run_eq_happen spaces ops,
      (onLine_new spaces).output_foldl_happen List.not_mem_nil, String.empty_append]
    rfl
  refine ⟨houtput, ?_, fun htexts => ?_⟩
  · rw [show w = _ from run_eq_happen spaces ops, level_foldl_happen]
    rfl
  · rw [houtput]
    exact Text.lines_intercalate
      (oneLine_logicalLines (oneLine_unitOf spaces) (WriterOp.oneLine_of_mem_eventsOf htexts))
      (logicalLines_ne_nil _ _)

/-- A line whose level goes up between its texts, empty texts, and a blank line that ends one. -/
theorem writes_logicalLines_of_late_indent :
    let ops : List WriterOp := [.line "a", .indent, .write "", .joined ", " ["b", "", "c"], .dedent,
      .dedent, .blank, .openBlock, .joined ", " [], .newline, .char 'd', .indent, .write "e",
      .newline, .closeBlock]
    let w := (new 2).run ops
    w.output = "a\n  b, , c\n\n\x7b\n\n  de\n  \x7d\n" ∧ w.level = 1 ∧
      Text.lines w.output = ["a", "  b, , c", "", "\x7b", "", "  de", "  \x7d", ""] := by
  intro ops w
  obtain ⟨houtput, hlevel, hlines⟩ := writes_logicalLines 2 ops
  have hlogical : logicalLines (Code.unitOf 2) (WriterOp.eventsOf ops) =
      ["a", "  b, , c", "", "\x7b", "", "  de", "  \x7d", ""] := by decide +kernel
  refine ⟨houtput.trans ?_, hlevel.trans (by decide +kernel), (hlines ?_).trans hlogical⟩
  · rw [hlogical]; decide +kernel
  · decide +kernel

end SourceWriter

end LateBridge
