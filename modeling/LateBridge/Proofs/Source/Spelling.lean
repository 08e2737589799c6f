import LateBridge.Proofs.Document.Lookup
import LateBridge.Proofs.Document.Scoping
import LateBridge.Source.TypeText

/-!
# Proofs/Source/Spelling — the text of a type is read as the tree of the type

    type ──source──▸ text
      │                │ read
      ╰────written────▸ tree

Each type is meant to be read back as one tree (`Ty.written`): keywords and type parameters are
single words, all other named types are dotted names from the global namespace, with the arguments
shared out along the containing chain.  The text is put together from texts that spell the parts
(`Writes`); the ranks of nested arrays stand apart from what they are ranks of until the element is
complete, just as a run of ranks is read (`Ty.source_spelled`).
-/

namespace LateBridge

open Text (skipBlanks isNameChar isName)
open TypeGrammar

/-! ## The tree of a type -/

/-- The segments of a namespace. -/
def spaceSegments {α : Type} : Option String → List (Segment α)
  | none => []
  | some space => (Scope.dotParts space.toList).map fun part => ⟨String.ofList part, []⟩

/-- **The segments of a declared type** from the global namespace; each type takes its own
arguments. -/
def DeclName.segments {α : Type} (args : List α) : DeclName → List (Segment α)
  | top space name params => spaceSegments space ++ [⟨name, args.take params.length⟩]
  | nested outer name params =>
    outer.segments args ++ [⟨name, (args.drop outer.totalArity).take params.length⟩]

namespace Ty

/-- A single word. -/
def wordSyntax (word : String) : TypeSyntax := .name false [⟨word, []⟩]

mutual

/-- **The tree that the text of a type is read as.** -/
def written : Ty → TypeSyntax
  | .named n args =>
    match n.special?.bind Special.keyword? with
    | some word => wordSyntax word
    | none => .name true (n.segments (writtenList args))
  | .array element rank => .array element.written rank
  | .var v => wordSyntax v.name
  | .pointer target => .pointer target.written
  | .fnptr params ret => .fnptr (writtenList params) ret.written
  | .void => wordSyntax "void"
  | .dynamic => wordSyntax "dynamic"
  | .error => wordSyntax "object"

/-- The trees of several types. -/
def writtenList : List Ty → List TypeSyntax
  | [] => []
  | t :: ts => t.written :: writtenList ts

/-- The number of types around each other in the text of a type. -/
def nesting : Ty → Nat
  | .named _ args => nestingList args + 1
  | .array element _ => element.nesting
  | .pointer target => target.nesting
  | .fnptr params ret => max (nestingList params) ret.nesting + 1
  | .var _ | .void | .dynamic | .error => 1

/-- The greatest nesting in a list. -/
def nestingList : List Ty → Nat
  | [] => 0
  | t :: ts => max t.nesting (nestingList ts)

end

end Ty

/-! ## Texts for tokens -/

/-- A text that does not go on with a name. -/
def NameEnds (rest : List Char) : Prop := ∀ c ∈ rest.head?, isNameChar c = false

theorem nameEnds_cons {c : Char} (h : isNameChar c = false) (rest : List Char) :
    NameEnds (c :: rest) := by
  simpa [NameEnds] using h

/-- **A text is written for something** that its tokens derive. -/
def Writes {α : Type} (P : List TypeToken → α → Prop) (text : String) (a : α) : Prop :=
  ∃ tokens, P tokens a ∧ ∀ rest, NameEnds rest → Spells tokens (text.toList ++ rest) rest

theorem Spells.word {name : String} (h : isName name = true) {rest : List Char}
    (hrest : NameEnds rest) : Spells [.word name] (name.toList ++ rest) rest := by
  have hproper : (TypeToken.word name).Proper := h
  exact Spells.cons_append hproper hrest rfl

theorem Spells.one_mark {c : Char} (h : Text.isBlank c = false) (rest : List Char) :
    Spells [.mark c] (c :: rest) rest :=
  Spells.mark (Text.skipBlanks_of_visible h rest) rfl

variable {T : List TypeToken → TypeSyntax → Prop}

/-- A mark with a blank behind it. -/
theorem Spells.mark_blank {c : Char} (h : Text.isBlank c = false) {tokens : List TypeToken}
    {cs rest : List Char} (hmore : Spells tokens cs rest) :
    Spells (.mark c :: tokens) (c :: ' ' :: cs) rest := by
  refine Spells.mark (Text.skipBlanks_of_visible h _) (hmore.congr ?_ rfl)
  exact (Text.skipBlanks_of_blank (by decide) cs).symm

namespace Writes

theorem types {texts : List String} {types : List TypeSyntax}
    (h : List.Forall₂ (Writes T) texts types) (hne : types ≠ []) :
    Writes (Types T) (", ".intercalate texts) types := by
  induction h with
  | nil => exact absurd rfl hne
  | @cons text type texts types htype hmore ih =>
    obtain ⟨tokens, hderives, hspells⟩ := htype
    rcases hmore with _ | ⟨htype', hmore⟩
    · refine ⟨tokens, .one hderives, ?_⟩
      rw [String.intercalate_singleton]
      exact hspells
    · obtain ⟨more, hderivesMore, hspellsMore⟩ := ih (by simp)
      refine ⟨_, .cons hderives hderivesMore, fun rest hrest => ?_⟩
      rw [String.intercalate_cons_cons, String.toList_append, String.toList_append,
        List.append_assoc, List.append_assoc]
      exact (hspells _ (nameEnds_cons (by decide) _)).append
        (.mark_blank (by decide) (hspellsMore rest hrest))

/-- Arguments in angle brackets, if there are any. -/
theorem arguments {texts : List String} {args : List TypeSyntax}
    (h : List.Forall₂ (Writes T) texts args) :
    Writes (Arguments T) (if texts.isEmpty then "" else "<" ++ ", ".intercalate texts ++ ">")
      args := by
  rcases h with _ | ⟨htype, hmore⟩
  · exact ⟨[], .none, fun rest _ => rfl⟩
  · obtain ⟨tokens, hderives, hspells⟩ := types (.cons htype hmore) (by simp)
    refine ⟨_, .some hderives, fun rest hrest => ?_⟩
    rw [List.isEmpty_cons, if_neg Bool.false_ne_true, String.toList_append, String.toList_append,
      List.append_assoc, List.append_assoc]
    refine Spells.mark (Text.skipBlanks_of_visible (by decide) _) ?_
    exact (hspells _ (nameEnds_cons (by decide) _)).append (.one_mark (by decide) rest)

end Writes

/-- The text of a segment. -/
def DeclName.Brackets.segmentText (b : DeclName.Brackets) (segment : Segment String) : String :=
  segment.name ++ if segment.args.isEmpty then "" else
    b.opening ++ b.separator.intercalate segment.args ++ b.closing

/-- A segment of texts for a segment of trees. -/
def Segment.Writes (T : List TypeToken → TypeSyntax → Prop) (text : Segment String)
    (segment : Segment TypeSyntax) : Prop :=
  text.name = segment.name ∧ isName segment.name = true ∧
    List.Forall₂ (LateBridge.Writes T) text.args segment.args

namespace Writes

theorem nameEnds_arguments (args : List String) {rest : List Char} (hrest : NameEnds rest) :
    NameEnds ((if args.isEmpty then "" else
      "<" ++ ", ".intercalate args ++ ">").toList ++ rest) := by
  rcases args with _ | ⟨arg, args⟩
  · exact hrest
  · rw [List.isEmpty_cons, if_neg Bool.false_ne_true, String.toList_append, String.toList_append,
      List.append_assoc, List.append_assoc]
    exact nameEnds_cons (by decide) _

theorem segment {text : Segment String} {segment : Segment TypeSyntax}
    (h : text.Writes T segment) : Writes (NameSegment T) (angled.segmentText text) segment := by
  obtain ⟨own, texts⟩ := text
  obtain ⟨name, args⟩ := segment
  obtain ⟨rfl, hname, hargs⟩ := h
  obtain ⟨tokens, hderives, hspells⟩ := arguments hargs
  refine ⟨_, .mk ⟨hname, .inl rfl⟩ hderives, fun rest hrest => ?_⟩
  rw [DeclName.Brackets.segmentText, String.toList_append, List.append_assoc]
  exact (Spells.word hname (nameEnds_arguments texts hrest)).append (hspells rest hrest)

theorem dottedName {texts : List (Segment String)} {segments : List (Segment TypeSyntax)}
    (h : List.Forall₂ (Segment.Writes T) texts segments) (hne : segments ≠ []) :
    Writes (DottedName T) (".".intercalate (texts.map angled.segmentText)) segments := by
  induction h with
  | nil => exact absurd rfl hne
  | @cons text x texts segments hx hmore ih =>
    obtain ⟨tokens, hderives, hspells⟩ := segment hx
    rcases hmore with _ | ⟨hx', hmore⟩
    · refine ⟨tokens, .one hderives, ?_⟩
      rw [List.map_singleton, String.intercalate_singleton]
      exact hspells
    · obtain ⟨more, hderivesMore, hspellsMore⟩ := ih (by simp)
      refine ⟨_, .cons hderives hderivesMore, fun rest hrest => ?_⟩
      rw [List.map_cons, List.map_cons, String.intercalate_cons_cons, String.toList_append,
        String.toList_append, List.append_assoc, List.append_assoc]
      refine (hspells _ (nameEnds_cons (by decide) _)).append ?_
      exact .mark (Text.skipBlanks_of_visible (by decide) _) (hspellsMore rest hrest)

/-- A dotted name from the global namespace. -/
theorem rooted {texts : List (Segment String)} {segments : List (Segment TypeSyntax)}
    (h : List.Forall₂ (Segment.Writes T) texts segments) (hne : segments ≠ []) :
    Writes (Primary T) ("global::" ++ ".".intercalate (texts.map angled.segmentText))
      (.name true segments) := by
  obtain ⟨tokens, hderives, hspells⟩ := dottedName h hne
  refine ⟨_, .rooted hderives, fun rest hrest => ?_⟩
  have hroot : TypeToken.root.Proper := trivial
  rw [String.toList_append, List.append_assoc]
  exact Spells.cons_append hroot trivial (hspells rest hrest)

/-- A word that is no keyword of its own. -/
theorem word {word : String} (h : isName word = true) (hne : word ≠ "delegate") :
    Writes (Primary T) word (Ty.wordSyntax word) := by
  refine ⟨[.word word], .name (.one (.mk ⟨h, .inl rfl⟩ .none)) ?_, fun rest hrest => ?_⟩
  · simpa using hne
  · exact Spells.word h hrest

theorem fnptr {texts : List String} {params : List TypeSyntax} {ret : TypeSyntax}
    (h : List.Forall₂ (Writes T) texts (params ++ [ret])) :
    Writes (Primary T) ("delegate*<" ++ ", ".intercalate texts ++ ">") (.fnptr params ret) := by
  obtain ⟨tokens, hderives, hspells⟩ := types h (by simp)
  refine ⟨_, .fnptr .absent hderives, fun rest hrest => ?_⟩
  have htext : ("delegate*<" ++ ", ".intercalate texts ++ ">").toList ++ rest =
      "delegate".toList ++ '*' :: '<' :: ((", ".intercalate texts).toList ++ '>' :: rest) := by
    rw [String.toList_append, String.toList_append, List.append_assoc, List.append_assoc]
    rfl
  rw [htext]
  refine (Spells.word (by decide) (nameEnds_cons (by decide) _)).append ?_
  refine .mark (Text.skipBlanks_of_visible (by decide) _) ?_
  refine .mark (Text.skipBlanks_of_visible (by decide) _) ?_
  exact (hspells _ (nameEnds_cons (by decide) _)).append (.one_mark (by decide) rest)

end Writes

/-! ## Names of declared types -/

/-- A text is its parts with dots between them. -/
theorem intercalate_dotParts (cs : List Char) :
    ".".intercalate ((Scope.dotParts cs).map String.ofList) = String.ofList cs := by
  induction cs with
  | nil => rfl
  | cons c cs ih =>
    by_cases hc : c = '.'
    · subst hc
      have hne : (Scope.dotParts cs).map String.ofList ≠ [] := by
        simpa using Text.dotParts_ne_nil cs
      rw [Text.dotParts_dot, List.map_cons, String.intercalate_cons_of_ne_nil hne, ih,
        String.ofList_cons]
      rfl
    · obtain ⟨part, parts, hcs, hccs⟩ := Text.exists_dotParts_cons hc cs
      rw [hcs, List.map_cons] at ih
      rw [hccs, List.map_cons, String.ofList_cons, String.intercalate_cons_append, ih,
        String.ofList_cons]

theorem around_eq (b : DeclName.Brackets) {arity : Nat} {args : List String}
    (h : arity ≤ args.length) : b.around arity args = if (args.take arity).isEmpty then "" else
      b.opening ++ b.separator.intercalate (args.take arity) ++ b.closing := by
  rw [DeclName.Brackets.around]
  by_cases hzero : arity = 0
  · simp [hzero]
  · have hne : args.take arity ≠ [] := by
      rw [← List.length_pos_iff, List.length_take]
      omega
    simp [hzero, hne]

theorem map_spaceSegments (b : DeclName.Brackets) {space : String} :
    ".".intercalate ((spaceSegments (some space)).map b.segmentText) = space := by
  have htexts : (spaceSegments (some space)).map b.segmentText =
      (Scope.dotParts space.toList).map String.ofList := by
    simp [spaceSegments, DeclName.Brackets.segmentText, Function.comp_def]
  rw [htexts, intercalate_dotParts, String.ofList_toList]

theorem segments_ne_nil {α : Type} (args : List α) (n : DeclName) : n.segments args ≠ [] := by
  cases n <;> simp [DeclName.segments]

/-- **The dotted name of a type is its segments with dots between them.** -/
theorem spell_eq (b : DeclName.Brackets) {n : DeclName} {args : List String}
    (h : n.totalArity ≤ args.length) :
    n.spell b args = ".".intercalate ((n.segments args).map b.segmentText) := by
  induction n with
  | top space name params =>
    have hle : params.length ≤ args.length := h
    rw [DeclName.spell, DeclName.segments, List.map_append, around_eq b hle]
    cases space with
    | none =>
      simp [spaceSegments, DeclName.Brackets.segmentText, DeclName.spacePrefix]
    | some space =>
      have hne : (spaceSegments (α := String) (some space)).map b.segmentText ≠ [] := by
        simpa [spaceSegments] using Text.dotParts_ne_nil space.toList
      rw [String.intercalate_append_of_ne_nil hne (by simp), map_spaceSegments]
      simp [DeclName.Brackets.segmentText, DeclName.spacePrefix, String.append_assoc]
  | nested outer name params ih =>
    have hle : outer.totalArity + params.length ≤ args.length := h
    have hrest : params.length ≤ (args.drop outer.totalArity).length := by
      rw [List.length_drop]
      omega
    have hne : (outer.segments args).map b.segmentText ≠ [] := by
      simpa using segments_ne_nil args outer
    rw [DeclName.spell, DeclName.segments, List.map_append, around_eq b hrest, ih (by omega),
      String.intercalate_append_of_ne_nil hne (by simp)]
    simp [DeclName.Brackets.segmentText, String.append_assoc]

/-- **The segments of the texts of arguments are written for the segments of their trees.** -/
theorem forall₂_segments {n : DeclName} (hn : n.wellNamed = true) {texts : List String}
    {args : List TypeSyntax} (h : List.Forall₂ (Writes T) texts args) :
    List.Forall₂ (Segment.Writes T) (n.segments texts) (n.segments args) := by
  induction n with
  | top space name params =>
    obtain ⟨hspace, hname⟩ := Bool.and_eq_true_iff.mp hn
    refine List.rel_append ?_ (.cons ⟨rfl, hname, List.forall₂_take _ h⟩ .nil)
    cases space with
    | none => exact .nil
    | some space =>
      have hparts := List.forall_mem_map.mp (isName_of_isDotted hspace)
      exact List.forall₂_map_left_iff.mpr (List.forall₂_map_right_iff.mpr
        (List.forall₂_same.mpr fun part hpart => ⟨rfl, hparts part hpart, .nil⟩))
  | nested outer name params ih =>
    obtain ⟨houter, hname⟩ := Bool.and_eq_true_iff.mp hn
    exact List.rel_append (ih houter)
      (.cons ⟨rfl, hname, List.forall₂_take _ (List.forall₂_drop _ h)⟩ .nil)

/-! ## Types -/

namespace Ty

theorem sourceList_eq_map (ts : List Ty) : sourceList ts = ts.map source := by
  induction ts with
  | nil => rfl
  | cons t ts ih => rw [sourceList, ih, List.map_cons, source]

theorem writtenList_eq_map (ts : List Ty) : writtenList ts = ts.map written := by
  induction ts with
  | nil => rfl
  | cons t ts ih => rw [writtenList, ih, List.map_cons]

theorem nesting_le_of_mem {t : Ty} {ts : List Ty} (h : t ∈ ts) : t.nesting ≤ nestingList ts := by
  induction ts with
  | nil => cases h
  | cons u ts ih =>
    rw [nestingList]
    obtain rfl | h := List.mem_cons.mp h
    · exact Nat.le_max_left _ _
    · exact Nat.le_trans (ih h) (Nat.le_max_right _ _)

theorem one_le_nesting : (t : Ty) → 1 ≤ t.nesting
  | .named _ _ | .fnptr _ _ => Nat.le_add_left 1 _
  | .array element _ => one_le_nesting element
  | .pointer target => one_le_nesting target
  | .var _ | .void | .dynamic | .error => Nat.le_refl 1

/-- **A type is spelled as a core and ranks**: its text without the ranks at its end is written for
a tree that can go on with ranks, and the ranks stand behind it. -/
structure SpelledAs (depth : Nat) (t : Ty) (core : TypeSyntax) (ranks : List Nat)
    (base : TypeSyntax) (suffixes : List TypeSuffix) : Prop where
  written : t.written = core.arrays ranks
  inRange : ∀ r ∈ ranks, (TypeSuffix.rank r).InRange
  suffixesInRange : ∀ x ∈ suffixes, x.InRange
  goesOn : ∀ more : List Nat, base.suffixed (suffixes ++ more.map .rank) = core.arrays more
  writes : ∃ tokens, Primary (IsType depth) tokens base ∧ ∀ rest, NameEnds rest →
    Spells (tokens ++ suffixes.flatMap TypeSuffix.tokens) (t.sourceParts.1.toList ++ rest) rest
  ranksText : t.sourceParts.2 = String.join (ranks.map rankText)

/-- A type that its text is read as. -/
def Spelled (depth : Nat) (t : Ty) : Prop :=
  ∃ core ranks base suffixes, SpelledAs depth t core ranks base suffixes

variable {depth : Nat} {t : Ty}

theorem Spelled.of_primary (hparts : t.sourceParts.2 = "")
    (h : Writes (Primary (IsType depth)) t.sourceParts.1 t.written) : t.Spelled depth := by
  obtain ⟨tokens, hderives, hspells⟩ := h
  refine ⟨t.written, [], t.written, [], rfl, by simp, by simp, TypeSyntax.suffixed_map_rank _,
    ⟨tokens, hderives, ?_⟩, hparts⟩
  rw [List.flatMap_nil, List.append_nil]
  exact hspells

theorem Spelled.array {element : Ty} (h : element.Spelled depth) {rank : Nat}
    (hrank : (TypeSuffix.rank rank).InRange) : (Ty.array element rank).Spelled depth := by
  obtain ⟨core, ranks, base, suffixes, helement⟩ := h
  refine ⟨core, rank :: ranks, base, suffixes, ?_, List.forall_mem_cons.mpr ⟨hrank, helement.inRange⟩,
    helement.suffixesInRange, helement.goesOn, helement.writes, ?_⟩
  · rw [written, helement.written]
    rfl
  · rw [List.map_cons, String.join_cons, ← helement.ranksText]
    rfl

theorem spells_rankTail (commas : Nat) (rest : List Char) :
    Spells (TypeReader.rankTail commas) (List.replicate commas ',' ++ ']' :: rest) rest := by
  induction commas with
  | zero => exact .one_mark (by decide) rest
  | succ commas ih =>
    rw [TypeReader.rankTail, List.replicate_succ, List.replicate_succ]
    exact .mark (Text.skipBlanks_of_visible (by decide) _) ih

theorem toList_rankText (rank : Nat) (rest : List Char) : (rankText rank).toList ++ rest =
    '[' :: (List.replicate (rank - 1) ',' ++ ']' :: rest) := by
  simp [rankText]

theorem spells_ranks (ranks : List Nat) (rest : List Char) :
    Spells (TypeReader.runTokens ranks) ((String.join (ranks.map rankText)).toList ++ rest)
      rest := by
  induction ranks with
  | nil => exact rfl
  | cons rank ranks ih =>
    rw [List.map_cons, String.join_cons, String.toList_append, List.append_assoc, toList_rankText]
    refine .mark (Text.skipBlanks_of_visible (by decide) _) ?_
    exact (spells_rankTail (rank - 1) _).append ih

theorem nameEnds_ranks (ranks : List Nat) {rest : List Char} (h : NameEnds rest) :
    NameEnds ((String.join (ranks.map rankText)).toList ++ rest) := by
  cases ranks with
  | nil => exact h
  | cons rank ranks =>
    rw [List.map_cons, String.join_cons, String.toList_append, List.append_assoc, toList_rankText]
    exact nameEnds_cons (by decide) _

variable {core : TypeSyntax} {ranks : List Nat} {base : TypeSyntax} {suffixes : List TypeSuffix}

theorem SpelledAs.allInRange (h : SpelledAs depth t core ranks base suffixes) :
    ∀ x ∈ suffixes ++ ranks.map TypeSuffix.rank, x.InRange :=
  List.forall_mem_append.mpr ⟨h.suffixesInRange, List.forall_mem_map.mpr h.inRange⟩

/-- The text with the ranks at its end. -/
theorem SpelledAs.source (h : SpelledAs depth t core ranks base suffixes) :
    ∃ tokens, Primary (IsType depth) tokens base ∧ ∀ rest, NameEnds rest →
      Spells (tokens ++ (suffixes ++ ranks.map TypeSuffix.rank).flatMap TypeSuffix.tokens)
        (t.source.toList ++ rest) rest := by
  obtain ⟨tokens, hderives, hspells⟩ := h.writes
  refine ⟨tokens, hderives, fun rest hrest => ?_⟩
  rw [Ty.source, String.toList_append, List.append_assoc, h.ranksText, List.flatMap_append,
    ← List.append_assoc]
  exact (hspells _ (nameEnds_ranks ranks hrest)).append (spells_ranks ranks rest)

/-- **The source of a spelled type is written for its tree.** -/
theorem Spelled.writes (h : t.Spelled depth) : Writes (IsType (depth + 1)) t.source t.written := by
  obtain ⟨core, ranks, base, suffixes, ht⟩ := h
  obtain ⟨tokens, hderives, hspells⟩ := ht.source
  rw [ht.written, ← ht.goesOn]
  exact ⟨_, .suffixed _ hderives ht.allInRange, hspells⟩

theorem Spelled.pointer (h : t.Spelled depth) : (Ty.pointer t).Spelled depth := by
  obtain ⟨core, ranks, base, suffixes, ht⟩ := h
  obtain ⟨tokens, hderives, hspells⟩ := ht.source
  have hpointer : ∀ run base more, TypeSyntax.suffixedFrom run base (.pointer :: more) =
      TypeSyntax.suffixedFrom [] (.pointer (base.arrays run)) more := fun _ _ _ => rfl
  have hinRange : TypeSuffix.pointer.InRange := trivial
  refine ⟨.pointer t.written, [], base, suffixes ++ ranks.map .rank ++ [.pointer], rfl, by simp,
    List.forall_mem_append.mpr ⟨ht.allInRange, List.forall_mem_singleton.mpr hinRange⟩,
    fun more => ?_, ⟨tokens, hderives, fun rest hrest => ?_⟩, rfl⟩
  · rw [TypeSyntax.suffixed, List.append_assoc, List.singleton_append,
      TypeSyntax.suffixedFrom_append hpointer, ← TypeSyntax.suffixed, ht.goesOn, ← ht.written,
      TypeSyntax.suffixed_map_rank]
  · have htext : (Ty.pointer t).sourceParts.1.toList ++ rest = t.source.toList ++ '*' :: rest := by
      simp [sourceParts, Ty.source]
    have hstar : Spells [.mark '*'] ('*' :: rest) rest := .one_mark (by decide) rest
    rw [htext, List.flatMap_append, ← List.append_assoc]
    exact (hspells _ (nameEnds_cons (by decide) rest)).append hstar

/-- The words that are keywords of the special types are names. -/
theorem isName_of_keyword {s : Special} {word : String} (h : s.keyword? = some word) :
    isName word = true ∧ word ≠ "delegate" := by
  cases s <;> cases h <;> decide

/-- The arguments of a type, one level further in. -/
theorem forall₂_writes {ts : List Ty} (hdepth : nestingList ts ≤ depth)
    (h : ∀ t ∈ ts, ∀ {inner}, t.nesting ≤ inner + 1 → t.Spelled inner) :
    List.Forall₂ (Writes (IsType depth)) (sourceList ts) (writtenList ts) := by
  rw [sourceList_eq_map, writtenList_eq_map, List.forall₂_map_left_iff,
    List.forall₂_map_right_iff, List.forall₂_same]
  intro t ht
  have hle : t.nesting ≤ depth := (nesting_le_of_mem ht).trans hdepth
  obtain ⟨inner, rfl⟩ := Nat.exists_eq_succ_of_ne_zero
    (Nat.ne_of_gt (Nat.lt_of_lt_of_le t.one_le_nesting hle))
  exact (h t ht hle).writes

/-- **Every well-formed type is spelled**, where names are names and nothing nests too deep. -/
theorem WellFormed.spelled {names : List DeclName} {vars : List TypeVar}
    (hnames : ∀ n ∈ names, n.wellNamed = true)
    (hvars : ∀ v ∈ vars, isName v.name = true ∧ v.name ≠ "delegate")
    (h : t.WellFormed names vars) {depth : Nat} (hdepth : t.nesting ≤ depth + 1) :
    t.Spelled depth := by
  induction h generalizing depth with
  | @named n args declared arity _ ih =>
    have hargs := forall₂_writes (Nat.le_of_succ_le_succ hdepth) ih
    cases hword : n.special?.bind Special.keyword? with
    | some word =>
      obtain ⟨special, -, hkeyword⟩ := Option.bind_eq_some_iff.mp hword
      obtain ⟨hname, hne⟩ := isName_of_keyword hkeyword
      refine .of_primary ?_ ?_ <;> simp only [sourceParts, written, hword]
      exact .word hname hne
    | none =>
      have hlength : n.totalArity ≤ (sourceList args).length := by
        rw [sourceList_eq_map, List.length_map, arity]
      refine .of_primary ?_ ?_ <;> simp only [sourceParts, written, hword]
      rw [spell_eq angled hlength]
      exact .rooted (forall₂_segments (hnames n declared) hargs) (segments_ne_nil _ n)
  | @array element rank _ pos le ih => exact (ih hdepth).array ⟨pos, le⟩
  | @var v inScope => exact .of_primary rfl (.word (hvars v inScope).1 (hvars v inScope).2)
  | pointer _ ih => exact (ih hdepth).pointer
  | @fnptr params ret _ _ hparams hret =>
    have hle : max (nestingList params) ret.nesting ≤ depth := Nat.le_of_succ_le_succ hdepth
    have hall := forall₂_writes (Nat.le_trans (Nat.le_max_left _ _) hle) hparams
    have hone : nestingList [ret] ≤ depth := by
      rw [nestingList, nestingList, Nat.max_zero]
      exact Nat.le_trans (Nat.le_max_right _ _) hle
    have hlast := forall₂_writes hone (List.forall_mem_singleton.mpr hret)
    exact .of_primary rfl (.fnptr (List.rel_append hall hlast))
  | void => exact .of_primary rfl (.word (by decide) (by decide))
  | dynamic => exact .of_primary rfl (.word (by decide) (by decide))

/-- **The text of a well-formed type is read as its tree.** -/
theorem WellFormed.read_source {names : List DeclName} {vars : List TypeVar}
    (hnames : ∀ n ∈ names, n.wellNamed = true)
    (hvars : ∀ v ∈ vars, isName v.name = true ∧ v.name ≠ "delegate")
    (h : t.WellFormed names vars) (hnesting : t.nesting ≤ TypeReader.maxNesting) :
    TypeSyntax.read t.source = .ok t.written := by
  have hspelled : t.Spelled 127 := h.spelled hnames hvars hnesting
  obtain ⟨tokens, hderives, hspells⟩ := hspelled.writes
  refine TypeSyntax.read_eq_ok.mpr (TypeReader.whole_eq_ok.mpr ⟨tokens, hderives, ?_⟩)
  have hend : NameEnds [] := fun _ h => nomatch h
  simpa using hspells [] hend

end Ty

end LateBridge
