import LateBridge.Proofs.Document.Derived
import LateBridge.Proofs.Source.Denotation
import LateBridge.Proofs.Text.Splitting
import LateBridge.Source.DocId

/-!
# Proofs/Source/TypeIds — what a documentation id tells of a type

    type ──docId──▸ text
        ╰─idForm─▸ what the text tells

Inside an id a type starts with a dotted name, with a backtick or with an equals sign, and pointers
and array bounds stand behind.  Neither the dotted name nor the suffixes can go on with what follows
a type, so that a type can be read off in front of any rest (`Ty.Legible`).  The induction is on one
type; the suffixes of the other are moved over to its rest one by one until a type without suffixes
is left to compare (`Ty.LegibleHead.legible`).  Read off are all types that are well formed over
variables whose numbers tell them (`Ty.WellFormed.legible`).
-/

namespace LateBridge

open Text (Ends append_inj_of_all separated_inj isNameChar)

/-! ## What an id tells -/

/-- What an id tells of a type variable: of one of a method, its place only. -/
def TypeVar.idForm (v : TypeVar) : TypeVar :=
  match v.owner with
  | .type _ => v
  | .method _ => { owner := .method default, index := v.index, name := "" }

namespace Ty

mutual

/-- **What an id tells of a type.**  The late-bound type, an undetermined one and the root are one,
as are no value and its type. -/
def idForm : Ty → Ty
  | .named n args =>
    if n.dotted = "System.Object" then .dynamic
    else if n.dotted = "System.Void" then .void
    else .named n (idFormList args)
  | .array element rank => .array element.idForm rank
  | .var v => .var v.idForm
  | .pointer target => .pointer target.idForm
  | .fnptr params ret => .fnptr (idFormList params) ret.idForm
  | .void => .void
  | .dynamic | .error => .dynamic

/-- What it tells of several types. -/
def idFormList : List Ty → List Ty
  | [] => []
  | t :: ts => t.idForm :: idFormList ts

end

theorem idFormList_eq_map (ts : List Ty) : idFormList ts = ts.map idForm := by
  induction ts with
  | nil => rfl
  | cons t ts ih => rw [idFormList, ih, List.map_cons]

theorem docIdList_eq_map (ts : List Ty) : docIdList ts = ts.map docId := by
  induction ts with
  | nil => rfl
  | cons t ts ih => rw [docIdList, ih, List.map_cons]

end Ty

/-- Two types of which an id tells the same. -/
def Ty.Alike (t u : Ty) : Prop := t.idForm = u.idForm

/-! ## What stands behind a type -/

/-- What may stand behind a type and belong to it. -/
inductive IdSuffix where
  | pointer
  | rank (rank : Nat)

namespace IdSuffix

/-- The text of a suffix. -/
def text : IdSuffix → List Char
  | pointer => ['*']
  | rank r => (boundsText r).toList

/-- The text of several. -/
def texts (suffixes : List IdSuffix) : List Char := suffixes.flatMap text

/-- A type with a suffix. -/
def on (t : Ty) : IdSuffix → Ty
  | pointer => .pointer t
  | rank r => .array t r

/-- There is an array of the rank. -/
def Valid : IdSuffix → Prop
  | pointer => True
  | rank r => 1 ≤ r

/-- The marks that follow a whole type. -/
def typeMarks : List Char := [',', '\x7d', '(', ')', '@']

/-- The marks that follow a type without its suffixes. -/
def headMarks : List Char := '*' :: '[' :: typeMarks

/-- The bounds between the brackets. -/
def bounds (rank : Nat) : List Char :=
  if rank = 1 then [] else [','].intercalate (List.replicate rank ['0', ':'])

theorem toList_boundsText (rank : Nat) :
    (boundsText rank).toList = '[' :: (bounds rank ++ [']']) := by
  by_cases h : rank = 1
  · simp [boundsText, bounds, h]
  · simp [boundsText, bounds, h, String.toList_intercalate]

theorem length_intercalate_replicate (rank : Nat) :
    ([','].intercalate (List.replicate (rank + 1) ['0', ':'])).length = 3 * rank + 2 := by
  induction rank with
  | zero => rfl
  | succ rank ih =>
    rw [List.replicate_succ, List.replicate_succ, List.intercalate_cons_cons, ← List.replicate_succ,
      List.length_append, List.length_append, ih]
    simp only [List.length_cons, List.length_nil]
    omega

theorem bounds_injective {r s : Nat} (hr : 1 ≤ r) (hs : 1 ≤ s) (h : bounds r = bounds s) :
    r = s := by
  have hlength (n : Nat) (hn : 1 ≤ n) : (bounds n).length = if n = 1 then 0 else 3 * n - 1 := by
    obtain ⟨k, rfl⟩ := Nat.exists_eq_add_of_le' hn
    rw [bounds]
    split
    · rfl
    · rw [length_intercalate_replicate]
      omega
  have hboth := congrArg List.length h
  rw [hlength r hr, hlength s hs] at hboth
  split at hboth <;> split at hboth <;> omega

theorem bounds_chars (rank : Nat) : ∀ c ∈ bounds rank, (c != ']') = true := by
  have hmem (n : Nat) :
      ∀ c ∈ [','].intercalate (List.replicate n ['0', ':']), (c != ']') = true := by
    induction n with
    | zero => simp
    | succ n ih =>
      cases n with
      | zero => simp
      | succ n =>
        rw [List.replicate_succ, List.replicate_succ, List.intercalate_cons_cons,
          ← List.replicate_succ]
        simp only [List.forall_mem_append]
        exact ⟨by simp, ih⟩
  rw [bounds]
  split
  · simp
  · exact hmem rank

theorem texts_cons (x : IdSuffix) (more : List IdSuffix) :
    texts (x :: more) = x.text ++ texts more := List.flatMap_cons

/-- A suffix does not start as what follows a whole type. -/
theorem not_ends_texts_cons (x : IdSuffix) (more : List IdSuffix) (rest : List Char) :
    ¬ Ends typeMarks (texts (x :: more) ++ rest) := by
  rw [texts_cons]
  cases x with
  | pointer => exact fun h => absurd (Text.ends_cons.mp h) (by decide)
  | rank r =>
    rw [text, toList_boundsText]
    exact fun h => absurd (Text.ends_cons.mp h) (by decide)

theorem ends_texts (more : List IdSuffix) {rest : List Char} (h : Ends typeMarks rest) :
    Ends headMarks (texts more ++ rest) := by
  cases more with
  | nil => exact h.mono fun c hc => List.mem_cons_of_mem _ (List.mem_cons_of_mem _ hc)
  | cons x more =>
    rw [texts_cons]
    cases x with
    | pointer => exact Text.ends_cons.mpr (by decide)
    | rank r =>
      rw [text, toList_boundsText]
      exact Text.ends_cons.mpr (by decide)

theorem text_inj {x y : IdSuffix} (hx : x.Valid) (hy : y.Valid) {rest rest' : List Char}
    (h : x.text ++ rest = y.text ++ rest') : x = y ∧ rest = rest' := by
  cases x with
  | pointer =>
    cases y with
    | pointer => exact ⟨rfl, (List.cons.inj h).2⟩
    | rank s =>
      rw [text, text, toList_boundsText] at h
      exact absurd (List.cons.inj h).1 (by decide)
  | rank r =>
    cases y with
    | pointer =>
      rw [text, text, toList_boundsText] at h
      exact absurd (List.cons.inj h).1 (by decide)
    | rank s =>
      rw [text, text, toList_boundsText, toList_boundsText] at h
      simp only [List.cons_append, List.append_assoc, List.nil_append] at h
      obtain ⟨hbounds, hrest⟩ := append_inj_of_all (bounds_chars r) (bounds_chars s) (by simp)
        (by simp) (List.cons.inj h).2
      exact ⟨congrArg rank (bounds_injective hx hy hbounds), (List.cons.inj hrest).2⟩

/-- **Suffixes can be read off one by one.** -/
theorem texts_inj {more more' : List IdSuffix} (hmore : ∀ x ∈ more, x.Valid)
    (hmore' : ∀ x ∈ more', x.Valid) {rest rest' : List Char} (hrest : Ends typeMarks rest)
    (hrest' : Ends typeMarks rest') (h : texts more ++ rest = texts more' ++ rest') :
    more = more' ∧ rest = rest' := by
  induction more generalizing more' with
  | nil =>
    cases more' with
    | nil => exact ⟨rfl, h⟩
    | cons y more' => exact absurd (h ▸ hrest) (not_ends_texts_cons y more' rest')
  | cons x more ih =>
    cases more' with
    | nil => exact absurd (h ▸ hrest') (not_ends_texts_cons x more rest)
    | cons y more' =>
      rw [texts_cons, texts_cons, List.append_assoc, List.append_assoc] at h
      obtain ⟨hx, hxs⟩ := List.forall_mem_cons.mp hmore
      obtain ⟨hy, hys⟩ := List.forall_mem_cons.mp hmore'
      obtain ⟨hxy, h⟩ := text_inj hx hy h
      obtain ⟨hsame, hrests⟩ := ih hxs hys h
      exact ⟨congrArg₂ List.cons hxy hsame, hrests⟩

end IdSuffix

/-! ## Dotted names with arguments -/

section Paths

variable {α β : Type}

theorem segments_map (f : α → β) (args : List α) (n : DeclName) :
    n.segments (args.map f) = (n.segments args).map fun x => ⟨x.name, x.args.map f⟩ := by
  induction n with
  | top space name params =>
    cases space <;>
      simp [DeclName.segments, spaceSegments, List.map_take, Function.comp_def]
  | nested outer name params ih =>
    simp [DeclName.segments, ih, List.map_take, List.map_drop]

/-- The dotted name tells the names of the segments and how many arguments they take. -/
theorem dotted_eq {n : DeclName} {args : List α} (h : n.totalArity ≤ args.length) :
    n.dotted = ".".intercalate (((n.segments args).map Segment.step).map DeclName.stepText) := by
  induction n with
  | top space name params =>
    have hle : params.length ≤ args.length := h
    cases space with
    | none =>
      simp [DeclName.dotted, DeclName.segments, spaceSegments, Segment.step, DeclName.stepText,
        DeclName.spacePrefix, hle]
    | some space =>
      have hspace : ((spaceSegments (α := α) (some space)).map Segment.step).map
          DeclName.stepText = (Scope.dotParts space.toList).map String.ofList := by
        simp [spaceSegments, Segment.step, DeclName.stepText, DeclName.aritySuffix,
          Function.comp_def]
      have hne : (Scope.dotParts space.toList).map String.ofList ≠ [] := by
        simpa using Text.dotParts_ne_nil space.toList
      rw [DeclName.segments, List.map_append, List.map_append, hspace,
        String.intercalate_append_of_ne_nil hne (by simp), intercalate_dotParts,
        String.ofList_toList]
      simp [DeclName.dotted, Segment.step, DeclName.stepText, DeclName.spacePrefix, hle,
        String.append_assoc]
  | nested outer name params ih =>
    have hle : outer.totalArity + params.length ≤ args.length := h
    have hmin : min params.length (args.length - outer.totalArity) = params.length := by omega
    have hne : ((outer.segments args).map Segment.step).map DeclName.stepText ≠ [] := by
      simpa using segments_ne_nil args outer
    rw [DeclName.dotted, ih (by omega), DeclName.segments, List.map_append, List.map_append,
      String.intercalate_append_of_ne_nil hne (by simp)]
    simp [Segment.step, DeclName.stepText, hmin, String.append_assoc]

theorem mem_args_of_mem_segments {n : DeclName} {args : List α} {x : Segment α}
    (hx : x ∈ n.segments args) {a : α} (ha : a ∈ x.args) : a ∈ args := by
  have hmem : a ∈ (n.segments args).flatMap (·.args) := List.mem_flatMap.mpr ⟨x, hx, ha⟩
  rw [Graph.flatMap_args_segments] at hmem
  exact List.mem_of_mem_take hmem

end Paths

/-- The text of the arguments of a segment. -/
def argText (args : List Ty) : List Char :=
  if args.isEmpty then []
  else '\x7b' :: ([','].intercalate (args.map (·.docId.toList)) ++ ['\x7d'])

/-- The text of a segment. -/
def idText (x : Segment Ty) : List Char := x.name.toList ++ argText x.args

/-- Two segments of which an id tells the same. -/
def Segment.Alike (x y : Segment Ty) : Prop := x.name = y.name ∧ List.Forall₂ Ty.Alike x.args y.args

namespace Ty

/-- A name without arguments. -/
def bareSegment (name : String) : Segment Ty := ⟨name, []⟩

/-- The dotted name that stands for a type. -/
def path? : Ty → Option (List (Segment Ty))
  | .named n args => some (n.segments args)
  | .void => some [bareSegment "System", bareSegment "Void"]
  | .dynamic | .error => some [bareSegment "System", bareSegment "Object"]
  | _ => none

variable {names : List DeclName} {vars : List TypeVar} {t u : Ty} {path path' : List (Segment Ty)}

theorem toList_segmentText (x : Segment Ty) :
    (braced.segmentText ⟨x.name, x.args.map docId⟩).toList = idText x := by
  cases hargs : x.args <;>
    simp [DeclName.Brackets.segmentText, idText, argText, hargs, braced, String.toList_intercalate,
      Function.comp_def]

/-- **The text of a dotted name is its segments with dots between them.** -/
theorem toList_docId_of_path? (h : t.WellFormed names vars) (hpath : t.path? = some path) :
    t.docId.toList = ['.'].intercalate (path.map idText) := by
  cases h with
  | @named n args declared arity _ =>
    obtain rfl := Option.some.inj hpath
    have hlength : n.totalArity ≤ (args.map docId).length := by rw [List.length_map, arity]
    rw [docId, docIdList_eq_map, spell_eq braced hlength, segments_map, String.toList_intercalate,
      List.map_map, List.map_map]
    simp only [Function.comp_def, toList_segmentText]
    rfl
  | void | dynamic =>
    obtain rfl := Option.some.inj hpath
    rfl
  | _ => cases hpath

/-- A dotted name is made of names, and its arguments are those of the type. -/
theorem WellFormed.path_spec (hnames : ∀ n ∈ names, n.wellNamed = true)
    (h : t.WellFormed names vars) (hpath : t.path? = some path) :
    path ≠ [] ∧ (∀ x ∈ path, Text.isName x.name = true) ∧
      ∀ x ∈ path, ∀ a ∈ x.args, a.WellFormed names vars := by
  cases h with
  | @named n args declared arity inside =>
    obtain rfl := Option.some.inj hpath
    exact ⟨segments_ne_nil args n, fun x => isName_of_mem_segments (hnames n declared),
      fun x hx a ha => inside a (mem_args_of_mem_segments hx ha)⟩
  | void | dynamic =>
    obtain rfl := Option.some.inj hpath
    exact ⟨by simp, by simp [bareSegment]; decide, by simp [bareSegment]⟩
  | _ => cases hpath

/-- **A type that its id tells**, whatever follows it. -/
def Legible (names : List DeclName) (vars : List TypeVar) (t : Ty) : Prop :=
  ∀ u, u.WellFormed names vars → ∀ more more' : List IdSuffix,
    (∀ x ∈ more, x.Valid) → (∀ x ∈ more', x.Valid) → ∀ rest rest' : List Char,
    Ends IdSuffix.typeMarks rest → Ends IdSuffix.typeMarks rest' →
    t.docId.toList ++ (IdSuffix.texts more ++ rest) =
      u.docId.toList ++ (IdSuffix.texts more' ++ rest') →
    (more.foldl IdSuffix.on t).Alike (more'.foldl IdSuffix.on u) ∧ rest = rest'

/-- Without suffixes. -/
theorem Legible.alike (h : t.Legible names vars) (hu : u.WellFormed names vars)
    {rest rest' : List Char} (hrest : Ends IdSuffix.typeMarks rest)
    (hrest' : Ends IdSuffix.typeMarks rest')
    (htext : t.docId.toList ++ rest = u.docId.toList ++ rest') : t.Alike u ∧ rest = rest' :=
  h u hu [] [] (by simp) (by simp) rest rest' hrest hrest' htext

/-- **Types with commas between them can be read off one by one.** -/
theorem alike_of_separated {ts us : List Ty} (hts : ∀ t ∈ ts, t.Legible names vars)
    (hus : ∀ u ∈ us, u.WellFormed names vars) (htne : ts ≠ []) (hune : us ≠ []) {mark : Char}
    (hmark : mark ∈ IdSuffix.typeMarks) (hcomma : mark ≠ ',') {rest rest' : List Char}
    (h : [','].intercalate (ts.map (·.docId.toList)) ++ mark :: rest =
      [','].intercalate (us.map (·.docId.toList)) ++ mark :: rest') :
    List.Forall₂ Alike ts us ∧ rest = rest' := by
  obtain ⟨hall, hrests⟩ := separated_inj (R := Alike) IdSuffix.typeMarks (by decide)
    (fun t ht u hu rest rest' => (hts t ht).alike (hus u hu)) htne hune (Text.ends_cons.mpr hmark)
    (Text.ends_cons.mpr hmark) (by simpa using hcomma) (by simpa using hcomma) h
  exact ⟨hall, (List.cons.inj hrests).2⟩

/-- The marks that follow a segment. -/
def segmentMarks : List Char := '.' :: IdSuffix.headMarks

theorem isNameChar_of_segmentMarks : ∀ c ∈ '\x7b' :: segmentMarks, isNameChar c = false := by
  have hall : ('\x7b' :: segmentMarks).all (!isNameChar ·) = true := by decide
  simpa using hall

theorem ends_argText (args : List Ty) {rest : List Char} (h : Ends segmentMarks rest) :
    Ends ('\x7b' :: segmentMarks) (argText args ++ rest) := by
  rw [argText]
  split
  · exact h.mono (List.subset_cons_self _ _)
  · exact Text.ends_cons.mpr List.mem_cons_self

/-- The arguments of a segment can be read off. -/
theorem argText_inj {ts us : List Ty} (hts : ∀ t ∈ ts, t.Legible names vars)
    (hus : ∀ u ∈ us, u.WellFormed names vars) {rest rest' : List Char}
    (hrest : Ends segmentMarks rest) (hrest' : Ends segmentMarks rest')
    (h : argText ts ++ rest = argText us ++ rest') : List.Forall₂ Alike ts us ∧ rest = rest' := by
  have hbrace : '\x7b' ∉ segmentMarks := by decide
  rcases ts with _ | ⟨t, ts⟩ <;> rcases us with _ | ⟨u, us⟩
  · exact ⟨.nil, h⟩
  · obtain rfl : rest = '\x7b' :: _ := h
    exact absurd (Text.ends_cons.mp hrest) hbrace
  · obtain rfl : '\x7b' :: _ = rest' := h
    exact absurd (Text.ends_cons.mp hrest') hbrace
  · simp only [argText, List.isEmpty_cons, Bool.false_eq_true, if_false, List.cons_append,
      List.append_assoc, List.nil_append] at h
    exact alike_of_separated hts hus (List.cons_ne_nil _ _) (List.cons_ne_nil _ _) (by decide)
      (by decide) (List.cons.inj h).2

/-- **A segment can be read off.** -/
theorem segment_inj {x y : Segment Ty} (hx : Text.isName x.name = true)
    (hy : Text.isName y.name = true) (hxargs : ∀ a ∈ x.args, a.Legible names vars)
    (hyargs : ∀ a ∈ y.args, a.WellFormed names vars) {rest rest' : List Char}
    (hrest : Ends segmentMarks rest) (hrest' : Ends segmentMarks rest')
    (h : idText x ++ rest = idText y ++ rest') : x.Alike y ∧ rest = rest' := by
  rw [idText, idText, List.append_assoc, List.append_assoc] at h
  obtain ⟨hname, hargs⟩ := append_inj_of_all (Text.isName_iff.mp hx).2 (Text.isName_iff.mp hy).2
    (fun c hc => isNameChar_of_segmentMarks c (ends_argText x.args hrest c hc))
    (fun c hc => isNameChar_of_segmentMarks c (ends_argText y.args hrest' c hc)) h
  obtain ⟨hall, hrests⟩ := argText_inj hxargs hyargs hrest hrest' hargs
  exact ⟨⟨String.toList_inj.mp hname, hall⟩, hrests⟩

/-- **A dotted name can be read off.** -/
theorem path_inj (hnames : ∀ n ∈ names, n.wellNamed = true) {vars' : List TypeVar}
    (ht : t.WellFormed names vars') (hpath : t.path? = some path)
    (hargs : ∀ x ∈ path, ∀ a ∈ x.args, a.Legible names vars) (hu : u.WellFormed names vars)
    (hpath' : u.path? = some path') {rest rest' : List Char} (hrest : Ends IdSuffix.headMarks rest)
    (hrest' : Ends IdSuffix.headMarks rest')
    (h : t.docId.toList ++ rest = u.docId.toList ++ rest') :
    List.Forall₂ Segment.Alike path path' ∧ rest = rest' := by
  obtain ⟨hne, hnamed, -⟩ := ht.path_spec hnames hpath
  obtain ⟨hne', hnamed', hargs'⟩ := hu.path_spec hnames hpath'
  have hdot {l : List Char} (hl : Ends IdSuffix.headMarks l) : '.' ∉ l.head? :=
    fun hmem => absurd (hl _ hmem) (by decide)
  rw [toList_docId_of_path? ht hpath, toList_docId_of_path? hu hpath'] at h
  exact separated_inj segmentMarks List.mem_cons_self
    (fun x hx y hy _ _ => segment_inj (hnamed x hx) (hnamed' y hy) (hargs x hx) (hargs' y hy))
    hne hne' (hrest.mono (List.subset_cons_self _ _)) (hrest'.mono (List.subset_cons_self _ _))
    (hdot hrest) (hdot hrest') h

/-! ## Types with one dotted name -/

theorem forall₂_flatMap_args {path path' : List (Segment Ty)}
    (h : List.Forall₂ Segment.Alike path path') :
    List.Forall₂ Alike (path.flatMap (·.args)) (path'.flatMap (·.args)) := by
  induction h with
  | nil => exact .nil
  | cons hx _ ih => exact List.rel_append hx.2 ih

theorem map_step_eq {path path' : List (Segment Ty)}
    (h : List.Forall₂ Segment.Alike path path') :
    path.map Segment.step = path'.map Segment.step := by
  induction h with
  | nil => rfl
  | cons hx _ ih =>
    rw [List.map_cons, List.map_cons, ih, Segment.step, Segment.step, hx.1, hx.2.length_eq]

theorem map_idForm_eq {ts us : List Ty} (h : List.Forall₂ Alike ts us) :
    ts.map idForm = us.map idForm := by
  induction h with
  | nil => rfl
  | cons ht _ ih => rw [List.map_cons, List.map_cons, ht, ih]

/-- The dotted name with the numbers of arguments. -/
def dottedPath (path : List (Segment Ty)) : String :=
  ".".intercalate ((path.map Segment.step).map DeclName.stepText)

/-- What an id tells of a type with a dotted name. -/
theorem idForm_of_path? (h : t.WellFormed names vars) (hpath : t.path? = some path) :
    (dottedPath path = "System.Object" ∧ t.idForm = .dynamic) ∨
    (dottedPath path = "System.Void" ∧ t.idForm = .void) ∨
    (dottedPath path ≠ "System.Object" ∧ dottedPath path ≠ "System.Void" ∧
      ∃ n ∈ names, n.dotted = dottedPath path ∧
        t.idForm = .named n ((path.flatMap (·.args)).map idForm)) := by
  cases h with
  | @named n args declared arity _ =>
    obtain rfl := Option.some.inj hpath
    have hdotted : n.dotted = dottedPath (n.segments args) := dotted_eq arity.ge
    have hargs : (n.segments args).flatMap (·.args) = args := by
      rw [Graph.flatMap_args_segments, ← arity, List.take_length]
    rw [idForm, ← hdotted, hargs, idFormList_eq_map]
    by_cases hobject : n.dotted = "System.Object"
    · exact .inl ⟨hobject, if_pos hobject⟩
    · rw [if_neg hobject]
      by_cases hvoid : n.dotted = "System.Void"
      · exact .inr (.inl ⟨hvoid, if_pos hvoid⟩)
      · exact .inr (.inr ⟨hobject, hvoid, n, declared, rfl, if_neg hvoid⟩)
  | void =>
    obtain rfl := Option.some.inj hpath
    exact .inr (.inl ⟨by decide, rfl⟩)
  | dynamic =>
    obtain rfl := Option.some.inj hpath
    exact .inl ⟨by decide, rfl⟩
  | _ => cases hpath

/-- **Types with one dotted name are told alike.** -/
theorem alike_of_path? (hdistinct : ∀ m ∈ names, ∀ n ∈ names, m.dotted = n.dotted → m = n)
    {vars' : List TypeVar} (ht : t.WellFormed names vars') (hpath : t.path? = some path)
    (hu : u.WellFormed names vars) (hpath' : u.path? = some path')
    (h : List.Forall₂ Segment.Alike path path') : t.Alike u := by
  have hsame : dottedPath path = dottedPath path' := by rw [dottedPath, map_step_eq h, dottedPath]
  have hvoid : "System.Void" ≠ "System.Object" := by decide
  have htold := idForm_of_path? ht hpath
  rw [hsame] at htold
  rw [Alike]
  obtain ⟨hobject, ht⟩ | ⟨hnothing, ht⟩ | ⟨hobject, hnothing, n, hn, hdotted, ht⟩ := htold <;>
    obtain ⟨hobject', hu⟩ | ⟨hnothing', hu⟩ | ⟨hobject', hnothing', m, hm, hdotted', hu⟩ :=
      idForm_of_path? hu hpath'
  · rw [ht, hu]
  · exact absurd (hnothing'.symm.trans hobject) hvoid
  · exact absurd hobject hobject'
  · exact absurd (hnothing.symm.trans hobject') hvoid
  · rw [ht, hu]
  · exact absurd hnothing hnothing'
  · exact absurd hobject' hobject
  · exact absurd hnothing' hnothing
  · rw [ht, hu, hdistinct n hn m hm (hdotted.trans hdotted'.symm),
      map_idForm_eq (forall₂_flatMap_args h)]

/-! ## Types without suffixes -/

/-- A type whose id ends with no suffix. -/
def IsHead : Ty → Prop
  | .array .. | .pointer _ => False
  | _ => True

/-- **A type without suffixes** has a dotted name, or is a variable or a function pointer. -/
theorem head_cases (h : t.WellFormed names vars) (hhead : t.IsHead) :
    (∃ path, t.path? = some path) ∨ (∃ v ∈ vars, t = .var v) ∨
      ∃ params ret, t = .fnptr params ret ∧ (∀ p ∈ params, p.WellFormed names vars) ∧
        ret.WellFormed names vars := by
  cases h with
  | named | void | dynamic => exact .inl ⟨_, rfl⟩
  | var inScope => exact .inr (.inl ⟨_, inScope, rfl⟩)
  | fnptr hparams hret => exact .inr (.inr ⟨_, _, rfl, hparams, hret⟩)
  | array | pointer => cases hhead

/-- **Induction over suffixes**: what holds of the types without and is kept by each suffix. -/
theorem WellFormed.suffixInduction {motive : ∀ t : Ty, t.WellFormed names vars → Prop}
    (head : ∀ t (h : t.WellFormed names vars), t.IsHead → motive t h)
    (array : ∀ t rank (h : t.WellFormed names vars) (pos : 1 ≤ rank)
      (le : rank ≤ TypeReader.maxRank), motive t h → motive (.array t rank) (.array h pos le))
    (pointer : ∀ t (h : t.WellFormed names vars), motive t h → motive (.pointer t) (.pointer h))
    (h : t.WellFormed names vars) : motive t h := by
  induction h with
  | named declared arity inside => exact head _ (.named declared arity inside) trivial
  | array h pos le ih => exact array _ _ h pos le ih
  | var inScope => exact head _ (.var inScope) trivial
  | pointer h ih => exact pointer _ h ih
  | fnptr hparams hret => exact head _ (.fnptr hparams hret) trivial
  | void => exact head _ .void trivial
  | dynamic => exact head _ .dynamic trivial

/-- **A type without suffixes that its id tells.** -/
def LegibleHead (names : List DeclName) (vars : List TypeVar) (t : Ty) : Prop :=
  ∀ u, u.WellFormed names vars → u.IsHead → ∀ rest rest' : List Char,
    Ends IdSuffix.headMarks rest → Ends IdSuffix.headMarks rest' →
    t.docId.toList ++ rest = u.docId.toList ++ rest' → t.Alike u ∧ rest = rest'

theorem Alike.foldl (h : t.Alike u) (more : List IdSuffix) :
    (more.foldl IdSuffix.on t).Alike (more.foldl IdSuffix.on u) := by
  induction more generalizing t u with
  | nil => exact h
  | cons x more ih =>
    refine ih ?_
    cases x with
    | pointer => exact congrArg Ty.pointer h
    | rank r => exact congrArg (Ty.array · r) h

theorem docId_pointer (t : Ty) (more : List IdSuffix) (rest : List Char) :
    (Ty.pointer t).docId.toList ++ (IdSuffix.texts more ++ rest) =
      t.docId.toList ++ (IdSuffix.texts (.pointer :: more) ++ rest) := by
  simp [docId, IdSuffix.texts_cons, IdSuffix.text]

theorem docId_array (t : Ty) (rank : Nat) (more : List IdSuffix) (rest : List Char) :
    (Ty.array t rank).docId.toList ++ (IdSuffix.texts more ++ rest) =
      t.docId.toList ++ (IdSuffix.texts (.rank rank :: more) ++ rest) := by
  simp [docId, IdSuffix.texts_cons, IdSuffix.text]

/-- Suffixes of the other type count as what stands behind it. -/
theorem LegibleHead.legible (h : t.LegibleHead names vars) : t.Legible names vars := by
  intro u hu more more' hmore hmore' rest rest' hrest hrest' htext
  induction hu using WellFormed.suffixInduction generalizing more' with
  | head v hv hhead =>
    obtain ⟨halike, hsuffixes⟩ := h v hv hhead _ _ (IdSuffix.ends_texts more hrest)
      (IdSuffix.ends_texts more' hrest') htext
    obtain ⟨rfl, hrests⟩ := IdSuffix.texts_inj hmore hmore' hrest hrest' hsuffixes
    exact ⟨halike.foldl more, hrests⟩
  | array v rank _ pos _ ih =>
    rw [docId_array] at htext
    exact ih (.rank rank :: more') (List.forall_mem_cons.mpr ⟨pos, hmore'⟩) htext
  | pointer v _ ih =>
    rw [docId_pointer] at htext
    exact ih (.pointer :: more') (List.forall_mem_cons.mpr ⟨trivial, hmore'⟩) htext

/-! ## First characters -/

theorem exists_docId_of_path? (hnames : ∀ n ∈ names, n.wellNamed = true)
    (h : t.WellFormed names vars) (hpath : t.path? = some path) :
    ∃ c cs, t.docId.toList = c :: cs ∧ isNameChar c = true := by
  obtain ⟨hne, hnamed, -⟩ := h.path_spec hnames hpath
  obtain ⟨x, path, rfl⟩ := List.exists_cons_of_ne_nil hne
  have hx := hnamed x List.mem_cons_self
  obtain ⟨⟨c, cs, hname, -⟩, hall⟩ := Text.isName_iff.mp hx
  have hc : isNameChar c = true := hall c (hname ▸ List.mem_cons_self)
  rw [toList_docId_of_path? h hpath]
  rcases path with _ | ⟨y, path⟩
  · exact ⟨c, _, by rw [List.map_singleton, List.intercalate_singleton, idText, hname]; rfl, hc⟩
  · exact ⟨c, _, by
      rw [List.map_cons, List.map_cons, List.intercalate_cons_cons, idText, hname]; rfl, hc⟩

theorem toList_docId_var (v : TypeVar) : ∃ cs, (Ty.var v).docId.toList = '`' :: cs := by
  rw [docId, TypeVar.docId]
  split <;> exact ⟨_, by rw [String.toList_append]; rfl⟩

/-- The id of a variable is made of backticks and digits. -/
theorem docId_var_chars (v : TypeVar) :
    ∀ c ∈ v.docId.toList, (c.isDigit || c == '`') = true := by
  have hdigits (mark : String) (hmark : ∀ c ∈ mark.toList, c = '`') (n : Nat) :
      ∀ c ∈ (mark ++ toString n).toList, (c.isDigit || c == '`') = true := by
    intro c hc
    rw [String.toList_append, Text.toList_toString] at hc
    obtain hc | hc := List.mem_append.mp hc
    · rw [hmark c hc]
      rfl
    · rw [Text.isDigit_of_mem_digits c hc, Bool.true_or]
  rw [TypeVar.docId]
  split <;> exact hdigits _ (by simp) _

theorem toList_docId_fnptr (params : List Ty) (ret : Ty) :
    (Ty.fnptr params ret).docId.toList = "=FUNC:".toList ++ (ret.docId.toList ++
      '(' :: ([','].intercalate (params.map (·.docId.toList)) ++ [')'])) := by
  simp [docId, docIdList_eq_map, String.toList_intercalate, Function.comp_def]

/-- No type starts with a closing parenthesis. -/
theorem exists_docId (hnames : ∀ n ∈ names, n.wellNamed = true) (h : t.WellFormed names vars) :
    ∃ c cs, t.docId.toList = c :: cs ∧ c ≠ ')' := by
  induction h using WellFormed.suffixInduction with
  | head v hv hhead =>
    obtain ⟨path, hpath⟩ | ⟨w, -, rfl⟩ | ⟨params, ret, rfl, -, -⟩ := head_cases hv hhead
    · obtain ⟨c, cs, htext, hc⟩ := exists_docId_of_path? hnames hv hpath
      refine ⟨c, cs, htext, ?_⟩
      rintro rfl
      exact absurd hc (by decide)
    · obtain ⟨cs, htext⟩ := toList_docId_var w
      exact ⟨_, cs, htext, by decide⟩
    · exact ⟨_, _, toList_docId_fnptr params ret, by decide⟩
  | array v rank _ pos _ ih =>
    obtain ⟨c, cs, htext, hc⟩ := ih
    exact ⟨c, _, by rw [docId, String.toList_append, htext]; rfl, hc⟩
  | pointer v _ ih =>
    obtain ⟨c, cs, htext, hc⟩ := ih
    exact ⟨c, _, by rw [docId, String.toList_append, htext]; rfl, hc⟩

theorem separated_ne_close (hnames : ∀ n ∈ names, n.wellNamed = true)
    (ht : t.WellFormed names vars) (ts : List Ty) (rest rest' : List Char) :
    [','].intercalate ((t :: ts).map (·.docId.toList)) ++ rest ≠ ')' :: rest' := by
  obtain ⟨c, cs, htext, hc⟩ := exists_docId hnames ht
  intro h
  rcases ts with _ | ⟨u, ts⟩ <;>
    simp only [List.map_cons, List.map_nil, List.intercalate_singleton, List.intercalate_cons_cons,
      htext, List.cons_append] at h <;>
    exact hc (List.cons.inj h).1

/-- **The types between parentheses can be read off.** -/
theorem params_inj (hnames : ∀ n ∈ names, n.wellNamed = true) {vars' : List TypeVar}
    {ts us : List Ty} (hts : ∀ t ∈ ts, t.WellFormed names vars')
    (hlegible : ∀ t ∈ ts, t.Legible names vars) (hus : ∀ u ∈ us, u.WellFormed names vars)
    {rest rest' : List Char} (h : [','].intercalate (ts.map (·.docId.toList)) ++ ')' :: rest =
      [','].intercalate (us.map (·.docId.toList)) ++ ')' :: rest') :
    List.Forall₂ Alike ts us ∧ rest = rest' := by
  rcases ts with _ | ⟨t, ts⟩ <;> rcases us with _ | ⟨u, us⟩
  · exact ⟨.nil, (List.cons.inj h).2⟩
  · exact absurd h.symm (separated_ne_close hnames (hus u List.mem_cons_self) us _ _)
  · exact absurd h (separated_ne_close hnames (hts t List.mem_cons_self) ts _ _)
  · exact alike_of_separated hlegible hus (List.cons_ne_nil _ _) (List.cons_ne_nil _ _) (by decide)
      (by decide) h

/-! ## Every type -/

section Legible

variable {vars' : List TypeVar} (hnames : ∀ n ∈ names, n.wellNamed = true)

include hnames

/-- A type with a dotted name is told if its arguments are. -/
theorem legibleHead_of_path? (hdistinct : ∀ m ∈ names, ∀ n ∈ names, m.dotted = n.dotted → m = n)
    (ht : t.WellFormed names vars) (hpath : t.path? = some path)
    (hargs : ∀ x ∈ path, ∀ a ∈ x.args, a.Legible names vars') : t.LegibleHead names vars' := by
  intro u hu hhead rest rest' hrest hrest' htext
  obtain ⟨c, cs, hfirst, hc⟩ := exists_docId_of_path? hnames ht hpath
  obtain ⟨path', hpath'⟩ | ⟨w, -, rfl⟩ | ⟨params, ret, rfl, -, -⟩ := head_cases hu hhead
  · obtain ⟨hall, hrests⟩ :=
      path_inj hnames ht hpath hargs hu hpath' hrest hrest' htext
    exact ⟨alike_of_path? hdistinct ht hpath hu hpath' hall, hrests⟩
  · obtain ⟨cs', hw⟩ := toList_docId_var w
    rw [hfirst, hw] at htext
    rw [(List.cons.inj htext).1] at hc
    exact absurd hc (by decide)
  · rw [hfirst, toList_docId_fnptr] at htext
    rw [(List.cons.inj htext).1] at hc
    exact absurd hc (by decide)

/-- A variable is told if its number tells it. -/
theorem legibleHead_var {v : TypeVar}
    (hv : ∀ w ∈ vars', v.docId = w.docId → v.idForm = w.idForm) :
    (Ty.var v).LegibleHead names vars' := by
  intro u hu hhead rest rest' hrest hrest' htext
  obtain ⟨cs, hfirst⟩ := toList_docId_var v
  obtain ⟨path', hpath'⟩ | ⟨w, hw, rfl⟩ | ⟨params, ret, rfl, -, -⟩ := head_cases hu hhead
  · obtain ⟨c, cs', hu, hc⟩ := exists_docId_of_path? hnames hu hpath'
    rw [hfirst, hu] at htext
    rw [← (List.cons.inj htext).1] at hc
    exact absurd hc (by decide)
  · have hmarks : ∀ c ∈ IdSuffix.headMarks, (c.isDigit || c == '`') = false := by
      simp [IdSuffix.headMarks, IdSuffix.typeMarks]
    obtain ⟨hid, hrests⟩ := append_inj_of_all (docId_var_chars v) (docId_var_chars w)
      (fun c hc => hmarks c (hrest c hc)) (fun c hc => hmarks c (hrest' c hc)) htext
    exact ⟨congrArg Ty.var (hv w hw (String.toList_inj.mp hid)), hrests⟩
  · rw [hfirst, toList_docId_fnptr] at htext
    exact absurd (List.cons.inj htext).1 (by decide)

/-- A function pointer is told if its types are. -/
theorem legibleHead_fnptr {params : List Ty} {ret : Ty}
    (hparams : ∀ p ∈ params, p.WellFormed names vars)
    (hlegible : ∀ p ∈ params, p.Legible names vars') (hret : ret.Legible names vars') :
    (Ty.fnptr params ret).LegibleHead names vars' := by
  intro u hu hhead rest rest' hrest hrest' htext
  obtain ⟨path', hpath'⟩ | ⟨w, -, rfl⟩ | ⟨params', ret', rfl, hparams', hret'⟩ :=
    head_cases hu hhead
  · obtain ⟨c, cs', hu, hc⟩ := exists_docId_of_path? hnames hu hpath'
    rw [toList_docId_fnptr, hu] at htext
    rw [← (List.cons.inj htext).1] at hc
    exact absurd hc (by decide)
  · obtain ⟨cs, hw⟩ := toList_docId_var w
    rw [toList_docId_fnptr, hw] at htext
    exact absurd (List.cons.inj htext).1 (by decide)
  · rw [toList_docId_fnptr, toList_docId_fnptr] at htext
    simp only [List.append_assoc, List.cons_append, List.nil_append] at htext
    obtain ⟨hsame, hmore⟩ := hret.alike hret' (Text.ends_cons.mpr (by decide))
      (Text.ends_cons.mpr (by decide)) (List.append_cancel_left htext)
    obtain ⟨hall, hrests⟩ := params_inj hnames hparams hlegible hparams' (List.cons.inj hmore).2
    refine ⟨?_, hrests⟩
    rw [Alike, idForm, idForm, idFormList_eq_map, idFormList_eq_map, map_idForm_eq hall, hsame]

/-- **Every well-formed type is told by its id**, if the numbers of variables tell them. -/
theorem WellFormed.legible
    (hdistinct : ∀ m ∈ names, ∀ n ∈ names, m.dotted = n.dotted → m = n)
    (hvars : ∀ v ∈ vars, ∀ w ∈ vars', v.docId = w.docId → v.idForm = w.idForm)
    (h : t.WellFormed names vars) : t.Legible names vars' := by
  induction h with
  | @named n args declared arity inside ih =>
    exact (legibleHead_of_path? hnames hdistinct (.named declared arity inside) rfl
      fun x hx a ha => ih a (mem_args_of_mem_segments hx ha)).legible
  | @array element rank helement pos _ ih =>
    intro u hu more more' hmore hmore' rest rest' hrest hrest' htext
    rw [docId_array] at htext
    exact ih u hu (.rank rank :: more) more' (List.forall_mem_cons.mpr ⟨pos, hmore⟩) hmore' rest
      rest' hrest hrest' htext
  | pointer _ ih =>
    intro u hu more more' hmore hmore' rest rest' hrest hrest' htext
    rw [docId_pointer] at htext
    exact ih u hu (.pointer :: more) more' (List.forall_mem_cons.mpr ⟨trivial, hmore⟩) hmore' rest
      rest' hrest hrest' htext
  | var inScope => exact (legibleHead_var hnames (hvars _ inScope)).legible
  | fnptr hparams _ ihparams ihret =>
    exact (legibleHead_fnptr hnames hparams ihparams ihret).legible
  | void =>
    have hvoid : Ty.void.WellFormed names vars := .void
    exact (legibleHead_of_path? hnames hdistinct hvoid rfl (by simp [bareSegment])).legible
  | dynamic =>
    have hdynamic : Ty.dynamic.WellFormed names vars := .dynamic
    exact (legibleHead_of_path? hnames hdistinct hdynamic rfl (by simp [bareSegment])).legible

end Legible

end Ty

end LateBridge
