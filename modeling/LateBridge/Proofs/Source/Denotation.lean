import LateBridge.Proofs.Source.Spelling

/-!
# Proofs/Source/Denotation — the text of a type denotes the type

    type ──source──▸ text ──read──▸ tree ──resolve──▸ the same type

Read as a tree, the text is resolved name by name.  A dotted name from the global namespace is tried
at every split between namespace and types; the split of the printed name finds the type, and no
earlier one finds anything as long as no namespace is also the name of a type
(`Graph.lookupSplit?_segments`).  A single word is a keyword or the innermost type parameter of that
name (`Graph.resolve_captured`), which is the one that was printed if all names in scope differ
(`bindType_source`).
-/

namespace LateBridge

variable {α : Type}

/-! ## The candidates of a printed name -/

/-- The segments of a declared type behind those of its namespace. -/
def DeclName.typeSegments (args : List α) : DeclName → List (Segment α)
  | top _ name params => [⟨name, args.take params.length⟩]
  | nested outer name params =>
    outer.typeSegments args ++ [⟨name, (args.drop outer.totalArity).take params.length⟩]

theorem segments_eq (args : List α) (n : DeclName) :
    n.segments args = spaceSegments n.space ++ n.typeSegments args := by
  induction n with
  | top => rfl
  | nested outer name params ih =>
    rw [DeclName.segments, ih, DeclName.typeSegments, List.append_assoc]
    rfl

theorem typeSegments_ne_nil (args : List α) (n : DeclName) : n.typeSegments args ≠ [] := by
  cases n <;> simp [DeclName.typeSegments]

/-- The steps behind the namespace are written as in the metadata name. -/
theorem metadata_of_typeSegments {n : DeclName} {args : List α} (h : n.totalArity ≤ args.length) :
    n.metadata = DeclName.spacePrefix n.space ++
      "+".intercalate (((n.typeSegments args).map Segment.step).map DeclName.stepText) := by
  induction n with
  | top space name params =>
    have hle : params.length ≤ args.length := h
    simp [DeclName.typeSegments, Segment.step, DeclName.stepText, DeclName.metadata,
      DeclName.space, Nat.min_eq_left hle, String.append_assoc]
  | nested outer name params ih =>
    have hle : outer.totalArity + params.length ≤ args.length := h
    have hmin : min params.length (args.length - outer.totalArity) = params.length := by omega
    rw [DeclName.typeSegments, List.map_append, List.map_append,
      String.intercalate_append_of_ne_nil (by simp [typeSegments_ne_nil]) (by simp),
      DeclName.metadata, ih (by omega)]
    simp [Segment.step, DeclName.stepText, DeclName.space, hmin, String.append_assoc]

/-- Texts with a separator behind each, and one more text. -/
theorem join_append (separator : String) (names : List String) (name : String) :
    String.join (names.map (· ++ separator)) ++ name = separator.intercalate (names ++ [name]) := by
  induction names with
  | nil => simp
  | cons first names ih =>
    rw [List.map_cons, String.join_cons, List.cons_append,
      String.intercalate_cons_of_ne_nil (by simp), ← ih, String.append_assoc]

/-- The parts of a namespace. -/
def spaceParts (space : String) : List String :=
  (Scope.dotParts space.toList).map String.ofList

theorem map_name_spaceSegments (space : String) :
    (spaceSegments (α := α) (some space)).map (·.name) = spaceParts space := by
  simp [spaceSegments, spaceParts, Function.comp_def]

theorem intercalate_spaceParts (space : String) : ".".intercalate (spaceParts space) = space := by
  rw [spaceParts, intercalate_dotParts, String.ofList_toList]

theorem join_spaceSegments (space : Option String) :
    String.join ((spaceSegments (α := α) space).map (·.name ++ ".")) =
      DeclName.spacePrefix space := by
  cases space with
  | none => rfl
  | some space =>
    have hne : spaceParts space ≠ [] := by
      simpa [spaceParts] using Text.dotParts_ne_nil space.toList
    have hjoin := join_append "." (spaceParts space) ""
    rw [String.intercalate_append_of_ne_nil hne (by simp), intercalate_spaceParts,
      ← map_name_spaceSegments (α := α), List.map_map] at hjoin
    simpa [DeclName.spacePrefix, Function.comp_def] using hjoin

theorem args_of_mem_spaceSegments {space : Option String} {x : Segment α}
    (h : x ∈ spaceSegments space) : x.args = [] := by
  cases space with
  | none => cases h
  | some space =>
    obtain ⟨part, -, rfl⟩ := List.mem_map.mp h
    rfl

/-- **The candidate at the end of the namespace** is the metadata name. -/
theorem metadataAt?_segments {n : DeclName} {args : List α} (h : n.totalArity ≤ args.length) :
    metadataAt? "" (n.segments args) (spaceSegments (α := α) n.space).length =
      some n.metadata := by
  rw [metadataAt?_eq_some, leadAt, segments_eq, List.take_left, List.drop_left,
    join_spaceSegments, metadata_of_typeSegments h, String.empty_append]
  exact ⟨fun x => args_of_mem_spaceSegments, rfl⟩

theorem isName_of_mem_spaceSegments {space : Option String}
    (h : space.all Text.isDotted = true) {x : Segment α} (hx : x ∈ spaceSegments space) :
    Text.isName x.name = true := by
  cases space with
  | none => cases hx
  | some space =>
    obtain ⟨part, hpart, rfl⟩ := List.mem_map.mp hx
    exact List.all_eq_true.mp h part hpart

theorem isName_of_mem_segments {n : DeclName} (h : n.wellNamed = true) {args : List α}
    {x : Segment α} (hx : x ∈ n.segments args) : Text.isName x.name = true := by
  induction n with
  | top space name params =>
    obtain ⟨hspace, hname⟩ := Bool.and_eq_true_iff.mp h
    obtain hx | hx := List.mem_append.mp hx
    · exact isName_of_mem_spaceSegments hspace hx
    · exact List.mem_singleton.mp hx ▸ hname
  | nested outer name params ih =>
    obtain ⟨houter, hname⟩ := Bool.and_eq_true_iff.mp h
    obtain hx | hx := List.mem_append.mp hx
    · exact ih houter hx
    · exact List.mem_singleton.mp hx ▸ hname

/-- **No namespace is the name of a type.** -/
def DeclName.SpacesApart (names : List DeclName) : Prop :=
  ∀ n ∈ names, ∀ space ∈ n.space, ∀ outer ∈ Scope.spacesOutward space,
    ∀ m ∈ names, m.metadata ≠ outer

theorem mem_spacesOutward {space : String} {k : Nat} (h : k < (spaceParts space).length) :
    ".".intercalate ((spaceParts space).take (k + 1)) ∈ Scope.spacesOutward space := by
  rw [Scope.spacesOutward, List.mem_reverse]
  exact List.mem_map_of_mem (List.mem_range.mpr h)

/-- A type inside a type with a plain name is inside a declared type of that name. -/
theorem DeclName.Coherent.exists_metadata {names : List DeclName} (hg : DeclName.Coherent names)
    {n : DeclName} (hn : n ∈ names) {stem : String} {inside : List (String × Nat)}
    (hsteps : n.steps = (stem, 0) :: inside) : ∃ outer ∈ names, outer.metadata = stem := by
  have hsplit : n.steps = [(stem, 0)] ++ inside := hsteps
  obtain ⟨outer, houter, hpath⟩ := DeclName.exists_chain_of_steps hsplit (by simp)
  refine ⟨outer, hg.around n hn outer houter, ?_⟩
  rw [DeclName.metadata_eq, hpath]
  simp [DeclName.stepText, DeclName.aritySuffix]

/-- The stem of the first step at a split is the dotted name up to there. -/
theorem leadAt_append {segments : List (Segment α)} {split : Nat} {first : Segment α}
    {rest : List (Segment α)} (h : segments.drop split = first :: rest) :
    leadAt "" segments split ++ first.name =
      ".".intercalate ((segments.take (split + 1)).map (·.name)) := by
  have htake : segments.take (split + 1) = segments.take split ++ [first] := by
    rw [List.take_add_one, ← List.head?_drop, h]
    rfl
  have hmap : (segments.take split).map (·.name ++ ".") =
      ((segments.take split).map (·.name)).map (· ++ ".") := by
    rw [List.map_map]
    rfl
  rw [htake, List.map_append, List.map_singleton, ← join_append, leadAt, String.empty_append, hmap]

/-- A split inside the namespace cuts it off at one of the namespaces around. -/
theorem space_of_split {space? : Option String} {own : List (Segment α)} {split : Nat}
    (hsplit : split < (spaceSegments (α := α) space?).length) {first : Segment α}
    {rest : List (Segment α)} (hdrop : (spaceSegments space? ++ own).drop split = first :: rest) :
    ∃ space ∈ space?, first.args = [] ∧
      leadAt "" (spaceSegments space? ++ own) split ++ first.name ∈ Scope.spacesOutward space := by
  have hfirst : first ∈ spaceSegments (α := α) space? := by
    have hhead := congrArg List.head? hdrop
    rw [List.head?_drop, List.getElem?_append_left hsplit] at hhead
    exact List.mem_of_getElem? hhead
  cases space? with
  | none => cases hfirst
  | some space =>
    refine ⟨space, rfl, args_of_mem_spaceSegments hfirst, ?_⟩
    rw [leadAt_append hdrop, List.take_append_of_le_length hsplit, List.map_take,
      map_name_spaceSegments]
    refine mem_spacesOutward ?_
    rwa [← map_name_spaceSegments (α := α), List.length_map]

namespace Graph

variable {g : Graph}

/-- **An earlier split finds nothing**: it would take a namespace for a type. -/
theorem lookup_before_eq_none (hg : DeclName.Coherent g.names)
    (hspaces : DeclName.SpacesApart g.names) {n : DeclName} (hn : n ∈ g.names)
    {own : List (Segment α)}
    (hnames : ∀ x ∈ spaceSegments n.space ++ own, Text.isName x.name = true) {split : Nat}
    (hsplit : split < (spaceSegments (α := α) n.space).length) :
    (metadataAt? "" (spaceSegments n.space ++ own) split).bind g.find? = none := by
  rw [Option.eq_none_iff_forall_not_mem]
  intro d hd
  obtain ⟨text, htext, hfind⟩ := Option.bind_eq_some_iff.mp hd
  rw [← metadata_of_find? hfind] at htext
  have hdeclared : d.name ∈ g.names := mem_names_of_find? hfind
  have hlead : Text.Unmarked "".toList := Text.unmarked_nil
  have hlt : split < (spaceSegments n.space ++ own).length :=
    Nat.lt_of_lt_of_le hsplit (List.sublist_append_left _ _).length_le
  obtain ⟨first, rest, hdrop, hsteps⟩ :=
    steps_of_plain (hg.wellNamed _ hdeclared) hlead hnames hlt htext
  obtain ⟨space, hspace, hargs, houtward⟩ := space_of_split hsplit hdrop
  rw [hargs] at hsteps
  obtain ⟨outer, houter, hmetadata⟩ := hg.exists_metadata hdeclared hsteps
  exact hspaces n hn space hspace _ houtward outer houter hmetadata

theorem exists_find? (hg : DeclName.Coherent g.names) {n : DeclName} (hn : n ∈ g.names) :
    ∃ d, g.find? n.metadata = some d ∧ d.name = n := by
  obtain ⟨d, hd, rfl⟩ := List.mem_map.mp hn
  have hsome : (g.find? d.name.metadata).isSome = true := by
    rw [find?_eq, List.find?_isSome]
    exact ⟨d, hd, by simp [TypeDecl.metadata]⟩
  obtain ⟨d', hd'⟩ := Option.isSome_iff_exists.mp hsome
  exact ⟨d', hd', hg.distinct _ (mem_names_of_find? hd') _ hn (metadata_of_find? hd')⟩

/-- **A printed name finds its type.** -/
theorem lookupSplit?_segments (hg : DeclName.Coherent g.names) (hspaces : DeclName.SpacesApart g.names)
    {n : DeclName} (hn : n ∈ g.names) {args : List α} (hargs : n.totalArity ≤ args.length) :
    ∃ d, g.lookupSplit? (n.segments args) (n.segments args).length "" = some d ∧ d.name = n := by
  obtain ⟨d, hd, hname⟩ := exists_find? hg hn
  refine ⟨d, ?_, hname⟩
  have hbefore : ∀ split ∈ List.range (spaceSegments (α := α) n.space).length,
      (metadataAt? "" (n.segments args) split).bind g.find? = none := by
    intro split hsplit
    have hnames : ∀ x ∈ n.segments args, Text.isName x.name = true :=
      fun x hx => isName_of_mem_segments (hg.wellNamed n hn) hx
    rw [segments_eq] at hnames ⊢
    exact lookup_before_eq_none hg hspaces hn hnames (List.mem_range.mp hsplit)
  have hfound : (metadataAt? "" (n.segments args)
      (spaceSegments (α := α) n.space).length).bind g.find? = some d := by
    rw [metadataAt?_segments hargs, Option.bind_some, hd]
  obtain ⟨more, hlength⟩ : ∃ more, (n.segments args).length =
      (spaceSegments (α := α) n.space).length + (more + 1) := by
    have hpos := List.length_pos_iff.mpr (typeSegments_ne_nil args n)
    rw [segments_eq, List.length_append]
    exact ⟨_, congrArg _ (Nat.succ_pred_eq_of_pos hpos).symm⟩
  rw [lookupSplit?, hlength, List.range_add, List.findSome?_append,
    List.findSome?_eq_none_iff.mpr hbefore, Option.none_or, List.range_succ_eq_map, List.map_cons,
    List.findSome?_cons]
  simp only [Nat.add_zero, hfound]

end Graph

/-! ## Words -/

/-- Words that mean something by themselves. -/
def reservedWords : List String := ["void", "dynamic", "delegate"]

/-- **A type parameter that can be spelled**: its name is a name and no keyword. -/
def TypeVar.spellable (v : TypeVar) : Bool :=
  Text.isName v.name && !reservedWords.contains v.name && (Special.ofKeyword? v.name).isNone

theorem TypeVar.isName_of_spellable {v : TypeVar} (h : v.spellable = true) :
    Text.isName v.name = true ∧ v.name ≠ "delegate" := by
  simp only [spellable, reservedWords, Bool.and_eq_true, Bool.not_eq_true'] at h
  obtain ⟨⟨hname, hreserved⟩, -⟩ := h
  refine ⟨hname, fun hdelegate => ?_⟩
  rw [hdelegate] at hreserved
  cases hreserved

/-- **A scope whose type parameters can be spelled**, each by a name of its own. -/
structure Scope.Spellable (s : Scope) : Prop where
  distinct : ((s.type.vars ++ s.methodVars).map (·.name)).Nodup
  spellable : ∀ v ∈ s.type.vars ++ s.methodVars, v.spellable = true

namespace Scope

variable {s : Scope}

/-- **What the type parameters of a scope are taken for**: a printed name stands for the innermost
type parameter that has it. -/
def captures (s : Scope) : Ty.Subst :=
  (s.type.vars ++ s.methodVars).map fun v => (v, .var ((s.var? v.name).getD v))

/-- Every name of a type parameter in scope stands for one. -/
theorem exists_var? {v : TypeVar} (hv : v ∈ s.type.vars ++ s.methodVars) :
    ∃ w ∈ s.type.vars ++ s.methodVars, s.var? v.name = some w ∧ w.name = v.name := by
  have hmem : ∀ w, w ∈ s.methodVars ++ s.typeVars ↔ w ∈ s.type.vars ++ s.methodVars := by
    intro w
    rw [List.mem_append, List.mem_append, mem_typeVars, or_comm]
  have hsome : (s.var? v.name).isSome = true := by
    rw [var?, List.find?_isSome]
    exact ⟨v, (hmem v).mpr hv, beq_self_eq_true _⟩
  obtain ⟨w, hw⟩ := Option.isSome_iff_exists.mp hsome
  have hfind : (s.methodVars ++ s.typeVars).find? (·.name == v.name) = some w := hw
  exact ⟨w, (hmem w).mp (List.mem_of_find?_eq_some hfind), hw,
    by simpa using List.find?_some hfind⟩

theorem subst_captures_var {v w : TypeVar} (hv : v ∈ s.type.vars ++ s.methodVars)
    (hw : s.var? v.name = some w) : (Ty.var v).subst s.captures = .var w := by
  have hmem : (v, Ty.var w) ∈ s.captures :=
    List.mem_map.mpr ⟨v, hv, by rw [hw, Option.getD_some]⟩
  obtain ⟨u, hu⟩ := exists_lookup_of_mem hmem
  obtain ⟨v', -, heq⟩ := List.mem_map.mp (mem_of_lookup hu)
  obtain ⟨rfl, rfl⟩ := Prod.mk.inj heq
  rw [Ty.subst_var, hu, hw, Option.getD_some, Option.getD_some]

/-- The one type parameter of its name. -/
theorem var?_eq_some (hdistinct : ((s.type.vars ++ s.methodVars).map (·.name)).Nodup)
    {v : TypeVar} (hv : v ∈ s.type.vars ++ s.methodVars) : s.var? v.name = some v := by
  obtain ⟨w, hscope, hw, hname⟩ := exists_var? hv
  rw [hw, List.inj_on_of_nodup_map hdistinct hscope hv hname]

end Scope

namespace Graph

variable {g : Graph} {s : Scope}

theorem resolve_word {word : String} {t : Ty} (h : g.wordType? s word = some (.ok t)) :
    g.resolve s (Ty.wordSyntax word) = .ok t := by
  rw [Ty.wordSyntax, resolve]
  simp only [TypeSyntax.simpleName?, Option.bind_some, h]

theorem wordType?_of_keyword {special : Special} {word : String} {t : Ty}
    (hword : special.keyword? = some word) (ht : g.special? special = some t) :
    g.wordType? s word = some (.ok t) := by
  have hplain : Special.ofKeyword? word = some special ∧ word ≠ "void" ∧ word ≠ "dynamic" := by
    cases special <;> cases hword <;> decide
  obtain ⟨hof, hvoid, hdynamic⟩ := hplain
  unfold wordType?
  split
  · exact absurd rfl hvoid
  · exact absurd rfl hdynamic
  · simp only [hof, ht]

theorem wordType?_of_var {v w : TypeVar} (hspellable : v.spellable = true)
    (hw : s.var? v.name = some w) : g.wordType? s v.name = some (.ok (.var w)) := by
  simp only [TypeVar.spellable, reservedWords, Bool.and_eq_true, Bool.not_eq_true',
    Option.isNone_iff_eq_none] at hspellable
  obtain ⟨⟨-, hreserved⟩, hkeyword⟩ := hspellable
  unfold wordType?
  split
  · rename_i hvoid
    rw [hvoid] at hreserved
    cases hreserved
  · rename_i hdynamic
    rw [hdynamic] at hreserved
    cases hreserved
  · simp only [hkeyword, hw, Option.map_some]

/-! ## Types -/

/-- The arguments of the segments are those that the types along the chain take. -/
theorem flatMap_args_segments (n : DeclName) (args : List α) :
    (n.segments args).flatMap (·.args) = args.take n.totalArity := by
  induction n with
  | top space name params =>
    have hspace : (spaceSegments (α := α) space).flatMap (·.args) = [] :=
      List.flatMap_eq_nil_iff.mpr fun x => args_of_mem_spaceSegments
    rw [DeclName.segments, List.flatMap_append, hspace]
    simp [DeclName.totalArity]
  | nested outer name params ih =>
    rw [DeclName.segments, List.flatMap_append, ih, DeclName.totalArity, List.take_add]
    simp

/-- A special type takes no arguments and is found by its metadata name. -/
theorem special?_of_declared (hg : DeclName.Coherent g.names) {n : DeclName} (hn : n ∈ g.names)
    {special : Special} (h : n.special? = some special) :
    n.totalArity = 0 ∧ g.special? special = some (.plain n) := by
  have hmetadata : special.metadata = n.metadata := Special.metadata_of_ofMetadata? h
  refine ⟨DeclName.totalArity_of_unmarked (hmetadata ▸ special.unmarked_metadata), ?_⟩
  obtain ⟨d, hd, rfl⟩ := exists_find? hg hn
  rw [special?, hmetadata, hd, Option.map_some]

/-- The trees of types that are resolved as some types. -/
theorem forall₂_writtenList {ts : List Ty} {f : Ty → Ty}
    (h : ∀ t ∈ ts, g.resolve s t.written = .ok (f t)) :
    List.Forall₂ (fun written t => g.resolve s written = .ok t) (Ty.writtenList ts) (ts.map f) := by
  rw [Ty.writtenList_eq_map, List.forall₂_map_left_iff, List.forall₂_map_right_iff,
    List.forall₂_same]
  exact h

/-- **A dotted name from the global namespace is resolved as its type**, with what its arguments are
resolved as. -/
theorem resolve_segments (hg : DeclName.Coherent g.names) (hspaces : DeclName.SpacesApart g.names)
    {n : DeclName} (hn : n ∈ g.names) {args : List Ty} (harity : args.length = n.totalArity)
    {f : Ty → Ty} (h : ∀ a ∈ args, g.resolve s a.written = .ok (f a)) :
    g.resolve s (.name true (n.segments (Ty.writtenList args))) = .ok (.named n (args.map f)) := by
  have hlength : (Ty.writtenList args).length = n.totalArity := by
    rw [Ty.writtenList_eq_map, List.length_map, harity]
  obtain ⟨d, hd, rfl⟩ := lookupSplit?_segments hg hspaces hn hlength.ge
  have hlookup : g.lookup? s true (d.name.segments (Ty.writtenList args)) = some d := hd
  have hargs : g.resolveSegments s (d.name.segments (Ty.writtenList args)) = .ok (args.map f) := by
    rw [resolveSegments_eq_ok, flatMap_args_segments, ← hlength, List.take_length]
    exact forall₂_writtenList h
  have hcomplete : completeArgs d.name (args.map f) = args.map f := by
    rw [completeArgs, List.length_map, harity, Nat.sub_self]
    rfl
  rw [resolve]
  simp only [TypeSyntax.simpleName?, Option.bind_none, hlookup, hargs, hcomplete]

/-- **The tree of a well-formed type is resolved as the type** with the innermost type parameters of
their names. -/
theorem resolve_captured (hg : DeclName.Coherent g.names) (hspaces : DeclName.SpacesApart g.names)
    (hs : ∀ v ∈ s.type.vars ++ s.methodVars, v.spellable = true) {t : Ty}
    (h : t.WellFormed g.names (s.type.vars ++ s.methodVars)) :
    g.resolve s t.written = .ok (t.subst s.captures) := by
  induction h with
  | @named n args declared arity _ ih =>
    rw [Ty.subst_named]
    cases hword : n.special?.bind Special.keyword? with
    | some word =>
      obtain ⟨special, hspecial, hkeyword⟩ := Option.bind_eq_some_iff.mp hword
      obtain ⟨hzero, ht⟩ := special?_of_declared hg declared hspecial
      obtain rfl : args = [] := List.eq_nil_of_length_eq_zero (arity.trans hzero)
      simp only [Ty.written, hword]
      exact resolve_word (wordType?_of_keyword hkeyword ht)
    | none =>
      simp only [Ty.written, hword]
      exact resolve_segments hg hspaces declared arity ih
  | @array element rank _ pos _ ih =>
    rw [Ty.written, resolve, ih, Ty.subst_array]
    simp only [Nat.max_eq_left pos]
  | @var v inScope =>
    obtain ⟨w, -, hw, -⟩ := Scope.exists_var? inScope
    rw [Scope.subst_captures_var inScope hw]
    exact resolve_word (wordType?_of_var (hs v inScope) hw)
  | pointer _ ih =>
    rw [Ty.written, resolve, ih, Ty.subst_pointer]
  | fnptr _ _ hparams hret =>
    have hlist := resolveList_eq_ok.mpr (forall₂_writtenList hparams)
    rw [Ty.written, resolve, hlist, Ty.subst_fnptr]
    simp only [hret]
  | void => exact resolve_word rfl
  | dynamic => exact resolve_word rfl

end Graph

theorem map_eq_self_iff {f : α → α} {as : List α} : as.map f = as ↔ ∀ a ∈ as, f a = a := by
  have hid := List.map_inj_left (l := as) (f := f) (g := id)
  rwa [List.map_id] at hid

/-- **A type stays the same** exactly if each type parameter that it mentions is the innermost one
of its name. -/
theorem Ty.WellFormed.subst_captures_iff {names : List DeclName} {s : Scope} {t : Ty}
    (h : t.WellFormed names (s.type.vars ++ s.methodVars)) :
    t.subst s.captures = t ↔ ∀ v ∈ t.vars, s.var? v.name = some v := by
  induction h with
  | @named n args _ _ _ ih =>
    rw [subst_named, Ty.named.injEq, map_eq_self_iff, and_iff_right rfl, forall₂_congr ih]
    simp only [mem_vars_named]
    constructor
    · rintro h v ⟨a, ha, hv⟩
      exact h a ha v hv
    · exact fun h a ha v hv => h v ⟨a, ha, hv⟩
  | array _ _ _ ih => simpa [mem_vars_array] using ih
  | @var v inScope =>
    obtain ⟨w, -, hw, -⟩ := Scope.exists_var? inScope
    rw [Scope.subst_captures_var inScope hw]
    simp [mem_vars_var, hw]
  | pointer _ ih => simpa [mem_vars_pointer] using ih
  | fnptr _ _ hparams hret =>
    rw [subst_fnptr, Ty.fnptr.injEq, map_eq_self_iff, forall₂_congr hparams, hret]
    simp only [mem_vars_fnptr]
    constructor
    · rintro ⟨hps, hr⟩ v (⟨q, hq, hv⟩ | hv)
      · exact hps q hq v hv
      · exact hr v hv
    · exact fun h => ⟨fun q hq v hv => h v (.inl ⟨q, hq, hv⟩), fun v hv => h v (.inr hv)⟩
  | void | dynamic => exact iff_of_true rfl (List.forall_mem_nil _)

/-- **The tree of a well-formed type is resolved as the type**, if all names in scope differ. -/
theorem Graph.resolve_written {g : Graph} {s : Scope} (hg : DeclName.Coherent g.names)
    (hspaces : DeclName.SpacesApart g.names) (hs : s.Spellable) {t : Ty}
    (h : t.WellFormed g.names (s.type.vars ++ s.methodVars)) : g.resolve s t.written = .ok t := by
  have hsame : t.subst s.captures = t := h.subst_captures_iff.mpr fun v hv =>
    Scope.var?_eq_some hs.distinct (h.mem_vars hv)
  rw [resolve_captured hg hspaces hs.spellable h, hsame]

/-- **Printed types denote the types they were printed from.**  In a program made of names whose
namespaces are no types, the text of a type that is well formed in a scope is read and resolved
there as the type itself, as long as the type parameters in scope can be spelled and the text nests
no deeper than a reference may.  The scope of a method is such a scope. -/
theorem bindType_source {docs : List GraphDocument} {g : Graph} (h : load docs = .ok g)
    (hnames : ∀ doc ∈ docs, ∀ e ∈ doc.entries, e.name.wellNamed = true)
    (hspaces : DeclName.SpacesApart g.names) {s : Scope} (hs : s.Spellable) (context : String)
    {t : Ty} (ht : t.WellFormed g.names (s.type.vars ++ s.methodVars))
    (hnesting : t.nesting ≤ TypeReader.maxNesting) : g.bindType s context t.source = .ok t := by
  have hcoherent : DeclName.Coherent g.names := coherent_of_load h hnames
  have hread : TypeSyntax.read t.source = .ok t.written :=
    ht.read_source hcoherent.wellNamed
      (fun v hv => TypeVar.isName_of_spellable (hs.spellable v hv)) hnesting
  have hresolve : g.resolve s t.written = .ok t := Graph.resolve_written hcoherent hspaces hs ht
  rw [Graph.bindType, hread]
  simp only [hresolve]

namespace Shelf

/-- A function pointer that takes arrays of boxes of the method's items. -/
def callback : Ty := .fnptr [.array (.array (boxOf item) 2) 1] (.pointer .void)

theorem wellFormed_callback {names : List DeclName} (hbox : box ∈ names) :
    callback.WellFormed names (box.vars ++ [⟨.method ⟨box, 0⟩, 0, "T"⟩]) := by
  have hboxes : (boxOf item).WellFormed names (box.vars ++ [⟨.method ⟨box, 0⟩, 0, "T"⟩]) := by
    refine .named hbox rfl (List.forall_mem_cons.mpr ⟨.var ?_, List.forall_mem_singleton.mpr
      (.var ?_)⟩) <;> decide
  exact .fnptr (List.forall_mem_singleton.mpr
    (.array (.array hboxes (by decide) (by decide)) (by decide) (by decide))) (.pointer .void)

end Shelf

/-- A function pointer as it is printed in the box's method. -/
theorem bindType_source_shelf : Shelf.callback.source =
      "delegate*<global::Shop.Shelf<A>.Box<T>[][,], void*>" ∧
    ∃ g, load Shelf.docs = .ok g ∧
      g.bindType ⟨Shelf.box, [⟨.method ⟨Shelf.box, 0⟩, 0, "T"⟩], []⟩ ""
        Shelf.callback.source = .ok Shelf.callback := by
  have hcheck : Shelf.check Shelf.docs = true := by decide +kernel
  have hnames : ∀ doc ∈ Shelf.docs, ∀ e ∈ doc.entries, e.name.wellNamed = true := by
    decide +kernel
  have hspaces : DeclName.SpacesApart ((loadedEntries Shelf.docs).map (·.name)) := by
    unfold DeclName.SpacesApart
    decide +kernel
  have hbox : Shelf.box ∈ (loadedEntries Shelf.docs).map (·.name) := by decide +kernel
  obtain ⟨g, hload, -⟩ := Shelf.exists_of_check hcheck
  rw [← names_of_load hload] at hspaces hbox
  refine ⟨by decide +kernel, g, hload, bindType_source hload hnames hspaces ⟨?_, ?_⟩ ""
    (Shelf.wellFormed_callback hbox) (by decide)⟩ <;> decide

end LateBridge
