import LateBridge.Proofs.Symbols.BaseChain
import LateBridge.Proofs.Symbols.Metadata

/-!
# Proofs/Document/Lookup — what a dotted name finds

A reference is looked for under metadata names put together from its segments, and the type that is
found has such a name.  Since a metadata name determines its steps, the arguments written in the
reference are as many as the type takes, except for those of the types around it where the search
starts from an enclosing type; and these are then types around the reference too
(`Graph.missing_of_lookup?`).
-/

namespace LateBridge

open DeclName (stepText)

/-! ## Names of a program -/

/-- **The names of the types of a program**: made of names, with one metadata name each, and with
the types around each of them. -/
structure DeclName.Coherent (names : List DeclName) : Prop where
  wellNamed : ∀ n ∈ names, n.wellNamed = true
  distinct : ∀ m ∈ names, ∀ n ∈ names, m.metadata = n.metadata → m = n
  around : ∀ n ∈ names, ∀ outer ∈ n.chain, outer ∈ names

/-- The names of the declared types. -/
def Graph.names (g : Graph) : List DeclName := g.decls.map (·.name)

/-! ## Segments -/

/-- The step that a segment is looked for as. -/
def Segment.step {α : Type} (segment : Segment α) : String × Nat :=
  (segment.name, segment.args.length)

/-- The number of arguments in a dotted name. -/
def argCount {α : Type} (segments : List (Segment α)) : Nat :=
  (segments.flatMap (·.args)).length

variable {α : Type} {segments : List (Segment α)} {lead : String} {split : Nat}

theorem sum_segment_steps (segments : List (Segment α)) :
    ((segments.map Segment.step).map Prod.snd).sum = argCount segments := by
  rw [argCount, List.length_flatMap, List.map_map]
  rfl

theorem argCount_split (h : ∀ x ∈ segments.take split, x.args = []) :
    argCount (segments.drop split) = argCount segments := by
  conv_rhs => rw [← List.take_append_drop split segments]
  rw [argCount, argCount, List.flatMap_append, List.flatMap_eq_nil_iff.mpr h, List.nil_append]

/-- What stands before the first step at a split. -/
def leadAt {α : Type} (lead : String) (segments : List (Segment α)) (split : Nat) : String :=
  lead ++ String.join ((segments.take split).map (·.name ++ "."))

/-- **A candidate**: the segments behind the split are steps, and those before it take no
arguments. -/
theorem metadataAt?_eq_some {text : String} : metadataAt? lead segments split = some text ↔
    (∀ x ∈ segments.take split, x.args = []) ∧ leadAt lead segments split ++
      "+".intercalate (((segments.drop split).map Segment.step).map stepText) = text := by
  have hargs : (segments.take split).any (!·.args.isEmpty) = true ↔
      ¬ ∀ x ∈ segments.take split, x.args = [] := by
    simp
  rw [metadataAt?]
  by_cases h : ∀ x ∈ segments.take split, x.args = []
  · rw [if_neg (mt hargs.mp (not_not_intro h)), Option.some.injEq, List.map_map]
    exact (and_iff_right h).symm
  · rw [if_pos (hargs.mpr h)]
    exact ⟨fun hnone => (nomatch hnone), fun hsome => absurd hsome.1 h⟩

/-- A prefix of the first step is a part of its stem. -/
theorem prefix_intercalate (pre : String) (step : String × Nat) (steps : List (String × Nat)) :
    pre ++ "+".intercalate ((step :: steps).map stepText) =
      "+".intercalate (((pre ++ step.1, step.2) :: steps).map stepText) := by
  rw [List.map_cons, List.map_cons, ← String.intercalate_cons_append]
  simp only [stepText, String.append_assoc]

theorem unmarked_join (h : ∀ x ∈ segments, Text.isName x.name = true) :
    Text.Unmarked (String.join (segments.map (·.name ++ "."))).toList := by
  induction segments with
  | nil => exact Text.unmarked_nil
  | cons x segments ih =>
    obtain ⟨hx, hmore⟩ := List.forall_mem_cons.mp h
    have hdot : Text.Unmarked ".".toList := by simp [Text.Unmarked]
    rw [List.map_cons, String.join_cons, String.toList_append, String.toList_append]
    exact ((Text.unmarked_of_isName hx).append hdot).append (ih hmore)

theorem unmarked_leadAt (hlead : Text.Unmarked lead.toList)
    (h : ∀ x ∈ segments, Text.isName x.name = true) (split : Nat) :
    Text.Unmarked (leadAt lead segments split).toList := by
  rw [leadAt, String.toList_append]
  exact hlead.append (unmarked_join fun x hx => h x (List.mem_of_mem_take hx))

theorem unmarked_segments (h : ∀ x ∈ segments, Text.isName x.name = true) :
    ∀ step ∈ segments.map Segment.step, Text.Unmarked step.1.toList :=
  List.forall_mem_map.mpr fun x hx => Text.unmarked_of_isName (h x hx)

/-- **Behind a plain lead** the segments are the whole path, and all arguments are written. -/
theorem steps_of_plain {n : DeclName} (hn : n.wellNamed = true) (hlead : Text.Unmarked lead.toList)
    (hnames : ∀ x ∈ segments, Text.isName x.name = true) (hsplit : split < segments.length)
    (h : metadataAt? lead segments split = some n.metadata) :
    ∃ first rest, segments.drop split = first :: rest ∧
      n.steps = (leadAt lead segments split ++ first.name, first.args.length) ::
        rest.map Segment.step := by
  obtain ⟨-, htext⟩ := metadataAt?_eq_some.mp h
  have hdrop : segments.drop split = segments[split] :: segments.drop (split + 1) :=
    List.drop_eq_getElem_cons hsplit
  refine ⟨_, _, hdrop, ?_⟩
  rw [hdrop, List.map_cons, prefix_intercalate, DeclName.metadata_eq] at htext
  have hunmarked : ∀ step ∈ (leadAt lead segments split ++ segments[split].name,
      segments[split].args.length) :: (segments.drop (split + 1)).map Segment.step,
      Text.Unmarked step.1.toList := by
    refine List.forall_mem_cons.mpr ⟨?_, unmarked_segments fun x hx =>
      hnames x (List.mem_of_mem_drop hx)⟩
    rw [String.toList_append]
    exact (unmarked_leadAt hlead hnames split).append
      (Text.unmarked_of_isName (hnames _ (List.getElem_mem hsplit)))
  exact (DeclName.steps_injective hunmarked (DeclName.unmarked_steps hn) (by simp)
    n.steps_ne_nil htext).symm

theorem totalArity_of_plain {n : DeclName} (hn : n.wellNamed = true)
    (hlead : Text.Unmarked lead.toList) (hnames : ∀ x ∈ segments, Text.isName x.name = true)
    (hsplit : split < segments.length) (h : metadataAt? lead segments split = some n.metadata) :
    n.totalArity = argCount segments := by
  obtain ⟨first, rest, hdrop, hsteps⟩ := steps_of_plain hn hlead hnames hsplit h
  obtain ⟨hargs, -⟩ := metadataAt?_eq_some.mp h
  have hsum : ((segments.drop split).map Segment.step).map Prod.snd = n.steps.map Prod.snd := by
    rw [hdrop, hsteps]
    rfl
  rw [← DeclName.sum_steps, ← hsum, sum_segment_steps, argCount_split hargs]

/-- **Behind an enclosing type** the segments go on from its path. -/
theorem steps_of_nested {n around : DeclName} (hn : n.wellNamed = true)
    (haround : around.wellNamed = true) (hnames : ∀ x ∈ segments, Text.isName x.name = true)
    (hne : segments ≠ []) (h : metadataAt? (around.metadata ++ "+") segments 0 = some n.metadata) :
    n.steps = around.steps ++ segments.map Segment.step := by
  obtain ⟨-, htext⟩ := metadataAt?_eq_some.mp h
  have hpath : "+".intercalate ((around.steps ++ segments.map Segment.step).map stepText) =
      "+".intercalate (n.steps.map stepText) := by
    rw [← DeclName.metadata_eq, ← htext, List.map_append, String.intercalate_append_of_ne_nil
      (by simpa using around.steps_ne_nil) (by simpa using hne), ← DeclName.metadata_eq]
    simp [leadAt]
  have hunmarked : ∀ step ∈ around.steps ++ segments.map Segment.step,
      Text.Unmarked step.1.toList :=
    List.forall_mem_append.mpr ⟨DeclName.unmarked_steps haround, unmarked_segments hnames⟩
  exact (DeclName.steps_injective hunmarked (DeclName.unmarked_steps hn)
    (by simp [around.steps_ne_nil]) n.steps_ne_nil hpath).symm

/-! ## The search -/

namespace Graph

variable {g : Graph} {s : Scope}

/-- A type that is found has a name that was looked for. -/
theorem exists_split_of_lookupSplit? {splits : Nat} {d : TypeDecl}
    (h : g.lookupSplit? segments splits lead = some d) :
    d.name ∈ g.names ∧ ∃ split < splits, metadataAt? lead segments split = some d.name.metadata := by
  obtain ⟨split, hsplit, hfind⟩ := List.exists_of_findSome?_eq_some h
  obtain ⟨text, htext, hd⟩ := Option.bind_eq_some_iff.mp hfind
  refine ⟨List.mem_map_of_mem (mem_decls_of_find? hd), split, List.mem_range.mp hsplit, ?_⟩
  rw [htext, metadata_of_find? hd]

/-- A name found from the global namespace, an enclosing one or an imported one is written with all
its arguments. -/
theorem totalArity_of_lookupSplit? (hg : DeclName.Coherent g.names)
    (hnames : ∀ x ∈ segments, Text.isName x.name = true) (hlead : Text.Unmarked lead.toList)
    {splits : Nat} (hsplits : splits ≤ segments.length) {d : TypeDecl}
    (h : g.lookupSplit? segments splits lead = some d) :
    d.name ∈ g.names ∧ d.name.totalArity = argCount segments := by
  obtain ⟨hd, split, hsplit, hmetadata⟩ := exists_split_of_lookupSplit? h
  exact ⟨hd, totalArity_of_plain (hg.wellNamed _ hd) hlead hnames
    (Nat.lt_of_lt_of_le hsplit hsplits) hmetadata⟩

/-- A name found from an enclosing type is that of a type inside it. -/
theorem around_of_lookupSplit? (hg : DeclName.Coherent g.names)
    (hnames : ∀ x ∈ segments, Text.isName x.name = true) (hne : segments ≠ [])
    {around : DeclName} (haround : around ∈ g.names) {d : TypeDecl}
    (h : g.lookupSplit? segments 1 (around.metadata ++ "+") = some d) :
    d.name ∈ g.names ∧ around ∈ d.name.chain ∧
      d.name.totalArity = around.totalArity + argCount segments := by
  obtain ⟨hd, split, hsplit, hmetadata⟩ := exists_split_of_lookupSplit? h
  obtain rfl : split = 0 := Nat.lt_one_iff.mp hsplit
  have hsteps : d.name.steps = around.steps ++ segments.map Segment.step :=
    steps_of_nested (hg.wellNamed _ hd) (hg.wellNamed _ haround) hnames hne hmetadata
  obtain ⟨outer, houter, hpath⟩ := DeclName.exists_chain_of_steps hsteps around.steps_ne_nil
  have hsame : outer = around :=
    hg.distinct outer (hg.around _ hd outer houter) around haround
      (by rw [DeclName.metadata_eq, DeclName.metadata_eq, hpath])
  refine ⟨hd, hsame ▸ houter, ?_⟩
  rw [← DeclName.sum_steps, hsteps, List.map_append, List.sum_append, DeclName.sum_steps,
    sum_segment_steps]

end Graph

/-! ## Scopes -/

namespace DeclName

theorem isDotted_space {n : DeclName} (h : n.wellNamed = true) {space : String}
    (hspace : n.space = some space) : Text.isDotted space = true := by
  induction n with
  | top own name params =>
    obtain rfl : own = some space := hspace
    exact (Bool.and_eq_true_iff.mp h).1
  | nested outer name params ih => exact ih (Bool.and_eq_true_iff.mp h).1 hspace

end DeclName

theorem unmarked_intercalate {names : List String}
    (h : ∀ name ∈ names, Text.isName name = true) :
    Text.Unmarked (".".intercalate names).toList := by
  induction names with
  | nil => simp [Text.Unmarked]
  | cons name names ih =>
    obtain ⟨hname, hmore⟩ := List.forall_mem_cons.mp h
    rcases names with _ | ⟨next, names⟩
    · simpa using Text.unmarked_of_isName hname
    · have hdot : Text.Unmarked ".".toList := by simp [Text.Unmarked]
      rw [String.intercalate_cons_cons, String.toList_append, String.toList_append]
      exact ((Text.unmarked_of_isName hname).append hdot).append (ih hmore)

theorem isName_of_isDotted {space : String} (h : Text.isDotted space = true) :
    ∀ part ∈ (Scope.dotParts space.toList).map String.ofList, Text.isName part = true :=
  List.forall_mem_map.mpr (List.all_eq_true.mp h)

/-- The namespaces around a dotted one hold no marks. -/
theorem unmarked_spacesOutward {space outer : String} (h : Text.isDotted space = true)
    (houter : outer ∈ Scope.spacesOutward space) : Text.Unmarked outer.toList := by
  rw [Scope.spacesOutward, List.mem_reverse] at houter
  obtain ⟨k, -, rfl⟩ := List.mem_map.mp houter
  exact unmarked_intercalate fun part hpart =>
    isName_of_isDotted h part (List.mem_of_mem_take hpart)

theorem unmarked_withDot {space : String} (h : Text.Unmarked space.toList) :
    Text.Unmarked (space ++ ".").toList := by
  rw [String.toList_append]
  exact h.append (by simp [Text.Unmarked])

theorem Scope.unmarked_spaceLeads {names : List DeclName} {s : Scope} (hs : s.type ∈ names)
    (hg : DeclName.Coherent names) {lead : String} (hlead : lead ∈ s.spaceLeads) :
    Text.Unmarked lead.toList := by
  rw [spaceLeads] at hlead
  obtain hspace | hglobal := List.mem_append.mp hlead
  · split at hspace
    · rename_i space htype
      obtain ⟨outer, houter, rfl⟩ := List.mem_map.mp hspace
      have hdotted := DeclName.isDotted_space (hg.wellNamed _ hs) htype
      exact unmarked_withDot (unmarked_spacesOutward hdotted houter)
    · cases hspace
  · obtain rfl := List.mem_singleton.mp hglobal
    exact Text.unmarked_nil

/-- Only in an import without marks is anything found. -/
theorem Scope.unmarked_usingLeads {s : Scope} (hlead : lead ∈ s.usingLeads) {n : DeclName}
    (hn : n.wellNamed = true) (h : metadataAt? lead segments split = some n.metadata) :
    Text.Unmarked lead.toList := by
  obtain ⟨space, -, rfl⟩ := List.mem_map.mp hlead
  obtain ⟨-, htext⟩ := metadataAt?_eq_some.mp h
  have hdot (rest : String) :
      (space ++ "." ++ rest).toList = space.toList ++ '.' :: rest.toList := by
    simp
  have hlist := congrArg String.toList htext
  rw [leadAt, String.append_assoc, hdot] at hlist
  exact unmarked_withDot (DeclName.unmarked_before_dot hn hlist.symm)

namespace Graph

variable {g : Graph} {s : Scope}

/-- **The arguments that are not written** are those of an enclosing type that is also around the
reference. -/
theorem missing_of_lookup? (hg : DeclName.Coherent g.names) (hs : s.type ∈ g.names)
    (hnames : ∀ x ∈ segments, Text.isName x.name = true) (hne : segments ≠ []) {rooted : Bool}
    {d : TypeDecl} (h : g.lookup? s rooted segments = some d) :
    d.name ∈ g.names ∧ ∃ missing, d.name.totalArity = missing + argCount segments ∧
      ∀ v ∈ d.name.vars.take missing, v ∈ s.type.vars := by
  have hone : 1 ≤ segments.length := List.length_pos_iff.mpr hne
  -- Where the search does not start from a type, nothing is missing.
  have hwhole : ∀ {lead splits}, Text.Unmarked lead.toList → splits ≤ segments.length →
      g.lookupSplit? segments splits lead = some d →
      d.name ∈ g.names ∧ ∃ missing, d.name.totalArity = missing + argCount segments ∧
        ∀ v ∈ d.name.vars.take missing, v ∈ s.type.vars := by
    intro lead splits hlead hsplits hfind
    obtain ⟨hd, harity⟩ := totalArity_of_lookupSplit? hg hnames hlead hsplits hfind
    exact ⟨hd, 0, by rw [harity, Nat.zero_add], by simp⟩
  have hglobal : Text.Unmarked "".toList := Text.unmarked_nil
  rw [lookup?] at h
  split at h
  · exact hwhole hglobal (Nat.le_refl _) h
  obtain htype | ⟨-, h⟩ := Option.or_eq_some_iff.mp h
  · obtain ⟨lead, hlead, hfind⟩ := List.exists_of_findSome?_eq_some htype
    obtain ⟨around, haround, rfl⟩ := List.mem_map.mp hlead
    rw [List.mem_reverse] at haround
    obtain ⟨hd, hchain, harity⟩ := around_of_lookupSplit? hg hnames hne
      (hg.around _ hs around haround) hfind
    refine ⟨hd, around.totalArity, harity, ?_⟩
    rw [DeclName.take_vars_of_mem_chain hchain]
    exact fun v hv => (DeclName.prefix_vars_of_mem_chain haround).subset hv
  obtain hspace | ⟨-, husing⟩ := Option.or_eq_some_iff.mp h
  · obtain ⟨lead, hlead, hfind⟩ := List.exists_of_findSome?_eq_some hspace
    exact hwhole (s.unmarked_spaceLeads hs hg hlead) (Nat.le_refl _) hfind
  · obtain ⟨lead, hlead, hfind⟩ := List.exists_of_findSome?_eq_some husing
    obtain ⟨hd, split, -, hmetadata⟩ := exists_split_of_lookupSplit? hfind
    exact hwhole (Scope.unmarked_usingLeads hlead (hg.wellNamed _ hd) hmetadata) hone hfind

end Graph

end LateBridge
