import LateBridge.Proofs.Syntax.Reading

/-!
# Proofs/Syntax/TypeReferences — the type references that can be read

    text ──TypeSyntax.read──▸ tree ⟺ the grammar derives the tree from tokens the text spells

What the grammar derives is `Writable`, and every writable tree is derived.  For arrays the way back
is not compositional: a rank goes in front of the ranks that stand at the end of the element's
suffixes.  A tree is therefore taken apart into arrays over a core that is none (`Spelled`), and the
core says how it goes on with further ranks.
-/

namespace LateBridge

open TypeGrammar

variable {T : List TypeToken → TypeSyntax → Prop}

/-! ## What is derived can be written -/

namespace TypeSyntax

theorem Writable.arrays {depth : Nat} {element : TypeSyntax} (h : Writable depth element)
    {ranks : List Nat} (hranks : ∀ r ∈ ranks, (TypeSuffix.rank r).InRange) :
    Writable depth (element.arrays ranks) := by
  induction ranks with
  | nil => exact h
  | cons r ranks ih =>
    obtain ⟨⟨pos, le⟩, hranks⟩ := List.forall_mem_cons.mp hranks
    exact .array (ih hranks) pos le

theorem Writable.suffixedFrom {depth : Nat} {base : TypeSyntax} (h : Writable depth base)
    {run : List Nat} {suffixes : List TypeSuffix}
    (hrun : ∀ r ∈ run, (TypeSuffix.rank r).InRange) (hrange : ∀ x ∈ suffixes, x.InRange) :
    Writable depth (base.suffixedFrom run suffixes) := by
  induction suffixes generalizing run base with
  | nil => exact h.arrays hrun
  | cons x suffixes ih =>
    obtain ⟨hx, hmore⟩ := List.forall_mem_cons.mp hrange
    cases x with
    | nullable => exact ih (.nullable (h.arrays hrun)) (by simp) hmore
    | pointer => exact ih (.pointer (h.arrays hrun)) (by simp) hmore
    | rank r =>
      refine ih h (List.forall_mem_append.mpr ⟨hrun, ?_⟩) hmore
      exact List.forall_mem_singleton.mpr hx

end TypeSyntax

namespace TypeGrammar

/-- Every type of a list is derived. -/
theorem Types.exists_of_mem {tokens : List TypeToken} {types : List TypeSyntax}
    (h : Types T tokens types) {type : TypeSyntax} (hmem : type ∈ types) :
    ∃ own, T own type := by
  induction h with
  | one h =>
    obtain rfl := List.mem_singleton.mp hmem
    exact ⟨_, h⟩
  | cons h _ ih =>
    obtain rfl | hmem := List.mem_cons.mp hmem
    · exact ⟨_, h⟩
    · exact ih hmem

theorem Arguments.exists_of_mem {tokens : List TypeToken} {args : List TypeSyntax}
    (h : Arguments T tokens args) {type : TypeSyntax} (hmem : type ∈ args) :
    ∃ own, T own type := by
  cases h with
  | none => cases hmem
  | some h => exact h.exists_of_mem hmem

theorem DottedName.forall_segment {tokens : List TypeToken} {list : List (Segment TypeSyntax)}
    (h : DottedName T tokens list) : ∀ x ∈ list, ∃ own, NameSegment T own x := by
  induction h with
  | one h => exact List.forall_mem_singleton.mpr ⟨_, h⟩
  | cons h _ ih => exact List.forall_mem_cons.mpr ⟨⟨_, h⟩, ih⟩

theorem DottedName.ne_nil {tokens : List TypeToken} {list : List (Segment TypeSyntax)}
    (h : DottedName T tokens list) : list ≠ [] := by
  cases h <;> simp

/-- Names of writable types are writable one level further out. -/
theorem DottedName.writable {depth : Nat} (hT : ∀ tokens type, T tokens type → type.Writable depth)
    {tokens : List TypeToken} {list : List (Segment TypeSyntax)} (h : DottedName T tokens list)
    (rooted : Bool) : (TypeSyntax.name rooted list).Writable (depth + 1) := by
  refine .name h.ne_nil (fun x hx => ?_) (fun x hx a ha => ?_)
  · obtain ⟨own, hname⟩ := h.forall_segment x hx
    obtain ⟨hid, -⟩ := hname
    exact hid.1
  · obtain ⟨own, hname⟩ := h.forall_segment x hx
    obtain ⟨-, hargs⟩ := hname
    obtain ⟨tokens, hderives⟩ := hargs.exists_of_mem ha
    exact hT tokens a hderives

theorem Primary.writable {depth : Nat} (hT : ∀ tokens type, T tokens type → type.Writable depth)
    {tokens : List TypeToken} {type : TypeSyntax} (h : Primary T tokens type) :
    type.Writable (depth + 1) := by
  cases h with
  | name h _ => exact h.writable hT false
  | rooted h => exact h.writable hT true
  | @fnptr _ _ params ret _ hs =>
    have hall : ∀ t ∈ params ++ [ret], TypeSyntax.Writable depth t := by
      intro t ht
      obtain ⟨own, hderives⟩ := hs.exists_of_mem ht
      exact hT own t hderives
    obtain ⟨hparams, hret⟩ := List.forall_mem_append.mp hall
    exact .fnptr hparams (hret _ List.mem_cons_self)

/-- **What is derived can be written.** -/
theorem IsType.writable {depth : Nat} {tokens : List TypeToken} {type : TypeSyntax}
    (h : IsType depth tokens type) : type.Writable depth := by
  induction depth generalizing tokens type with
  | zero => exact h.elim
  | succ depth ih =>
    obtain ⟨list, hprimary, hrange⟩ := h
    exact (hprimary.writable fun _ _ => ih).suffixedFrom (by simp) hrange

end TypeGrammar

/-! ## What can be written is derived -/

/-- Proper tokens derive something. -/
def Derived {α : Type} (P : List TypeToken → α → Prop) (a : α) : Prop :=
  ∃ tokens, P tokens a ∧ ∀ token ∈ tokens, token.Proper

namespace Derived

theorem mark_cons {c : Char} {tokens : List TypeToken} (hc : Text.isBlank c = false)
    (h : ∀ token ∈ tokens, token.Proper) : ∀ token ∈ .mark c :: tokens, token.Proper :=
  List.forall_mem_cons.mpr ⟨hc, h⟩

theorem suffix (x : TypeSuffix) : ∀ token ∈ x.tokens, token.Proper := by
  cases x with
  | nullable | pointer => exact mark_cons (by decide) (by simp)
  | rank r =>
    have hcommas : ∀ token ∈ List.replicate (r - 1) (TypeToken.mark ','), token.Proper := by
      intro token htoken
      have hcomma : Text.isBlank ',' = false := by decide
      rw [List.eq_of_mem_replicate htoken]
      exact hcomma
    exact mark_cons (by decide) (List.forall_mem_append.mpr
      ⟨hcommas, mark_cons (by decide) (by simp)⟩)

theorem types {types : List TypeSyntax} (hne : types ≠ []) (h : ∀ t ∈ types, Derived T t) :
    Derived (Types T) types := by
  induction types with
  | nil => exact absurd rfl hne
  | cons t types ih =>
    obtain ⟨⟨tokens, ht, hproper⟩, hmore⟩ := List.forall_mem_cons.mp h
    rcases types with _ | ⟨t', types⟩
    · exact ⟨tokens, .one ht, hproper⟩
    · obtain ⟨more, hderives, hproperMore⟩ := ih (by simp) hmore
      exact ⟨_, .cons ht hderives,
        List.forall_mem_append.mpr ⟨hproper, mark_cons (by decide) hproperMore⟩⟩

/-- Types in brackets. -/
theorem bracketed {tokens : List TypeToken} (h : ∀ token ∈ tokens, token.Proper) :
    ∀ token ∈ .mark '<' :: (tokens ++ [.mark '>']), token.Proper :=
  mark_cons (by decide) (List.forall_mem_append.mpr ⟨h, mark_cons (by decide) (by simp)⟩)

theorem arguments {args : List TypeSyntax} (h : ∀ a ∈ args, Derived T a) :
    Derived (Arguments T) args := by
  rcases args with _ | ⟨a, args⟩
  · exact ⟨[], .none, by simp⟩
  · obtain ⟨tokens, hderives, hproper⟩ := types (by simp) h
    exact ⟨_, .some hderives, bracketed hproper⟩

/-- An `@` in front of a name keeps it from being a keyword. -/
theorem segment {segment : Segment TypeSyntax} (hname : Text.isName segment.name = true)
    (h : ∀ a ∈ segment.args, Derived T a) : ∃ tokens,
      NameSegment T (.escaped segment.name :: tokens) segment ∧ ∀ token ∈ tokens, token.Proper := by
  obtain ⟨tokens, hderives, hproper⟩ := arguments h
  exact ⟨tokens, .mk ⟨hname, .inr rfl⟩ hderives, hproper⟩

theorem dottedName {list : List (Segment TypeSyntax)} (hne : list ≠ [])
    (names : ∀ x ∈ list, Text.isName x.name = true)
    (args : ∀ x ∈ list, ∀ a ∈ x.args, Derived T a) : ∃ name tokens,
      DottedName T (.escaped name :: tokens) list ∧ Text.isName name = true ∧
        ∀ token ∈ tokens, token.Proper := by
  induction list with
  | nil => exact absurd rfl hne
  | cons x list ih =>
    obtain ⟨hname, hnames⟩ := List.forall_mem_cons.mp names
    obtain ⟨hargs, hmore⟩ := List.forall_mem_cons.mp args
    obtain ⟨tokens, hsegment, hproper⟩ := segment hname hargs
    rcases list with _ | ⟨y, list⟩
    · exact ⟨x.name, tokens, .one hsegment, hname, hproper⟩
    · obtain ⟨name, more, hderives, hnext, hproperMore⟩ := ih (by simp) hnames hmore
      refine ⟨x.name, _, .cons hsegment hderives, hname, ?_⟩
      have hnextMore : ∀ token ∈ TypeToken.escaped name :: more, token.Proper :=
        List.forall_mem_cons.mpr ⟨hnext, hproperMore⟩
      exact List.forall_mem_append.mpr ⟨hproper, mark_cons (by decide) hnextMore⟩

theorem name {list : List (Segment TypeSyntax)} (rooted : Bool) (hne : list ≠ [])
    (names : ∀ x ∈ list, Text.isName x.name = true)
    (args : ∀ x ∈ list, ∀ a ∈ x.args, Derived T a) :
    Derived (Primary T) (.name rooted list) := by
  obtain ⟨name, tokens, hderives, hname, hproper⟩ := dottedName hne names args
  have hall : ∀ token ∈ TypeToken.escaped name :: tokens, token.Proper :=
    List.forall_mem_cons.mpr ⟨hname, hproper⟩
  cases rooted with
  | false => exact ⟨_, .name hderives (by simp), hall⟩
  | true => exact ⟨_, .rooted hderives, List.forall_mem_cons.mpr ⟨trivial, hall⟩⟩

theorem fnptr {params : List TypeSyntax} {ret : TypeSyntax} (hparams : ∀ p ∈ params, Derived T p)
    (hret : Derived T ret) : Derived (Primary T) (.fnptr params ret) := by
  have hall : ∀ t ∈ params ++ [ret], Derived T t :=
    List.forall_mem_append.mpr ⟨hparams, List.forall_mem_singleton.mpr hret⟩
  obtain ⟨tokens, hderives, hproper⟩ := types (by simp) hall
  have hword : Text.isName "delegate" = true := by decide
  exact ⟨_, .fnptr .absent hderives,
    List.forall_mem_cons.mpr ⟨hword, mark_cons (by decide) (bracketed hproper)⟩⟩

end Derived

namespace TypeSyntax

theorem suffixed_map_rank (base : TypeSyntax) (ranks : List Nat) :
    base.suffixed (ranks.map .rank) = base.arrays ranks := by
  have h := suffixedFrom_ranks [] ranks base []
  rwa [List.append_nil] at h

/-- What ends a run of ranks starts a new tree. -/
theorem suffixedFrom_append {x : TypeSuffix} {wrap : TypeSyntax → TypeSyntax}
    (hx : ∀ run base more, suffixedFrom run base (x :: more) =
      suffixedFrom [] (wrap (base.arrays run)) more)
    (run : List Nat) (base : TypeSyntax) (suffixes more : List TypeSuffix) :
    suffixedFrom run base (suffixes ++ x :: more) =
      (wrap (suffixedFrom run base suffixes)).suffixed more := by
  induction suffixes generalizing run base with
  | nil => exact hx run base more
  | cons y suffixes ih => cases y <;> exact ih _ _

/-- **A tree is arrays over a core** whose suffixes can go on with further ranks. -/
def Spelled (depth : Nat) (type : TypeSyntax) : Prop :=
  ∃ core ranks base suffixes, type = arrays core ranks ∧
    (∀ r ∈ ranks, (TypeSuffix.rank r).InRange) ∧ Derived (Primary (IsType depth)) base ∧
    (∀ x ∈ suffixes, x.InRange) ∧
    ∀ more : List Nat, base.suffixed (suffixes ++ more.map .rank) = core.arrays more

theorem Spelled.of_primary {depth : Nat} {base : TypeSyntax}
    (h : Derived (Primary (IsType depth)) base) : Spelled depth base :=
  ⟨base, [], base, [], rfl, by simp, h, by simp, suffixed_map_rank base⟩

theorem Spelled.derived {depth : Nat} {type : TypeSyntax} (h : Spelled depth type) :
    Derived (IsType (depth + 1)) type := by
  obtain ⟨core, ranks, base, suffixes, rfl, hranks, ⟨tokens, hbase, hproper⟩, hrange, hcore⟩ := h
  have hall : ∀ x ∈ suffixes ++ ranks.map .rank, x.InRange :=
    List.forall_mem_append.mpr ⟨hrange, List.forall_mem_map.mpr hranks⟩
  have hproperAll : ∀ token ∈ (suffixes ++ ranks.map TypeSuffix.rank).flatMap TypeSuffix.tokens,
      token.Proper := by
    intro token htoken
    obtain ⟨x, -, hx⟩ := List.mem_flatMap.mp htoken
    exact Derived.suffix x token hx
  rw [← hcore]
  exact ⟨_, .suffixed _ hbase hall, List.forall_mem_append.mpr ⟨hproper, hproperAll⟩⟩

/-- A type with a `?` or a `*` is a core again. -/
theorem Spelled.wrap {depth : Nat} {type : TypeSyntax} (h : Spelled depth type) {x : TypeSuffix}
    (hrange : x.InRange) {wrap : TypeSyntax → TypeSyntax}
    (hx : ∀ run base more, suffixedFrom run base (x :: more) =
      suffixedFrom [] (wrap (base.arrays run)) more) : Spelled depth (wrap type) := by
  obtain ⟨core, ranks, base, suffixes, rfl, hranks, hbase, hsuffixes, hcore⟩ := h
  have hall : ∀ y ∈ suffixes ++ ranks.map .rank, y.InRange :=
    List.forall_mem_append.mpr ⟨hsuffixes, List.forall_mem_map.mpr hranks⟩
  refine ⟨wrap (core.arrays ranks), [], base, suffixes ++ ranks.map .rank ++ [x], rfl, by simp,
    hbase, List.forall_mem_append.mpr ⟨hall, List.forall_mem_singleton.mpr hrange⟩,
    fun more => ?_⟩
  rw [suffixed, List.append_assoc, List.singleton_append, suffixedFrom_append hx, ← suffixed, hcore,
    suffixed_map_rank]

theorem Spelled.array {depth : Nat} {element : TypeSyntax} (h : Spelled depth element) {rank : Nat}
    (hrank : (TypeSuffix.rank rank).InRange) : Spelled depth (.array element rank) := by
  obtain ⟨core, ranks, base, suffixes, rfl, hranks, hrest⟩ := h
  exact ⟨core, rank :: ranks, base, suffixes, rfl,
    List.forall_mem_cons.mpr ⟨hrank, hranks⟩, hrest⟩

theorem Writable.spelled {depth : Nat} {type : TypeSyntax} (h : type.Writable depth) :
    ∃ inner, depth = inner + 1 ∧ Spelled inner type := by
  induction h with
  | name nonempty names _ ih =>
    refine ⟨_, rfl, .of_primary (.name _ nonempty names fun x hx a ha => ?_)⟩
    obtain ⟨inner, rfl, hspelled⟩ := ih x hx a ha
    exact hspelled.derived
  | fnptr _ _ hparams hret =>
    refine ⟨_, rfl, .of_primary (.fnptr (fun p hp => ?_) ?_)⟩
    · obtain ⟨inner, rfl, hspelled⟩ := hparams p hp
      exact hspelled.derived
    · obtain ⟨inner, rfl, hspelled⟩ := hret
      exact hspelled.derived
  | array _ pos le ih =>
    obtain ⟨inner, hdepth, hspelled⟩ := ih
    exact ⟨inner, hdepth, hspelled.array ⟨pos, le⟩⟩
  | pointer _ ih =>
    obtain ⟨inner, hdepth, hspelled⟩ := ih
    exact ⟨inner, hdepth, hspelled.wrap (x := .pointer) trivial fun _ _ _ => rfl⟩
  | nullable _ ih =>
    obtain ⟨inner, hdepth, hspelled⟩ := ih
    exact ⟨inner, hdepth, hspelled.wrap (x := .nullable) trivial fun _ _ _ => rfl⟩

/-! ## Reading -/

theorem read_eq_ok {text : String} {type : TypeSyntax} :
    read text = .ok type ↔ TypeReader.whole text.toList = .ok type := by
  rw [read]
  split <;> simp_all

theorem writable_of_read {text : String} {type : TypeSyntax} (h : read text = .ok type) :
    type.Writable TypeReader.maxNesting := by
  obtain ⟨tokens, hderives, -⟩ := TypeReader.whole_eq_ok.mp (read_eq_ok.mp h)
  exact hderives.writable

/-- **A text is read as a tree exactly if the grammar derives the tree from tokens that the text
spells, and the trees that some text is read as are those that can be written.** -/
theorem read_eq_ok_iff (type : TypeSyntax) :
    (∀ text, read text = .ok type ↔
      ∃ tokens, IsType TypeReader.maxNesting tokens type ∧ Spells tokens text.toList []) ∧
    ((∃ text, read text = .ok type) ↔ type.Writable TypeReader.maxNesting) := by
  have hread : ∀ text, read text = .ok type ↔
      ∃ tokens, IsType TypeReader.maxNesting tokens type ∧ Spells tokens text.toList [] :=
    fun text => read_eq_ok.trans TypeReader.whole_eq_ok
  refine ⟨hread, ?_, fun h => ?_⟩
  · rintro ⟨text, htext⟩
    obtain ⟨tokens, hderives, -⟩ := (hread text).mp htext
    exact hderives.writable
  · obtain ⟨inner, hdepth, hspelled⟩ := h.spelled
    obtain ⟨tokens, hderives, hproper⟩ := hspelled.derived
    obtain ⟨cs, hspells⟩ := exists_spells hproper
    refine ⟨String.ofList (' ' :: cs), (hread _).mpr ⟨tokens, hdepth ▸ hderives, ?_⟩⟩
    rw [String.toList_ofList]
    exact hspells

end TypeSyntax

end LateBridge
