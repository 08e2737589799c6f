import LateBridge.Proofs.Bridge.ErasureBound
import LateBridge.Proofs.Source.Quoting
import LateBridge.Proofs.Text.Splitting
import LateBridge.Source.BridgeCode

/-!
# Proofs/Source/OneLine — texts on one line

    names on one line ──spelled──▸ types, constants, ids ──put together──▸ lines of code

Generated code is put together from names, which may hold any characters, and from texts of the
generator's own.  Nothing on the way adds a line end: a type is on one line if its names are, and a
constant always is, because line ends inside quotes are escaped.
-/

namespace LateBridge

namespace Text

/-- **A text on one line.** -/
def OneLine (text : String) : Prop := '\n' ∉ text.toList

instance (text : String) : Decidable (OneLine text) := inferInstanceAs (Decidable (¬ _))

@[simp] theorem oneLine_append {a b : String} : OneLine (a ++ b) ↔ OneLine a ∧ OneLine b := by
  rw [OneLine, String.toList_append, List.mem_append, not_or]
  rfl

theorem oneLine_enclosed {front back text : String} (hends : OneLine front ∧ OneLine back)
    (h : OneLine text) : OneLine (front ++ text ++ back) :=
  oneLine_append.mpr ⟨oneLine_append.mpr ⟨hends.1, h⟩, hends.2⟩

theorem oneLine_of_forall {text : String} {p : Char → Bool} (h : ∀ c ∈ text.toList, p c = true)
    (hend : p '\n' = false) : OneLine text :=
  fun hmem => Bool.false_ne_true (hend.symm.trans (h _ hmem))

theorem oneLine_join {texts : List String} (h : ∀ text ∈ texts, OneLine text) :
    OneLine (String.join texts) := by
  rw [OneLine, String.toList_join, List.mem_flatMap]
  rintro ⟨text, htext, hmem⟩
  exact h text htext hmem

theorem oneLine_intercalate {separator : String} (hseparator : OneLine separator)
    {texts : List String} (h : ∀ text ∈ texts, OneLine text) :
    OneLine (separator.intercalate texts) := by
  induction texts with
  | nil => exact List.not_mem_nil
  | cons text texts ih =>
    obtain ⟨htext, hmore⟩ := List.forall_mem_cons.mp h
    rcases texts with _ | ⟨next, texts⟩
    · rwa [String.intercalate_singleton]
    · rw [String.intercalate_cons_cons, oneLine_append, oneLine_append]
      exact ⟨⟨htext, hseparator⟩, ih hmore⟩

@[simp] theorem oneLine_nat (n : Nat) : OneLine (toString n) :=
  oneLine_of_forall (p := Char.isDigit) (by simpa using isDigit_of_mem_digits) rfl

@[simp] theorem oneLine_int (i : Int) : OneLine (toString i) := by
  rcases i with n | n
  · exact oneLine_nat n
  · exact oneLine_append.mpr ⟨by decide, oneLine_nat (n + 1)⟩

theorem oneLine_ofList {cs : List Char} : OneLine (String.ofList cs) ↔ '\n' ∉ cs := by
  rw [OneLine, String.toList_ofList]

theorem oneLine_replicate {c : Char} (h : c ≠ '\n') (n : Nat) :
    OneLine (String.ofList (List.replicate n c)) := by
  rw [oneLine_ofList]
  exact fun hmem => h (List.eq_of_mem_replicate hmem).symm

theorem oneLine_textIf {text : String} (condition : Bool) (h : OneLine text) :
    OneLine (BridgeEmitter.textIf condition text) := by
  cases condition with
  | false => exact List.not_mem_nil
  | true => exact h

end Text

open Text (OneLine oneLine_append oneLine_enclosed oneLine_intercalate oneLine_textIf)

/-! ## Names of declared types -/

namespace DeclName

/-- The names in the spelling of a declared type. -/
def words : DeclName → List String
  | top space name _ => space.toList ++ [name]
  | nested outer name _ => outer.words ++ [name]

theorem oneLine_around {b : Brackets} (hopening : OneLine b.opening)
    (hseparator : OneLine b.separator) (hclosing : OneLine b.closing) (arity : Nat)
    {args : List String} (h : ∀ arg ∈ args, OneLine arg) : OneLine (b.around arity args) := by
  rw [Brackets.around]
  split
  · exact List.not_mem_nil
  · refine oneLine_enclosed ⟨hopening, hclosing⟩ ?_
    exact oneLine_intercalate hseparator fun arg harg => h arg (List.mem_of_mem_take harg)

theorem oneLine_spacePrefix {space : Option String} (h : ∀ word ∈ space, OneLine word) :
    OneLine (spacePrefix space) := by
  rcases space with _ | space
  · exact List.not_mem_nil
  · exact oneLine_append.mpr ⟨h space rfl, by decide⟩

theorem oneLine_spell {b : Brackets} (hopening : OneLine b.opening)
    (hseparator : OneLine b.separator) (hclosing : OneLine b.closing) {n : DeclName}
    (hn : ∀ word ∈ n.words, OneLine word) {args : List String} (h : ∀ arg ∈ args, OneLine arg) :
    OneLine (n.spell b args) := by
  induction n with
  | top space name params =>
    obtain ⟨hspace, hname⟩ := List.forall_mem_append.mp hn
    refine oneLine_append.mpr ⟨oneLine_append.mpr ⟨oneLine_spacePrefix ?_, ?_⟩,
      oneLine_around hopening hseparator hclosing _ h⟩
    · exact fun word hword => hspace word (Option.mem_toList.mpr hword)
    · exact List.forall_mem_singleton.mp hname
  | nested outer name params ih =>
    obtain ⟨houter, hname⟩ := List.forall_mem_append.mp hn
    refine oneLine_append.mpr ⟨oneLine_append.mpr ⟨oneLine_append.mpr ⟨ih houter, by decide⟩, ?_⟩,
      oneLine_around hopening hseparator hclosing _ fun arg harg => h arg (List.mem_of_mem_drop harg)⟩
    exact List.forall_mem_singleton.mp hname

/-- The names of a type are on one line if its metadata name is. -/
theorem oneLine_words {n : DeclName} (h : OneLine n.metadata) : ∀ word ∈ n.words, OneLine word := by
  induction n with
  | top space name params =>
    obtain ⟨⟨hspace, hname⟩, -⟩ : (OneLine (spacePrefix space) ∧ OneLine name) ∧ _ := by
      simpa only [metadata, oneLine_append] using h
    refine List.forall_mem_append.mpr ⟨fun word hword => ?_, List.forall_mem_singleton.mpr hname⟩
    rw [Option.mem_toList.mp hword] at hspace
    exact (oneLine_append.mp hspace).1
  | nested outer name params ih =>
    obtain ⟨⟨⟨houter, -⟩, hname⟩, -⟩ : ((OneLine outer.metadata ∧ _) ∧ OneLine name) ∧ _ := by
      simpa only [metadata, oneLine_append] using h
    exact List.forall_mem_append.mpr ⟨ih houter, List.forall_mem_singleton.mpr hname⟩

end DeclName

/-! ## Types -/

theorem oneLine_keyword? {s : Option Special} {word : String}
    (h : s.bind Special.keyword? = some word) : OneLine word := by
  obtain ⟨s, -, hword⟩ := Option.bind_eq_some_iff.mp h
  cases s <;> simp only [Special.keyword?, Option.some.injEq, reduceCtorEq] at hword <;>
    subst hword <;> decide

theorem oneLine_rankText (rank : Nat) : OneLine (rankText rank) :=
  oneLine_enclosed (by decide) (Text.oneLine_replicate (by decide) _)

theorem oneLine_angledNames {names : List String} (h : ∀ name ∈ names, OneLine name) :
    OneLine (angledNames names) := by
  rw [angledNames]
  split
  · exact List.not_mem_nil
  · exact oneLine_enclosed (by decide) (oneLine_intercalate (by decide) h)

namespace Ty

mutual

/-- **The names in the spelling of a type.** -/
def words : Ty → List String
  | .named n args => n.words ++ wordsList args
  | .array element _ => element.words
  | .var v => [v.name]
  | .pointer target => target.words
  | .fnptr params ret => wordsList params ++ ret.words
  | .void | .dynamic | .error => []

/-- The names in the spellings of several types. -/
def wordsList : List Ty → List String
  | [] => []
  | t :: ts => t.words ++ wordsList ts

end

mutual

theorem oneLine_sourceParts : (t : Ty) → (∀ word ∈ t.words, OneLine word) →
    OneLine t.sourceParts.1 ∧ OneLine t.sourceParts.2
  | .named n args, h => by
    obtain ⟨hn, hargs⟩ := List.forall_mem_append.mp h
    have htexts := oneLine_sourceList args hargs
    rw [sourceParts]
    split
    · rename_i hword
      exact ⟨oneLine_keyword? hword, List.not_mem_nil⟩
    · refine ⟨oneLine_append.mpr ⟨by decide, ?_⟩, List.not_mem_nil⟩
      exact DeclName.oneLine_spell (by decide) (by decide) (by decide) hn htexts
  | .array element rank, h => by
    obtain ⟨hcore, hranks⟩ := oneLine_sourceParts element h
    exact ⟨hcore, oneLine_append.mpr ⟨oneLine_rankText rank, hranks⟩⟩
  | .var v, h => ⟨h v.name List.mem_cons_self, List.not_mem_nil⟩
  | .pointer target, h => by
    obtain ⟨hcore, hranks⟩ := oneLine_sourceParts target h
    exact ⟨oneLine_append.mpr ⟨oneLine_append.mpr ⟨hcore, hranks⟩, by decide⟩, List.not_mem_nil⟩
  | .fnptr params ret, h => by
    obtain ⟨hparams, hret⟩ := List.forall_mem_append.mp h
    obtain ⟨hcore, hranks⟩ := oneLine_sourceParts ret hret
    have htexts := oneLine_sourceList params hparams
    refine ⟨oneLine_enclosed (by decide) (oneLine_intercalate (by decide) ?_), List.not_mem_nil⟩
    exact List.forall_mem_append.mpr
      ⟨htexts, List.forall_mem_singleton.mpr (oneLine_append.mpr ⟨hcore, hranks⟩)⟩
  | .void, _ | .dynamic, _ | .error, _ => by decide

theorem oneLine_sourceList : (ts : List Ty) → (∀ word ∈ wordsList ts, OneLine word) →
    ∀ text ∈ sourceList ts, OneLine text
  | [], _ => nofun
  | t :: ts, h => by
    obtain ⟨ht, hts⟩ := List.forall_mem_append.mp h
    rw [sourceList]
    exact List.forall_mem_cons.mpr
      ⟨oneLine_append.mpr (oneLine_sourceParts t ht), oneLine_sourceList ts hts⟩

end

/-- **A type of names on one line is spelled on one line.** -/
theorem oneLine_source {t : Ty} (h : ∀ word ∈ t.words, OneLine word) : OneLine t.source :=
  oneLine_append.mpr (oneLine_sourceParts t h)

theorem oneLine_unboundSource? {t : Ty} (h : ∀ word ∈ t.words, OneLine word) {text : String}
    (htext : t.unboundSource? = some text) : OneLine text := by
  rcases t with ⟨n, args⟩ | _ | _ | _ | _ | _ | _ | _
  case named =>
    obtain ⟨hn, -⟩ := List.forall_mem_append.mp h
    have hempty : ∀ text ∈ List.replicate n.totalArity "", OneLine text := fun text htext =>
      List.eq_of_mem_replicate htext ▸ List.not_mem_nil
    rw [unboundSource?] at htext
    split at htext
    · rename_i hword
      exact Option.some.inj htext ▸ oneLine_keyword? hword
    · rw [← Option.some.inj htext]
      refine oneLine_append.mpr ⟨by decide, ?_⟩
      exact DeclName.oneLine_spell (by decide) (by decide) (by decide) hn hempty
  all_goals cases htext

end Ty

/-! ## Documentation ids -/

theorem oneLine_typeVarDocId (v : TypeVar) : OneLine v.docId := by
  rw [TypeVar.docId]
  split
  · exact oneLine_append.mpr ⟨by decide, Text.oneLine_nat _⟩
  · exact oneLine_append.mpr ⟨by decide, Text.oneLine_nat _⟩

theorem oneLine_boundsText (rank : Nat) : OneLine (boundsText rank) := by
  rw [boundsText]
  split
  · decide
  · refine oneLine_enclosed (by decide) (oneLine_intercalate (by decide) fun text htext => ?_)
    rw [List.eq_of_mem_replicate htext]
    decide

theorem oneLine_aritySuffix {mark : String} (h : OneLine mark) (arity : Nat) :
    OneLine (DeclName.aritySuffix mark arity) := by
  rw [DeclName.aritySuffix]
  split
  · exact List.not_mem_nil
  · exact oneLine_append.mpr ⟨h, Text.oneLine_nat arity⟩

namespace Ty

mutual

theorem oneLine_docId : (t : Ty) → (∀ word ∈ t.words, OneLine word) → OneLine t.docId
  | .named n args, h => by
    obtain ⟨hn, hargs⟩ := List.forall_mem_append.mp h
    exact DeclName.oneLine_spell (by decide) (by decide) (by decide) hn (oneLine_docIdList args hargs)
  | .array element rank, h =>
    oneLine_append.mpr ⟨oneLine_docId element h, oneLine_boundsText rank⟩
  | .var v, _ => oneLine_typeVarDocId v
  | .pointer target, h => oneLine_append.mpr ⟨oneLine_docId target h, by decide⟩
  | .fnptr params ret, h => by
    obtain ⟨hparams, hret⟩ := List.forall_mem_append.mp h
    have htexts := oneLine_docIdList params hparams
    simp only [docId, oneLine_append]
    exact ⟨⟨⟨⟨by decide, oneLine_docId ret hret⟩, by decide⟩,
      oneLine_intercalate (by decide) htexts⟩, by decide⟩
  | .void, _ | .dynamic, _ | .error, _ => by decide

theorem oneLine_docIdList : (ts : List Ty) → (∀ word ∈ wordsList ts, OneLine word) →
    ∀ text ∈ docIdList ts, OneLine text
  | [], _ => nofun
  | t :: ts, h => by
    obtain ⟨ht, hts⟩ := List.forall_mem_append.mp h
    rw [docIdList]
    exact List.forall_mem_cons.mpr ⟨oneLine_docId t ht, oneLine_docIdList ts hts⟩

end

end Ty

theorem oneLine_memberDocId {m : Method} (hparams : ∀ q ∈ m.params, ∀ word ∈ q.type.words,
    OneLine word) {name : String} (hname : OneLine name) : OneLine (m.memberDocId name) := by
  rw [Method.memberDocId, oneLine_append, oneLine_append]
  refine ⟨⟨hname, oneLine_aritySuffix (by decide) m.arity⟩, ?_⟩
  split
  · exact List.not_mem_nil
  · refine oneLine_enclosed (by decide) (oneLine_intercalate (by decide) ?_)
    refine List.forall_mem_map.mpr fun q hq => ?_
    refine oneLine_append.mpr ⟨Ty.oneLine_docId q.type (hparams q hq), ?_⟩
    split <;> decide

/-! ## Constants -/

theorem oneLine_toString {c : Char} (h : c ≠ '\n') : OneLine c.toString := by
  rw [OneLine, Char.toString, String.toList_singleton]
  exact fun hmem => h (List.mem_singleton.mp hmem).symm

theorem oneLine_fourHexCapitals (n : Nat) : OneLine (Text.fourHexCapitals n) := by
  have hdigit : ∀ d < 16, (Nat.digitChar d).toUpper ≠ '\n' := by decide
  rw [OneLine, Text.toList_fourHexCapitals]
  simp only [List.mem_cons, List.not_mem_nil, or_false, not_or]
  refine ⟨?_, ?_, ?_, ?_⟩ <;> exact (hdigit _ (Nat.mod_lt _ (by decide))).symm

/-- **Between quotes a line end is escaped.** -/
theorem oneLine_escapeChar {quote : Char} (hquote : quote ≠ '\n') (c : Char) :
    OneLine (escapeChar quote c) := by
  rw [escapeChar]
  split_ifs with hslash hline hreturn htab hzero hq hcontrol
  · decide
  · decide
  · decide
  · decide
  · decide
  · exact oneLine_append.mpr ⟨by decide, oneLine_toString (eq_of_beq hq ▸ hquote)⟩
  · exact oneLine_append.mpr ⟨by decide, oneLine_fourHexCapitals _⟩
  · exact oneLine_toString (by simpa using hline)

theorem oneLine_charLiteral (c : Char) : OneLine (charLiteral c) :=
  oneLine_enclosed (by decide) (oneLine_escapeChar (by decide) c)

theorem oneLine_stringLiteral (s : String) : OneLine (stringLiteral s) := by
  refine oneLine_enclosed (by decide) (Text.oneLine_join ?_)
  exact List.forall_mem_map.mpr fun c _ => oneLine_escapeChar (by decide) c

theorem oneLine_decimal (d : Binary64.Decimal) : OneLine d.positional := by
  have hzero : ∀ n, '\n' ∉ List.replicate n '0' := fun n hmem =>
    absurd (List.eq_of_mem_replicate hmem) (by decide)
  have hdigits : '\n' ∉ (toString d.digits).toList := Text.oneLine_nat d.digits
  simp only [Binary64.Decimal.positional]
  split
  · exact oneLine_append.mpr ⟨hdigits, Text.oneLine_replicate (by decide) _⟩
  · simp only [oneLine_append, Text.oneLine_ofList]
    refine ⟨⟨fun hmem => ?_, by decide⟩, fun hmem => ?_⟩
    · exact (List.mem_append.mp (List.mem_of_mem_take hmem)).elim (hzero _) hdigits
    · exact (List.mem_append.mp (List.mem_of_mem_drop hmem)).elim (hzero _) hdigits

theorem oneLine_numberSuffix (special : Option Special) : OneLine (Special.numberSuffix special) := by
  rcases special with _ | s
  · decide
  · cases s <;> decide

theorem oneLine_realLiteral (special : Option Special) (x : Binary64) :
    OneLine (realLiteral special x) := by
  have hword : OneLine (if special == some Special.single then "float" else "double") := by
    split <;> decide
  rcases x with ⟨negative, mantissa, exponent⟩ | negative | _
  case finite =>
    simp only [realLiteral, oneLine_append, Binary64.positional]
    refine ⟨⟨?_, oneLine_decimal _⟩, ?_⟩
    · split <;> decide
    · split
      · decide
      · exact oneLine_numberSuffix special
  case infinite =>
    refine oneLine_append.mpr ⟨hword, ?_⟩
    split <;> decide
  case nan => exact oneLine_append.mpr ⟨hword, by decide⟩

theorem Graph.oneLine_intLiteral (g : Graph) {t : Ty} (h : OneLine t.source) (i : Int) :
    OneLine (g.intLiteral t i) := by
  have hnumber := Text.oneLine_int i
  rw [intLiteral]
  split
  · simp only [oneLine_append]
    refine ⟨⟨⟨by decide, h⟩, by decide⟩, ?_⟩
    split
    · exact oneLine_enclosed (by decide) hnumber
    · exact hnumber
  · exact oneLine_append.mpr ⟨hnumber, oneLine_numberSuffix _⟩

theorem Graph.oneLine_literal (g : Graph) {t : Ty} (h : ∀ word ∈ t.words, OneLine word)
    (c : Constant) : OneLine (g.literal t c) := by
  have hsource := Ty.oneLine_source h
  rcases c with _ | b | i | x | c | s
  case null => exact oneLine_enclosed (by decide) hsource
  case bool =>
    rw [literal]
    split <;> decide
  case int => exact g.oneLine_intLiteral hsource i
  case float => exact oneLine_realLiteral _ _
  case char => exact oneLine_charLiteral c
  case string => exact oneLine_stringLiteral s

/-! ## Well-known types -/

namespace WellKnown

/-- **The well-known types that code refers to** are spelled on one line. -/
structure OneLine (k : WellKnown) : Prop where
  binderException : Text.OneLine k.binderException.source
  argumentException : Text.OneLine k.argumentException.source
  editorBrowsable : ∀ t ∈ k.editorBrowsable?, Text.OneLine t.source
  editorBrowsableState : ∀ t ∈ k.editorBrowsableState?, Text.OneLine t.source
  debuggerHidden : ∀ t ∈ k.debuggerHidden?, Text.OneLine t.source

theorem oneLine_source_plain {g : Graph} {name : String} {d : TypeDecl}
    (h : g.find? name = some d) (hname : Text.OneLine name) :
    Text.OneLine (Ty.plain d.name).source := by
  have hmetadata : d.name.metadata = name := Graph.metadata_of_find? h
  refine Ty.oneLine_source (List.forall_mem_append.mpr ⟨?_, nofun⟩)
  exact DeclName.oneLine_words (hmetadata ▸ hname)

theorem oneLine_of_required {g : Graph} {name : String} {t : Ty} (h : required g name = .ok t)
    (hname : Text.OneLine name) : Text.OneLine t.source := by
  obtain ⟨d, hd, rfl⟩ := Option.map_eq_some_iff.mp (required_eq_ok h)
  exact oneLine_source_plain hd hname

theorem oneLine_of_optional? {g : Graph} {name : String} (hname : Text.OneLine name) :
    ∀ t ∈ optional? g name, Text.OneLine t.source := by
  intro t ht
  obtain ⟨d, hd, rfl⟩ := Option.map_eq_some_iff.mp ht
  exact oneLine_source_plain hd hname

/-- **Well-known types are found by names on one line.** -/
theorem oneLine_of_resolve {g : Graph} {k : WellKnown} (h : resolve g = .ok k) : k.OneLine := by
  obtain ⟨_, -, h⟩ := bind_eq_ok_iff.mp h
  obtain ⟨_, -, h⟩ := bind_eq_ok_iff.mp h
  obtain ⟨_, -, h⟩ := bind_eq_ok_iff.mp h
  obtain ⟨_, -, h⟩ := bind_eq_ok_iff.mp h
  obtain ⟨_, -, h⟩ := bind_eq_ok_iff.mp h
  obtain ⟨argumentException, hargument, h⟩ := bind_eq_ok_iff.mp h
  obtain ⟨binderException, hbinder, h⟩ := bind_eq_ok_iff.mp h
  cases h
  refine ⟨oneLine_of_required hbinder (Text.oneLine_ofList.mpr (by decide)),
    oneLine_of_required hargument (Text.oneLine_ofList.mpr (by decide)),
    oneLine_of_optional? (Text.oneLine_ofList.mpr (by decide)), fun t ht => ?_,
    oneLine_of_optional? (Text.oneLine_ofList.mpr (by decide))⟩
  obtain ⟨d, hd, rfl⟩ := Option.map_eq_some_iff.mp ht
  exact oneLine_source_plain (Option.filter_eq_some_iff.mp hd).1
    (Text.oneLine_ofList.mpr (by decide))

end WellKnown

end LateBridge
