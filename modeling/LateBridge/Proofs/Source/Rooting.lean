import LateBridge.Proofs.Source.Denotation
import LateBridge.Proofs.Symbols.Paths

/-!
# Proofs/Source/Rooting — display names and source texts differ in their roots

    type ──pieces──▸ [root, "Demo.", "Outer", "<", …, ">", ".", "Inner", …]
                      │                 │
      source: "global::" for a root     ╰── display: roots left out

Both ways to spell a type write the same pieces (`display_unroots_source`).  A root stands in front
of each named type that has no keyword and nowhere else.  The arguments of a named type are dealt
out along its containing chain (`DeclName.links`): each link takes as many of those that are left as
it declares parameters, and they are what these parameters stand for under the arguments.

The two spellings gather the ranks of nested arrays in different ways: a display name hands a suffix
down to the element, a source text hands core and ranks up.  So the pieces are given with the ranks
of the arrays around (`Ty.piecesAfter`), and the inductions are over all ranks.
-/

namespace LateBridge

/-! ## Pieces -/

/-- **A piece of a spelled type**: the root of all namespaces, or a text. -/
inductive Piece where
  | root
  | text (s : String)
  deriving DecidableEq, Repr

namespace Piece

/-- How a piece is written, given how the root is. -/
def write (root : String) : Piece → String
  | .root => root
  | .text s => s

/-- Pieces written one after another. -/
def writeAll (root : String) (pieces : List Piece) : String :=
  String.join (pieces.map (write root))

/-- Spellings with a text between them. -/
def separated (separator : String) (spellings : List (List Piece)) : List Piece :=
  [Piece.text separator].intercalate spellings

/-- Arguments in angle brackets, if any are taken. -/
def angled (arity : Nat) (args : List (List Piece)) : List Piece :=
  if arity = 0 then [] else .text "<" :: (separated ", " args ++ [.text ">"])

variable {root : String}

@[simp] theorem writeAll_nil : writeAll root [] = "" := rfl

@[simp] theorem writeAll_root (pieces : List Piece) :
    writeAll root (.root :: pieces) = root ++ writeAll root pieces := by
  rw [writeAll, List.map_cons, String.join_cons]
  rfl

@[simp] theorem writeAll_text (s : String) (pieces : List Piece) :
    writeAll root (.text s :: pieces) = s ++ writeAll root pieces := by
  rw [writeAll, List.map_cons, String.join_cons]
  rfl

@[simp] theorem writeAll_append (pieces more : List Piece) :
    writeAll root (pieces ++ more) = writeAll root pieces ++ writeAll root more := by
  rw [writeAll, List.map_append, String.join_append]
  rfl

theorem writeAll_separated (separator : String) (spellings : List (List Piece)) :
    writeAll root (separated separator spellings) =
      separator.intercalate (spellings.map (writeAll root)) := by
  induction spellings with
  | nil => rfl
  | cons spelling spellings ih =>
    cases spellings with
    | nil => simp [separated]
    | cons next spellings =>
      rw [separated, List.intercalate_cons_of_ne_nil (by simp), writeAll_append, writeAll_append,
        List.map_cons, String.intercalate_cons_of_ne_nil (by simp), ← ih, separated]
      simp

theorem writeAll_angled {arity : Nat} {args : List (List Piece)} (h : args.length ≤ arity) :
    writeAll root (angled arity args) =
      LateBridge.angled.around arity (args.map (writeAll root)) := by
  rw [angled, DeclName.Brackets.around]
  by_cases harity : arity = 0
  · simp [harity]
  · have htake : (args.map (writeAll root)).take arity = args.map (writeAll root) :=
      List.take_of_length_le (by simpa using h)
    simp [harity, htake, writeAll_separated, LateBridge.angled, String.append_assoc]

/-- **Nothing is written for a root that is left out.** -/
theorem writeAll_unrooted (pieces : List Piece) :
    writeAll root (pieces.filter (· ≠ .root)) = writeAll "" pieces := by
  induction pieces with
  | nil => rfl
  | cons piece pieces ih =>
    cases piece with
    | root => rw [List.filter_cons_of_neg (by simp), ih, writeAll_root, String.empty_append]
    | text s => rw [List.filter_cons_of_pos (by simp), writeAll_text, ih, writeAll_text]

end Piece

/-! ## Arguments along a chain -/

section

variable {α β : Type}

/-- **Arguments dealt out along a chain**: each link takes as many of those that are left as it has
parameters. -/
def DeclName.deal : List DeclName → List α → List (DeclName × List α)
  | [], _ => []
  | link :: rest, args => (link, args.take link.arity) :: deal rest (args.drop link.arity)

/-- **The links of the containing chain**, each with its own arguments. -/
def DeclName.links (n : DeclName) (args : List α) : List (DeclName × List α) :=
  DeclName.deal n.chain args

namespace DeclName

theorem deal_append (chain more : List DeclName) (args : List α) :
    deal (chain ++ more) args =
      deal chain args ++ deal more (args.drop (chain.map arity).sum) := by
  induction chain generalizing args with
  | nil => rfl
  | cons link chain ih =>
    rw [List.cons_append, deal, deal, ih, List.drop_drop, List.map_cons, List.sum_cons]
    rfl

theorem sum_chain (n : DeclName) : (n.chain.map arity).sum = n.totalArity := by
  induction n with
  | top space name params => simp [chain, arity, totalArity, DeclName.params]
  | nested outer name params ih => simp [chain, arity, totalArity, DeclName.params, ih]

theorem links_nested (outer : DeclName) (name : String) (params : List String) (args : List α) :
    (nested outer name params).links args = outer.links args ++
      [(nested outer name params, (args.drop outer.totalArity).take params.length)] := by
  rw [links, chain, deal_append, sum_chain]
  rfl

theorem links_map (f : α → β) (n : DeclName) (args : List α) :
    n.links (args.map f) = (n.links args).map fun link => (link.1, link.2.map f) := by
  rw [links, links]
  induction n.chain generalizing args with
  | nil => rfl
  | cons link chain ih =>
    rw [deal, deal, List.map_cons, ← List.map_drop, ih, List.map_take]

theorem length_le_arity_of_mem_deal {chain : List DeclName} {args : List α}
    {link : DeclName × List α} (h : link ∈ deal chain args) : link.2.length ≤ link.1.arity := by
  induction chain generalizing args with
  | nil => cases h
  | cons first chain ih =>
    obtain rfl | h := List.mem_cons.mp h
    · exact List.length_take_le _ _
    · exact ih h

theorem map_fst_links (n : DeclName) (args : List α) : (n.links args).map Prod.fst = n.chain := by
  rw [links]
  induction n.chain generalizing args with
  | nil => rfl
  | cons link chain ih => rw [deal, List.map_cons, ih]

/-- Pairing with joined lists pairs with the parts one after another. -/
theorem zip_append_eq (as more : List α) (bs : List β) :
    (as ++ more).zip bs = as.zip (bs.take as.length) ++ more.zip (bs.drop as.length) := by
  induction as generalizing bs with
  | nil => simp
  | cons a as ih => cases bs <;> simp [ih]

@[simp] theorem length_ownVars (n : DeclName) : n.ownVars.length = n.arity := by
  simp [ownVars, arity]

theorem zip_flatMap_ownVars (chain : List DeclName) (args : List α) :
    (chain.flatMap ownVars).zip args =
      (deal chain args).flatMap fun link => link.1.ownVars.zip link.2 := by
  induction chain generalizing args with
  | nil => rfl
  | cons link chain ih =>
    rw [List.flatMap_cons, zip_append_eq, length_ownVars, ih, deal, List.flatMap_cons]

/-- **Each link takes the arguments of its own parameters.** -/
theorem bindArgs_eq_links (n : DeclName) (args : List Ty) :
    n.bindArgs args = (n.links args).flatMap fun link => link.1.ownVars.zip link.2 := by
  rw [bindArgs, vars_eq_flatMap, zip_flatMap_ownVars, links]

/-- **A spelled name is its links with dots between them**, behind the namespace. -/
theorem spell_eq_links (b : Brackets) (n : DeclName) (args : List String) :
    n.spell b args = spacePrefix n.space ++
      ".".intercalate ((n.links args).map fun link =>
        link.1.simple ++ b.around link.1.arity link.2) := by
  have hcut : ∀ (k : Nat) (args : List String), b.around k (args.take k) = b.around k args := by
    intro k args
    rw [Brackets.around, Brackets.around, List.take_take, Nat.min_self]
  induction n with
  | top _ name params =>
    simp [spell, links, chain, deal, space, simple, arity, DeclName.params, hcut,
      String.append_assoc]
  | nested outer name params ih =>
    have hne : outer.links args ≠ [] := by
      cases outer <;> simp [links, chain, deal, deal_append]
    rw [spell, ih, links_nested, List.map_append,
      String.intercalate_append_of_ne_nil (by simpa using hne) (by simp)]
    simp [space, simple, arity, DeclName.params, hcut, String.append_assoc]

end DeclName

end

/-! ## The pieces of a type -/

/-- **The pieces of a named type**: the root, the namespace, and the links with their arguments. -/
def DeclName.pieces (n : DeclName) (args : List (List Piece)) : List Piece :=
  .root :: .text (spacePrefix n.space) :: Piece.separated "." ((n.links args).map fun link =>
    .text link.1.simple :: Piece.angled link.1.arity link.2)

theorem DeclName.writeAll_pieces (root : String) (n : DeclName) (args : List (List Piece)) :
    Piece.writeAll root (n.pieces args) =
      root ++ n.spell angled (args.map (Piece.writeAll root)) := by
  have hlinks : (n.links args).map (Piece.writeAll root ∘ fun link =>
        .text link.1.simple :: Piece.angled link.1.arity link.2) =
      (n.links args).map fun link =>
        link.1.simple ++ angled.around link.1.arity (link.2.map (Piece.writeAll root)) := by
    refine List.map_congr_left fun link hlink => ?_
    rw [Function.comp_apply, Piece.writeAll_text,
      Piece.writeAll_angled (length_le_arity_of_mem_deal hlink)]
  rw [pieces, Piece.writeAll_root, Piece.writeAll_text, Piece.writeAll_separated, List.map_map,
    hlinks, spell_eq_links, links_map, List.map_map]
  rfl

namespace Ty

mutual

/-- The pieces of a type inside arrays, whose ranks stand behind it, outermost first. -/
def piecesAfter (ranks : List Piece) : Ty → List Piece
  | .named n args =>
    (match n.special?.bind Special.keyword? with
    | some word => [.text word]
    | none => n.pieces (piecesList args)) ++ ranks
  | .array element rank => element.piecesAfter (ranks ++ [.text (rankText rank)])
  | .var v => .text v.name :: ranks
  | .pointer target => target.piecesAfter [] ++ .text "*" :: ranks
  | .fnptr params ret =>
    .text "delegate*<" ::
      (Piece.separated ", " (piecesList params ++ [ret.piecesAfter []]) ++ .text ">" :: ranks)
  | .void => .text "void" :: ranks
  | .dynamic => .text "dynamic" :: ranks
  | .error => .text "object" :: ranks

/-- The pieces of several types. -/
def piecesList : List Ty → List (List Piece)
  | [] => []
  | t :: ts => t.piecesAfter [] :: piecesList ts

end

/-- **The pieces of a type.** -/
def pieces (t : Ty) : List Piece := t.piecesAfter []

theorem piecesList_eq_map (ts : List Ty) : piecesList ts = ts.map pieces := by
  induction ts with
  | nil => rfl
  | cons t ts ih => rw [piecesList, ih, List.map_cons, pieces]

theorem displayList_eq_map (ts : List Ty) : displayList ts = ts.map display := by
  induction ts with
  | nil => rfl
  | cons t ts ih => rw [displayList, ih, List.map_cons, display]

/-- **The pieces of a named type without a keyword**: the root stands in front, and each link has
the pieces of its own arguments. -/
theorem pieces_named {n : DeclName} (h : n.special?.bind Special.keyword? = none)
    (args : List Ty) : (named n args).pieces =
      .root :: .text (DeclName.spacePrefix n.space) ::
        Piece.separated "." ((n.links args).map fun link =>
          .text link.1.simple :: Piece.angled link.1.arity (link.2.map pieces)) := by
  rw [pieces, piecesAfter, h, List.append_nil, piecesList_eq_map, DeclName.pieces,
    DeclName.links_map, List.map_map]
  rfl

/-- **A source text writes the pieces, with the global namespace for each root.** -/
theorem source_eq_writeAll (t : Ty) (ranks : List Piece) :
    t.sourceParts.1 ++ (Piece.writeAll "global::" ranks ++ t.sourceParts.2) =
      Piece.writeAll "global::" (t.piecesAfter ranks) := by
  have hall : ∀ ts : List Ty, (∀ t ∈ ts, ∀ ranks,
      t.sourceParts.1 ++ (Piece.writeAll "global::" ranks ++ t.sourceParts.2) =
        Piece.writeAll "global::" (t.piecesAfter ranks)) →
      (piecesList ts).map (Piece.writeAll "global::") = sourceList ts := by
    intro ts hts
    rw [piecesList_eq_map, sourceList_eq_map, List.map_map]
    refine List.map_congr_left fun t ht => ?_
    have h := hts t ht []
    rw [Piece.writeAll_nil, String.empty_append] at h
    exact h.symm
  induction t using induct generalizing ranks with
  | named n args ih =>
    rw [sourceParts, piecesAfter, Piece.writeAll_append]
    cases n.special?.bind Special.keyword? with
    | some word => simp
    | none => simp [DeclName.writeAll_pieces, hall args ih]
  | array element rank ih =>
    rw [sourceParts, piecesAfter, ← ih]
    simp [String.append_assoc]
  | pointer target ih =>
    rw [sourceParts, piecesAfter, Piece.writeAll_append, ← ih]
    simp [String.append_assoc]
  | fnptr params ret ihp ihr =>
    have hret := ihr []
    rw [Piece.writeAll_nil, String.empty_append] at hret
    rw [sourceParts, piecesAfter, Piece.writeAll_text, Piece.writeAll_append,
      Piece.writeAll_separated, List.map_append, hall params ihp, List.map_singleton, ← hret]
    simp [String.append_assoc]
  | var | void | dynamic | error => simp [sourceParts, piecesAfter]

/-- **A display name writes the pieces, with nothing for each root**, unless there is a type in it
that could not be determined. -/
theorem display_eq_writeAll {t : Ty} (h : ¬Ty.error.Occurs t) (ranks : List Piece) :
    t.displayAfter (Piece.writeAll "" ranks) = Piece.writeAll "" (t.piecesAfter ranks) := by
  have hall : ∀ ts : List Ty, (∀ t ∈ ts, ∀ ranks, t.displayAfter (Piece.writeAll "" ranks) =
        Piece.writeAll "" (t.piecesAfter ranks)) →
      (piecesList ts).map (Piece.writeAll "") = displayList ts := by
    intro ts hts
    rw [piecesList_eq_map, displayList_eq_map, List.map_map]
    exact List.map_congr_left fun t ht => (hts t ht []).symm
  induction t using induct generalizing ranks with
  | named n args ih =>
    have hargs : ∀ a ∈ args, ¬Ty.error.Occurs a :=
      fun a ha hoccurs => h (occurs_named.mpr (.inr ⟨a, ha, hoccurs⟩))
    rw [displayAfter, piecesAfter, Piece.writeAll_append]
    cases n.special?.bind Special.keyword? with
    | some word => simp
    | none => simp [DeclName.writeAll_pieces, hall args fun a ha => ih a ha (hargs a ha)]
  | array element rank ih =>
    rw [displayAfter, piecesAfter, ← ih fun hoccurs => h (occurs_array.mpr (.inr hoccurs))]
    simp
  | pointer target ih =>
    have hih := ih (fun hoccurs => h (occurs_pointer.mpr (.inr hoccurs))) []
    rw [Piece.writeAll_nil] at hih
    rw [displayAfter, piecesAfter, Piece.writeAll_append, ← hih]
    simp [String.append_assoc]
  | fnptr params ret ihp ihr =>
    have hparams : ∀ p ∈ params, ¬Ty.error.Occurs p :=
      fun p hp hoccurs => h (occurs_fnptr.mpr (.inr (.inl ⟨p, hp, hoccurs⟩)))
    have hih := ihr (fun hoccurs => h (occurs_fnptr.mpr (.inr (.inr hoccurs)))) []
    rw [Piece.writeAll_nil] at hih
    rw [displayAfter, piecesAfter, Piece.writeAll_text, Piece.writeAll_append,
      Piece.writeAll_separated, List.map_append, hall params fun p hp => ihp p hp (hparams p hp),
      List.map_singleton, ← hih, ← join_append]
    simp [String.append_assoc]
  | var | void | dynamic => simp [displayAfter, piecesAfter]
  | error => exact absurd ⟨[], rfl⟩ h

/-- **A display name is the source text without its roots**: for a type in which every type is
determined, both write the pieces of the type, the source text with `global::` for each root and the
display name with the roots left out.  In the pieces of a named type without a keyword a root stands
in front, and each link of the containing chain stands in front of the arguments that its own
parameters are bound to. -/
theorem display_unroots_source {t : Ty} (h : ¬Ty.error.Occurs t) :
    t.source = Piece.writeAll "global::" t.pieces ∧
    t.display = Piece.writeAll "global::" (t.pieces.filter (· ≠ .root)) ∧
    ∀ (n : DeclName) (args : List Ty), n.special?.bind Special.keyword? = none →
      (named n args).pieces = .root :: .text (DeclName.spacePrefix n.space) ::
        Piece.separated "." ((n.links args).map fun link =>
          .text link.1.simple :: Piece.angled link.1.arity (link.2.map pieces)) ∧
      (n.links args).map Prod.fst = n.chain ∧
      n.bindArgs args = (n.links args).flatMap fun link => link.1.ownVars.zip link.2 := by
  refine ⟨?_, ?_, fun n args hword => ⟨pieces_named hword args, n.map_fst_links args,
    n.bindArgs_eq_links args⟩⟩
  · have hsource := source_eq_writeAll t []
    rwa [Piece.writeAll_nil, String.empty_append] at hsource
  · rw [Piece.writeAll_unrooted, pieces, ← display_eq_writeAll h, display, Piece.writeAll_nil]

end Ty

/-! A function pointer over a chain whose middle link takes no arguments. -/

namespace Drawer

/-- The innermost of three types. -/
def lid : DeclName :=
  .nested (.nested (.top (some "Shop") "Shelf" ["A", "B"]) "Drawer" []) "Lid" ["C"]

/-- Jagged arrays of lids for pointers, words and other lids. -/
def swap : Ty :=
  .fnptr [.array (.array (.named lid [.pointer .void, .plain (.top (some "System") "String" []),
    .named lid [.dynamic, .dynamic, .dynamic]]) 2) 1] .void

end Drawer

/-- The two spellings of the function pointer. -/
theorem display_unroots_source_swap : ¬Ty.error.Occurs Drawer.swap ∧
    Drawer.swap.source = Piece.writeAll "global::" Drawer.swap.pieces ∧
    Drawer.swap.display = Piece.writeAll "global::" (Drawer.swap.pieces.filter (· ≠ .root)) ∧
    Drawer.swap.display = "delegate*<Shop.Shelf<void*, string>.Drawer.Lid<" ++
      "Shop.Shelf<dynamic, dynamic>.Drawer.Lid<dynamic>>[][,], void>" := by
  have hdetermined : ¬Ty.error.Occurs Drawer.swap := by
    simp [Drawer.swap, Ty.plain]
  have h := Ty.display_unroots_source hdetermined
  exact ⟨hdetermined, h.1, h.2.1, by decide +kernel⟩

end LateBridge
