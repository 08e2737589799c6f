import LateBridge.Document.Load
import LateBridge.Proofs.Results
import LateBridge.Proofs.Symbols.BaseChain

/-!
# Proofs/Document/References — what a reference denotes, taken apart

    written reference ──resolve in a scope──▸ word, or a type made of the types of its parts

A reference that denotes a type denotes what its parts make up (`Graph.Resolved`).  So a property
that words have and that goes from parts to the types made of them is had by everything references
denote (`Graph.ReferenceClosed.of_bindType`).
-/

namespace LateBridge

/-- **Induction on references**, with one hypothesis for all references of a list. -/
@[elab_as_elim]
theorem TypeSyntax.induct {P : TypeSyntax → Prop}
    (name : ∀ rooted segments, (∀ x ∈ segments, ∀ a ∈ x.args, P a) → P (.name rooted segments))
    (array : ∀ element rank, P element → P (.array element rank))
    (pointer : ∀ target, P target → P (.pointer target))
    (nullable : ∀ inner, P inner → P (.nullable inner))
    (fnptr : ∀ params ret, (∀ p ∈ params, P p) → P ret → P (.fnptr params ret))
    (written : TypeSyntax) : P written :=
  @TypeSyntax.rec P (fun xs => ∀ x ∈ xs, ∀ a ∈ x.args, P a) (fun ts => ∀ t ∈ ts, P t)
    (fun x => ∀ a ∈ x.args, P a) name array pointer nullable fnptr (List.forall_mem_nil _)
    (fun _ _ hhead htail => List.forall_mem_cons.mpr ⟨hhead, htail⟩) (List.forall_mem_nil _)
    (fun _ _ hhead htail => List.forall_mem_cons.mpr ⟨hhead, htail⟩) (fun _ _ h => h) written

namespace Graph

variable {g : Graph} {s : Scope}

/-! ## Words -/

/-- **A type that is written as one word.** -/
inductive WordType (g : Graph) (s : Scope) : Ty → Prop where
  | void : WordType g s .void
  | dynamic : WordType g s .dynamic
  | special {special : Special} {t : Ty} (h : g.special? special = some t) : WordType g s t
  | var {word : String} {v : TypeVar} (h : s.var? word = some v) : WordType g s (.var v)

theorem wordType_of_wordType? {word : String} {t : Ty} (h : g.wordType? s word = some (.ok t)) :
    g.WordType s t := by
  unfold wordType? at h
  split at h
  · cases h
    exact .void
  · cases h
    exact .dynamic
  · split at h
    · split at h
      · rename_i hspecial
        cases h
        exact .special hspecial
      · cases h
    · obtain ⟨v, hv, ht⟩ := Option.map_eq_some_iff.mp h
      cases ht
      exact .var hv

/-! ## Several references -/

theorem resolveList_eq_ok {types : List TypeSyntax} {ts : List Ty} :
    g.resolveList s types = .ok ts ↔
      List.Forall₂ (fun written t => g.resolve s written = .ok t) types ts := by
  induction types generalizing ts with
  | nil => simp [resolveList, eq_comm]
  | cons written types ih =>
    rw [resolveList]
    constructor
    · intro h
      split at h
      · cases h
      rename_i t ht
      split at h
      · rename_i ts' hts
        cases h
        exact .cons ht (ih.mp hts)
      · cases h
    · rintro (_ | ⟨ht, hts⟩)
      simp only [ht, ih.mpr hts]

theorem resolveSegments_eq_ok {segments : List (Segment TypeSyntax)} {ts : List Ty} :
    g.resolveSegments s segments = .ok ts ↔
      List.Forall₂ (fun written t => g.resolve s written = .ok t)
        (segments.flatMap (·.args)) ts := by
  induction segments generalizing ts with
  | nil => simp [resolveSegments, eq_comm]
  | cons segment segments ih =>
    obtain ⟨name, args⟩ := segment
    rw [resolveSegments, resolveSegment, List.flatMap_cons]
    constructor
    · intro h
      split at h
      · cases h
      rename_i own hown
      split at h
      · rename_i more hmore
        cases h
        exact List.rel_append (resolveList_eq_ok.mp hown) (ih.mp hmore)
      · cases h
    · intro h
      have hown := List.forall₂_take args.length h
      have hmore := List.forall₂_drop args.length h
      rw [List.take_left] at hown
      rw [List.drop_left] at hmore
      simp only [resolveList_eq_ok.mpr hown, ih.mpr hmore, List.take_append_drop]

/-! ## One reference -/

/-- **A reference and what it denotes**, made of what its parts denote. -/
inductive Resolved (g : Graph) (s : Scope) : TypeSyntax → Ty → Prop where
  | array {element : TypeSyntax} {rank : Nat} {t : Ty} (h : g.resolve s element = .ok t) :
      Resolved g s (.array element rank) (.array t (max rank 1))
  | pointer {target : TypeSyntax} {t : Ty} (h : g.resolve s target = .ok t) :
      Resolved g s (.pointer target) (.pointer t)
  | nullable {inner : TypeSyntax} {t : Ty} (h : g.resolve s inner = .ok t) :
      Resolved g s (.nullable inner) (g.nullableOf t)
  | fnptr {params : List TypeSyntax} {ret : TypeSyntax} {ps : List Ty} {r : Ty}
      (hparams : List.Forall₂ (fun written t => g.resolve s written = .ok t) params ps)
      (hret : g.resolve s ret = .ok r) : Resolved g s (.fnptr params ret) (.fnptr ps r)
  | word {rooted : Bool} {segments : List (Segment TypeSyntax)} {t : Ty} (h : g.WordType s t) :
      Resolved g s (.name rooted segments) t
  | named {rooted : Bool} {segments : List (Segment TypeSyntax)} {d : TypeDecl} {args : List Ty}
      (found : g.lookup? s rooted segments = some d)
      (hargs : List.Forall₂ (fun written t => g.resolve s written = .ok t)
        (segments.flatMap (·.args)) args) :
      Resolved g s (.name rooted segments) (.named d.name (completeArgs d.name args))

theorem resolved_of_resolve {written : TypeSyntax} {t : Ty} (h : g.resolve s written = .ok t) :
    g.Resolved s written t := by
  cases written with
  | name rooted segments =>
    rw [resolve] at h
    split at h
    · rename_i hword
      obtain ⟨word, -, hword⟩ := Option.bind_eq_some_iff.mp hword
      exact .word (wordType_of_wordType? (h ▸ hword))
    split at h
    · cases h
    rename_i found
    split at h
    · rename_i hargs
      cases h
      exact .named found (resolveSegments_eq_ok.mp hargs)
    · cases h
  | array element rank =>
    rw [resolve] at h
    split at h
    · rename_i helement
      cases h
      exact .array helement
    · cases h
  | pointer target =>
    rw [resolve] at h
    split at h
    · rename_i htarget
      cases h
      exact .pointer htarget
    · cases h
  | nullable inner =>
    rw [resolve] at h
    split at h
    · rename_i hinner
      cases h
      exact .nullable hinner
    · cases h
  | fnptr params ret =>
    rw [resolve] at h
    split at h
    · cases h
    rename_i hparams
    split at h
    · rename_i hret
      cases h
      exact .fnptr (resolveList_eq_ok.mp hparams) hret
    · cases h

/-- Binding reads a reference and resolves it. -/
theorem exists_of_bindType {context text : String} {t : Ty}
    (h : g.bindType s context text = .ok t) :
    ∃ written, TypeSyntax.read text = .ok written ∧ g.resolve s written = .ok t := by
  rw [bindType] at h
  split at h
  · cases h
  rename_i written hread
  split at h
  · cases h
  rename_i hresolve
  cases h
  exact ⟨written, hread, hresolve⟩

/-- A type that a name denotes is declared. -/
theorem mem_decls_of_lookup? {α : Type} {rooted : Bool} {segments : List (Segment α)} {d : TypeDecl}
    (h : g.lookup? s rooted segments = some d) : d ∈ g.decls := by
  have hsplit : ∀ splits lead, g.lookupSplit? segments splits lead = some d → d ∈ g.decls := by
    intro splits lead h
    obtain ⟨split, -, hfind⟩ := List.exists_of_findSome?_eq_some h
    obtain ⟨text, -, hd⟩ := Option.bind_eq_some_iff.mp hfind
    exact mem_decls_of_find? hd
  have hleads : ∀ splits (leads : List String),
      leads.findSome? (g.lookupSplit? segments splits) = some d → d ∈ g.decls := by
    intro splits leads h
    obtain ⟨lead, -, hlead⟩ := List.exists_of_findSome?_eq_some h
    exact hsplit splits lead hlead
  rw [lookup?] at h
  split at h
  · exact hsplit _ _ h
  · obtain h | ⟨-, h⟩ := Option.or_eq_some_iff.mp h
    · exact hleads _ _ h
    · obtain h | ⟨-, h⟩ := Option.or_eq_some_iff.mp h
      · exact hleads _ _ h
      · exact hleads _ _ h

/-! ## What every reference hands on -/

/-- **A property that references hand on**: words have it, and so have the types made of types that
have it and of declared types. -/
structure ReferenceClosed (g : Graph) (s : Scope) (P : Ty → Prop) : Prop where
  word {t : Ty} (h : g.WordType s t) : P t
  array {t : Ty} {rank : Nat} (h : P t) : P (.array t rank)
  pointer {t : Ty} (h : P t) : P (.pointer t)
  nullable {t : Ty} (h : P t) : P (g.nullableOf t)
  fnptr {ps : List Ty} {r : Ty} (hparams : ∀ p ∈ ps, P p) (hret : P r) : P (.fnptr ps r)
  named {d : TypeDecl} {args : List Ty} (hd : d ∈ g.decls) (hargs : ∀ a ∈ args, P a) :
    P (.named d.name (completeArgs d.name args))

namespace ReferenceClosed

variable {P : Ty → Prop} (hP : g.ReferenceClosed s P)

include hP

/-- What a reference denotes has a property that references hand on. -/
theorem of_resolve {written : TypeSyntax} {t : Ty} (h : g.resolve s written = .ok t) : P t := by
  induction written using TypeSyntax.induct generalizing t with
  | name rooted segments ih =>
    cases resolved_of_resolve h with
    | word hword => exact hP.word hword
    | named found hargs =>
      refine hP.named (mem_decls_of_lookup? found) fun a ha => ?_
      obtain ⟨own, hown, hresolve⟩ := exists_of_mem_forall₂ hargs ha
      obtain ⟨segment, hsegment, hmem⟩ := List.mem_flatMap.mp hown
      exact ih segment hsegment own hmem hresolve
  | array element rank ih =>
    cases resolved_of_resolve h with
    | array helement => exact hP.array (ih helement)
  | pointer target ih =>
    cases resolved_of_resolve h with
    | pointer htarget => exact hP.pointer (ih htarget)
  | nullable inner ih =>
    cases resolved_of_resolve h with
    | nullable hinner => exact hP.nullable (ih hinner)
  | fnptr params ret hparams hret =>
    cases resolved_of_resolve h with
    | fnptr hps hr =>
      refine hP.fnptr (fun p hp => ?_) (hret hr)
      obtain ⟨own, hown, hresolve⟩ := exists_of_mem_forall₂ hps hp
      exact hparams own hown hresolve

theorem of_bindType {context text : String} {t : Ty} (h : g.bindType s context text = .ok t) :
    P t := by
  obtain ⟨written, -, hresolve⟩ := exists_of_bindType h
  exact hP.of_resolve hresolve

end ReferenceClosed

end Graph

end LateBridge
