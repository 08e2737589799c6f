import LateBridge.Proofs.Syntax.TypeReferences

/-!
# Proofs/Syntax/Heights — how high the trees of type references are

    List<int?[]>       level        suffixes     level
                       List    ──▸  [] ──▸ ?  ──▸  int

On a branch of a tree, names and function pointers are levels, and arrays, pointers and nullable
types are suffixes of what they stand around.  The reader counts levels: of the trees that can be
written at all it accepts exactly those without a branch of more than `maxNesting` levels.  Suffixes
are read in a loop and not counted, so that there is no bound on the height of a tree that is read,
and it keeps within the limit exactly if each branch has no more suffixes than its levels leave room
for (`levels_bounded`).
-/

namespace LateBridge.TypeSyntax

variable {type part : TypeSyntax} {levels suffixes : Nat}

/-! ## Parts and heights -/

/-- **The types directly inside a type.** -/
def parts : TypeSyntax → List TypeSyntax
  | .name _ segments => segments.flatMap (·.args)
  | .array element _ => [element]
  | .pointer target => [target]
  | .nullable inner => [inner]
  | .fnptr params ret => params ++ [ret]

theorem listHeight_append (types more : List TypeSyntax) :
    listHeight (types ++ more) = max (listHeight types) (listHeight more) := by
  induction types with
  | nil => simp [listHeight]
  | cons type types ih => rw [List.cons_append, listHeight, listHeight, ih, Nat.max_assoc]

theorem listHeight_singleton (type : TypeSyntax) : listHeight [type] = type.height := by
  simp [listHeight]

theorem segmentsHeight_eq (segments : List (Segment TypeSyntax)) :
    segmentsHeight segments = listHeight (segments.flatMap (·.args)) := by
  induction segments with
  | nil => rfl
  | cons segment segments ih =>
    rw [segmentsHeight, segmentHeight, ih, List.flatMap_cons, listHeight_append]

/-- **A type is one higher than the highest of its parts.** -/
theorem height_eq (type : TypeSyntax) : type.height = listHeight type.parts + 1 := by
  cases type <;>
    simp [height, parts, segmentsHeight_eq, listHeight_append, listHeight_singleton]

theorem height_le_listHeight {types : List TypeSyntax} (h : type ∈ types) :
    type.height ≤ listHeight types := by
  induction types with
  | nil => cases h
  | cons first types ih =>
    rw [listHeight]
    obtain rfl | h := List.mem_cons.mp h
    · exact Nat.le_max_left _ _
    · exact Nat.le_trans (ih h) (Nat.le_max_right _ _)

theorem exists_height_eq {types : List TypeSyntax} (h : types ≠ []) :
    ∃ type ∈ types, type.height = listHeight types := by
  induction types with
  | nil => exact absurd rfl h
  | cons first types ih =>
    rw [listHeight]
    obtain hlt | hle := Nat.lt_or_ge first.height (listHeight types)
    · have hne : types ≠ [] := by
        rintro rfl
        cases hlt
      obtain ⟨type, hmem, heq⟩ := ih hne
      exact ⟨type, List.mem_cons_of_mem _ hmem, by rw [heq, Nat.max_eq_right (Nat.le_of_lt hlt)]⟩
    · exact ⟨first, List.mem_cons_self, (Nat.max_eq_left hle).symm⟩

theorem height_lt_of_mem_parts (h : part ∈ type.parts) : part.height < type.height := by
  rw [height_eq type]
  exact Nat.lt_succ_of_le (height_le_listHeight h)

/-! ## Branches -/

/-- The levels that a node is. -/
def level : TypeSyntax → Nat
  | .name _ _ | .fnptr _ _ => 1
  | .array _ _ | .pointer _ | .nullable _ => 0

/-- The suffixes that a node is. -/
def suffix : TypeSyntax → Nat
  | .name _ _ | .fnptr _ _ => 0
  | .array _ _ | .pointer _ | .nullable _ => 1

theorem level_add_suffix (type : TypeSyntax) : type.level + type.suffix = 1 := by
  cases type <;> rfl

/-- **A branch from the root of a tree** down to some node, with its levels and its suffixes. -/
inductive Branch : TypeSyntax → Nat → Nat → Prop where
  | root (type : TypeSyntax) : Branch type type.level type.suffix
  | down {type part : TypeSyntax} {levels suffixes : Nat} (hpart : part ∈ type.parts)
      (h : Branch part levels suffixes) : Branch type (levels + type.level) (suffixes + type.suffix)

theorem Branch.add_le_height (h : type.Branch levels suffixes) :
    levels + suffixes ≤ type.height := by
  induction h with
  | root type =>
    rw [level_add_suffix, height_eq]
    exact Nat.le_add_left 1 _
  | @down type part levels suffixes hpart _ ih =>
    have hone := level_add_suffix type
    have hlt := height_lt_of_mem_parts hpart
    omega

/-- **Some branch is as long as the tree is high.** -/
theorem exists_branch_height (type : TypeSyntax) :
    ∃ levels suffixes, type.Branch levels suffixes ∧ levels + suffixes = type.height := by
  induction hheight : type.height using Nat.strong_induction_on generalizing type with
  | h height ih =>
    subst hheight
    have hone := level_add_suffix type
    by_cases hparts : type.parts = []
    · refine ⟨_, _, .root type, ?_⟩
      rw [hone, height_eq, hparts]
      rfl
    · obtain ⟨part, hpart, heq⟩ := exists_height_eq hparts
      obtain ⟨levels, suffixes, hbranch, hsum⟩ := ih _ (height_lt_of_mem_parts hpart) part rfl
      refine ⟨_, _, .down hpart hbranch, ?_⟩
      rw [height_eq type, ← heq, ← hsum]
      omega

theorem height_le_iff {limit : Nat} : type.height ≤ limit ↔
    ∀ levels suffixes, type.Branch levels suffixes → levels + suffixes ≤ limit := by
  constructor
  · exact fun h levels suffixes hbranch => Nat.le_trans hbranch.add_le_height h
  · intro h
    obtain ⟨levels, suffixes, hbranch, hsum⟩ := type.exists_branch_height
    exact hsum ▸ h levels suffixes hbranch

/-! ## Levels of what can be written -/

theorem Writable.of_mem_parts {depth : Nat} (h : type.Writable depth) (hpart : part ∈ type.parts) :
    ∃ inner, inner + type.level = depth ∧ part.Writable inner := by
  cases h with
  | name _ _ args =>
    obtain ⟨segment, hsegment, harg⟩ := List.mem_flatMap.mp hpart
    exact ⟨_, rfl, args segment hsegment part harg⟩
  | fnptr hparams hret =>
    obtain hparam | hmem := List.mem_append.mp hpart
    · exact ⟨_, rfl, hparams part hparam⟩
    · obtain rfl := List.mem_singleton.mp hmem
      exact ⟨_, rfl, hret⟩
  | array h _ _ | pointer h | nullable h =>
    obtain rfl := List.mem_singleton.mp hpart
    exact ⟨_, rfl, h⟩

theorem Writable.level_le {depth : Nat} (h : type.Writable depth) : type.level ≤ depth := by
  cases h with
  | name | fnptr => exact Nat.le_add_left 1 _
  | array | pointer | nullable => exact Nat.zero_le _

theorem Writable.levels_le {depth : Nat} (h : type.Writable depth)
    (hbranch : type.Branch levels suffixes) : levels ≤ depth := by
  induction hbranch generalizing depth with
  | root type => exact h.level_le
  | down hpart _ ih =>
    obtain ⟨inner, rfl, hwritable⟩ := h.of_mem_parts hpart
    exact Nat.add_le_add_right (ih hwritable) _

/-- **Only levels matter for the depth at which a tree can be written.** -/
theorem Writable.of_levels_le {depth limit : Nat} (h : type.Writable depth)
    (hlevels : ∀ levels suffixes, type.Branch levels suffixes → levels ≤ limit) :
    type.Writable limit := by
  induction h generalizing limit with
  | @name _ rooted segments nonempty names _ ih =>
    obtain ⟨limit, rfl⟩ := Nat.exists_eq_add_of_le' (hlevels _ _ (.root (.name rooted segments)))
    refine .name nonempty names fun x hx a ha => ih x hx a ha fun levels suffixes hbranch => ?_
    have hpart : a ∈ (TypeSyntax.name rooted segments).parts :=
      List.mem_flatMap.mpr ⟨x, hx, ha⟩
    exact Nat.le_of_succ_le_succ (hlevels _ _ (.down hpart hbranch))
  | @fnptr _ params ret _ _ ihp ihr =>
    obtain ⟨limit, rfl⟩ := Nat.exists_eq_add_of_le' (hlevels _ _ (.root (.fnptr params ret)))
    have hinner : ∀ p ∈ (TypeSyntax.fnptr params ret).parts, ∀ levels suffixes,
        p.Branch levels suffixes → levels ≤ limit := fun p hp levels suffixes hbranch =>
      Nat.le_of_succ_le_succ (hlevels _ _ (.down hp hbranch))
    obtain ⟨hparams, hret⟩ := List.forall_mem_append.mp hinner
    exact .fnptr (fun p hp => ihp p hp (hparams p hp)) (ihr (hret ret List.mem_cons_self))
  | @array _ element rank _ pos le ih =>
    have hpart : element ∈ (TypeSyntax.array element rank).parts := List.mem_cons_self
    exact .array (ih fun levels suffixes hbranch => hlevels _ _ (.down hpart hbranch)) pos le
  | @pointer _ target _ ih =>
    have hpart : target ∈ (TypeSyntax.pointer target).parts := List.mem_cons_self
    exact .pointer (ih fun levels suffixes hbranch => hlevels _ _ (.down hpart hbranch))
  | @nullable _ inner _ ih =>
    have hpart : inner ∈ (TypeSyntax.nullable inner).parts := List.mem_cons_self
    exact .nullable (ih fun levels suffixes hbranch => hlevels _ _ (.down hpart hbranch))

/-- With question marks a tree can be made as high as one likes. -/
theorem Writable.exists_higher {depth : Nat} (h : type.Writable depth) {n : Nat}
    (hn : type.height ≤ n) : ∃ higher : TypeSyntax, higher.Writable depth ∧ higher.height = n := by
  induction n, hn using Nat.le_induction with
  | base => exact ⟨type, h, rfl⟩
  | succ n _ ih =>
    obtain ⟨higher, hwritable, rfl⟩ := ih
    exact ⟨.nullable higher, .nullable hwritable, by rw [height]⟩

/-! ## What is read -/

/-- **The reader bounds levels and nothing else**: of the trees that can be written at some depth, it
accepts exactly those without a branch of more than `maxNesting` levels.  The height of an accepted
tree keeps within the same limit exactly if each branch has at most as many suffixes as its levels
leave room for, and there are accepted trees of every greater height. -/
theorem levels_bounded (type : TypeSyntax) :
    ((∃ text, read text = .ok type) ↔ (∃ depth, type.Writable depth) ∧
      ∀ levels suffixes, type.Branch levels suffixes → levels ≤ TypeReader.maxNesting) ∧
    ∀ text, read text = .ok type →
      (type.height ≤ TypeReader.maxNesting ↔ ∀ levels suffixes, type.Branch levels suffixes →
        suffixes ≤ TypeReader.maxNesting - levels) ∧
      ∀ n, type.height ≤ n → ∃ more higher, read more = .ok higher ∧ higher.height = n := by
  refine ⟨⟨?_, ?_⟩, fun text htext => ⟨?_, fun n hn => ?_⟩⟩
  · rintro ⟨text, htext⟩
    have hwritable := writable_of_read htext
    exact ⟨⟨_, hwritable⟩, fun levels suffixes hbranch => hwritable.levels_le hbranch⟩
  · rintro ⟨⟨depth, hwritable⟩, hlevels⟩
    exact (read_eq_ok_iff type).2.mpr (hwritable.of_levels_le hlevels)
  · rw [height_le_iff]
    refine forall₂_congr fun levels suffixes => forall_congr' fun hbranch => ?_
    have hle := (writable_of_read htext).levels_le hbranch
    omega
  · obtain ⟨higher, hwritable, hheight⟩ := (writable_of_read htext).exists_higher hn
    obtain ⟨more, hmore⟩ := (read_eq_ok_iff higher).2.mpr hwritable
    exact ⟨more, higher, hmore, hheight⟩

/-- A word behind a list of nullable words. -/
def shelved : TypeSyntax :=
  .array (.name false [⟨"List", [.nullable (.name false [⟨"int", []⟩])]⟩]) 1

/-- A tree of four nodes, of which two are levels. -/
theorem levels_bounded_shelved : read "List<int?>[]" = .ok shelved ∧
    (shelved.height ≤ TypeReader.maxNesting ↔ ∀ levels suffixes, shelved.Branch levels suffixes →
      suffixes ≤ TypeReader.maxNesting - levels) ∧
    ∃ more higher, read more = .ok higher ∧ higher.height = 1000 := by
  have hread : read "List<int?>[]" = .ok shelved := by rfl
  obtain ⟨hheight, hhigher⟩ := (levels_bounded shelved).2 _ hread
  exact ⟨hread, hheight, hhigher 1000 (by decide)⟩

/-- A word and a number of question marks. -/
def nullableText (marks : Nat) : String := "int" ++ String.ofList (List.replicate marks '?')

/-- **A tree that is read may be higher than the limit.** -/
theorem height_exceeds_nullable :
    ∃ type, read (nullableText 129) = .ok type ∧ ¬type.height ≤ TypeReader.maxNesting := by
  have hcheck : (match read (nullableText 129) with
      | .ok type => !decide (type.height ≤ TypeReader.maxNesting)
      | .error _ => false) = true := by decide +kernel
  split at hcheck
  · rename_i type hread
    exact ⟨type, hread, by simpa using hcheck⟩
  · cases hcheck

end LateBridge.TypeSyntax
