import LateBridge.Proofs.Generation
import LateBridge.Proofs.Source.Layout
import LateBridge.Proofs.Symbols.Metadata
import LateBridge.Source.Artifact

/-!
# Proofs/Source/Forest — every bridge in its place

    plans ──containing chains──▸ forest ──types in order──▸ text

Bridges are placed one by one, each along the containing chain of its type.  What a forest has to
be after any number of them can be said without the order of the work: below a type stand the types
that the chains step to from there, in the order in which they are first met (`met`), and a type has
the bridges that are declared in it (`TypeNode.Fits`).  One more bridge changes this along its own
chain only, and placing it makes the same change (`fits_insert`).
-/

namespace LateBridge

/-! ## Steps of a containing chain -/

namespace DeclName

theorem mem_chain_trans {inner middle outer : DeclName} (h : outer ∈ middle.chain)
    (hmiddle : middle ∈ inner.chain) : outer ∈ inner.chain := by
  induction inner with
  | top space name params =>
    obtain rfl := List.mem_singleton.mp hmiddle
    exact h
  | nested around name params ih =>
    rcases List.mem_append.mp hmiddle with hmiddle | hmiddle
    · exact List.mem_append_left _ (ih hmiddle)
    · obtain rfl := List.mem_singleton.mp hmiddle
      exact h

theorem chain_of_outer? {n outer : DeclName} (h : n.outer? = some outer) :
    n.chain = outer.chain ++ [n] := by
  rcases n with _ | ⟨around, name, params⟩
  · exact absurd h.symm (Option.some_ne_none outer)
  · obtain rfl := Option.some.inj h
    rfl

theorem mem_chain_of_outer? {n outer : DeclName} (h : n.outer? = some outer) :
    outer ∈ n.chain := by
  rw [chain_of_outer? h]
  exact List.mem_append_left _ outer.self_mem_chain

/-- A type does not stand in the chain of the type around it. -/
theorem not_mem_chain_of_outer? {n outer : DeclName} (h : n.outer? = some outer) :
    n ∉ outer.chain := by
  intro hmem
  have hlength := length_chain_le hmem
  rw [chain_of_outer? h, List.length_append, List.length_singleton] at hlength
  omega

/-- **A chain takes one step from a type.** -/
theorem eq_of_mem_chain {n t u : DeclName} (ht : t ∈ n.chain) (hu : u ∈ n.chain)
    (h : t.outer? = u.outer?) : t = u := by
  induction n with
  | top space name params => rw [List.mem_singleton.mp ht, List.mem_singleton.mp hu]
  | nested outer name params ih =>
    rcases List.mem_append.mp ht with ht | ht <;> rcases List.mem_append.mp hu with hu | hu
    · exact ih ht hu
    · rw [List.mem_singleton.mp hu] at h
      exact absurd ht (not_mem_chain_of_outer? h)
    · rw [List.mem_singleton.mp ht] at h
      exact absurd hu (not_mem_chain_of_outer? h.symm)
    · rw [List.mem_singleton.mp ht, List.mem_singleton.mp hu]

/-- What stands in front of a type in a chain ends with the type around it. -/
theorem outer?_of_chain_eq {n first : DeclName} {front rest : List DeclName}
    (h : n.chain = front ++ first :: rest) : first.outer? = front.getLast? := by
  induction n generalizing rest with
  | top space name params =>
    obtain ⟨rfl, hrest⟩ | ⟨-, hnil⟩ := List.append_eq_singleton_iff.mp h.symm
    · rw [(List.cons.inj hrest).1]
      rfl
    · exact absurd hnil (List.cons_ne_nil first rest)
  | nested outer name params ih =>
    rcases List.eq_nil_or_concat rest with rfl | ⟨inner, last, rfl⟩
    · obtain ⟨rfl, hfirst⟩ := List.append_inj' h rfl
      rw [← (List.cons.inj hfirst).1, getLast?_chain]
      rfl
    · rw [List.concat_eq_append, ← List.cons_append, ← List.append_assoc] at h
      exact ih (List.append_inj_left' h rfl)

/-- **The step of a containing chain** from a type, or to its first type from none. -/
def stepFrom? (n : DeclName) (outer : Option DeclName) : Option DeclName :=
  n.chain.find? (·.outer? == outer)

theorem stepFrom?_eq_some_iff {n t : DeclName} {outer : Option DeclName} :
    n.stepFrom? outer = some t ↔ t ∈ n.chain ∧ t.outer? = outer := by
  constructor
  · intro h
    exact ⟨List.mem_of_find?_eq_some h, by simpa using List.find?_some h⟩
  · rintro ⟨hmem, houter⟩
    cases hstep : n.stepFrom? outer with
    | none => exact absurd (beq_iff_eq.mpr houter) (List.find?_eq_none.mp hstep t hmem)
    | some u =>
      have hu : u.outer? = outer := by simpa using List.find?_some hstep
      rw [eq_of_mem_chain (List.mem_of_find?_eq_some hstep) hmem (hu.trans houter.symm)]

theorem stepFrom?_eq_none {n outer : DeclName} (h : outer ∉ n.chain) :
    n.stepFrom? (some outer) = none := by
  rw [Option.eq_none_iff_forall_ne_some]
  intro t ht
  obtain ⟨hmem, houter⟩ := stepFrom?_eq_some_iff.mp ht
  exact h (mem_chain_trans (mem_chain_of_outer? houter) hmem)

/-- A chain ends with its type. -/
theorem stepFrom?_self (n : DeclName) : n.stepFrom? (some n) = none := by
  rw [Option.eq_none_iff_forall_ne_some]
  intro t ht
  obtain ⟨hmem, houter⟩ := stepFrom?_eq_some_iff.mp ht
  exact not_mem_chain_of_outer? houter hmem

end DeclName

/-! ## Types in the order in which they are met -/

theorem eraseDups_concat {α : Type} [BEq α] [LawfulBEq α] (as : List α) (a : α) :
    (as ++ [a]).eraseDups = if as.contains a then as.eraseDups else as.eraseDups ++ [a] := by
  rw [List.eraseDups_append, List.removeAll]
  by_cases h : a ∈ as
  · simp [h]
  · simp [h, List.eraseDups_cons]

/-- **The types that plans meet below a type**, or at the top for none, in first-seen order. -/
def met (plans : List BridgePlan) (outer : Option DeclName) : List DeclName :=
  (plans.filterMap (·.declaring.stepFrom? outer)).eraseDups

/-- **The plans of bridges that are declared in a type**, in order. -/
def declaredIn (plans : List BridgePlan) (type : DeclName) : List BridgePlan :=
  plans.filter (·.declaring == type)

section Met

variable {plans : List BridgePlan} {plan : BridgePlan} {outer : Option DeclName} {t : DeclName}

theorem mem_declaredIn : plan ∈ declaredIn plans t ↔ plan ∈ plans ∧ plan.declaring = t := by
  rw [declaredIn, List.mem_filter, beq_iff_eq]

theorem declaredIn_concat : declaredIn (plans ++ [plan]) t =
    if plan.declaring = t then declaredIn plans t ++ [plan] else declaredIn plans t := by
  rw [declaredIn, List.filter_append, declaredIn]
  split
  · rename_i h
    simp [h]
  · rename_i h
    simp [h]

theorem mem_met : t ∈ met plans outer ↔
    t.outer? = outer ∧ ∃ plan ∈ plans, t ∈ plan.declaring.chain := by
  simp only [met, List.mem_eraseDups, List.mem_filterMap, DeclName.stepFrom?_eq_some_iff]
  constructor
  · rintro ⟨plan, hplan, hmem, houter⟩
    exact ⟨houter, plan, hplan, hmem⟩
  · rintro ⟨houter, plan, hplan, hmem⟩
    exact ⟨plan, hplan, hmem, houter⟩

theorem nodup_met (plans : List BridgePlan) (outer : Option DeclName) :
    (met plans outer).Nodup := nodup_eraseDups _

/-- A plan whose chain takes no step from a type meets nothing there. -/
theorem met_concat_of_none (h : plan.declaring.stepFrom? outer = none) :
    met (plans ++ [plan]) outer = met plans outer := by
  simp only [met, List.filterMap_append, List.filterMap_cons, List.filterMap_nil, h,
    List.append_nil]

/-- A plan meets the type its chain steps to, unless it has been met. -/
theorem met_concat_of_some (h : plan.declaring.stepFrom? outer = some t) :
    met (plans ++ [plan]) outer =
      if t ∈ met plans outer then met plans outer else met plans outer ++ [t] := by
  simp only [met, List.filterMap_append, List.filterMap_cons, List.filterMap_nil, h,
    eraseDups_concat, List.mem_eraseDups, List.contains_iff_mem]

end Met

/-! ## Forests that fit their plans -/

namespace TypeNode

/-- The bridges of a node. -/
def plans : TypeNode → List BridgePlan
  | node _ plans _ => plans

/-- The nodes directly inside a node. -/
def nested : TypeNode → List TypeNode
  | node _ _ nested => nested

/-- **A node fits plans**: it has the bridges declared in its type, and the types inside it are
those that the plans meet there. -/
inductive Fits (plans : List BridgePlan) : TypeNode → Prop where
  | intro {type : DeclName} {own : List BridgePlan} {nested : List TypeNode}
      (own_eq : own = declaredIn plans type)
      (types_eq : nested.map TypeNode.type = met plans (some type))
      (fits : ∀ n ∈ nested, Fits plans n) : Fits plans (.node type own nested)

/-- **Several nodes fit plans** below a type, or at the top for none. -/
structure FitBelow (plans : List BridgePlan) (outer : Option DeclName) (forest : List TypeNode) :
    Prop where
  types_eq : forest.map TypeNode.type = met plans outer
  fits : ∀ n ∈ forest, n.Fits plans

theorem Fits.plans_eq {plans : List BridgePlan} {n : TypeNode} (h : n.Fits plans) :
    n.plans = declaredIn plans n.type := by
  obtain ⟨hown, -, -⟩ := h
  exact hown

theorem Fits.nested_fit {plans : List BridgePlan} {n : TypeNode} (h : n.Fits plans) :
    FitBelow plans (some n.type) n.nested := by
  obtain ⟨-, htypes, hfits⟩ := h
  exact ⟨htypes, hfits⟩

section Insertion

variable {plans : List BridgePlan} {plan : BridgePlan} {outer : Option DeclName}
  {trees : List TypeNode} {n : TypeNode}

theorem FitBelow.mem_met (h : FitBelow plans outer trees) (hn : n ∈ trees) :
    n.type ∈ met plans outer := h.types_eq ▸ List.mem_map_of_mem hn

theorem FitBelow.outer?_eq (h : FitBelow plans outer trees) (hn : n ∈ trees) :
    n.type.outer? = outer := (LateBridge.mem_met.mp (h.mem_met hn)).1

/-- **A plan changes nothing off its own chain.** -/
theorem Fits.concat (h : n.Fits plans) (hoff : n.type ∉ plan.declaring.chain) :
    n.Fits (plans ++ [plan]) := by
  induction h with
  | @intro type own nested hown htypes _ ih =>
    have hstep : plan.declaring.stepFrom? (some type) = none := DeclName.stepFrom?_eq_none hoff
    have hne : plan.declaring ≠ type := fun heq => hoff (heq ▸ plan.declaring.self_mem_chain)
    refine .intro ?_ ?_ fun c hc => ih c hc fun hmem => hoff ?_
    · rw [hown, declaredIn_concat, if_neg hne]
    · rw [htypes, met_concat_of_none hstep]
    · have hc : c.type ∈ met plans (some type) := htypes ▸ List.mem_map_of_mem hc
      exact DeclName.mem_chain_trans (DeclName.mem_chain_of_outer? (LateBridge.mem_met.mp hc).1) hmem

/-- A type that no plan has met fits as an empty node. -/
theorem fits_empty {first : DeclName} (h : first ∉ met plans first.outer?) :
    Fits plans (.node first [] []) := by
  have hoff : ∀ plan ∈ plans, first ∉ plan.declaring.chain := fun plan hplan hmem =>
    h (LateBridge.mem_met.mpr ⟨rfl, plan, hplan, hmem⟩)
  refine .intro (List.eq_nil_iff_forall_not_mem.mpr fun plan hown => ?_).symm
    (List.eq_nil_iff_forall_not_mem.mpr fun t ht => ?_).symm nofun
  · obtain ⟨hplan, rfl⟩ := mem_declaredIn.mp hown
    exact hoff plan hplan plan.declaring.self_mem_chain
  · obtain ⟨houter, plan, hplan, hmem⟩ := LateBridge.mem_met.mp ht
    exact hoff plan hplan (DeclName.mem_chain_trans (DeclName.mem_chain_of_outer? houter) hmem)

/-- A node with one more bridge in it, at the end of a path. -/
def placed (plan : BridgePlan) (path : List DeclName) : TypeNode → TypeNode
  | node type plans nested =>
    if path.isEmpty then node type (plans ++ [plan]) nested
    else node type plans (insert plan path nested)

@[simp] theorem type_placed (plan : BridgePlan) (path : List DeclName) (n : TypeNode) :
    (n.placed plan path).type = n.type := by
  obtain ⟨type, plans, nested⟩ := n
  rw [placed]
  split <;> rfl

theorem insert_cons (plan : BridgePlan) (first : DeclName) (rest : List DeclName)
    (trees : List TypeNode) : insert plan (first :: rest) trees =
      if trees.any (·.type == first) then
        trees.map fun n => if n.type == first then n.placed plan rest else n
      else trees ++ [(node first [] []).placed plan rest] := by
  rw [insert]
  rfl

theorem Fits.placed_last (h : n.Fits plans) (hlast : plan.declaring = n.type) :
    (n.placed plan []).Fits (plans ++ [plan]) := by
  obtain @⟨type, own, nested, hown, htypes, hfits⟩ := h
  obtain rfl : plan.declaring = type := hlast
  have hstep := plan.declaring.stepFrom?_self
  refine .intro ?_ (by rw [htypes, met_concat_of_none hstep]) fun c hc => (hfits c hc).concat ?_
  · rw [hown, declaredIn_concat, if_pos rfl]
  · have hc : c.type ∈ met plans (some plan.declaring) := htypes ▸ List.mem_map_of_mem hc
    exact DeclName.not_mem_chain_of_outer? (LateBridge.mem_met.mp hc).1

theorem Fits.placed_inside {path : List DeclName} (h : n.Fits plans) (hpath : path ≠ [])
    (hne : n.type ≠ plan.declaring)
    (hinside : ∀ nested, FitBelow plans (some n.type) nested →
      FitBelow (plans ++ [plan]) (some n.type) (insert plan path nested)) :
    (n.placed plan path).Fits (plans ++ [plan]) := by
  obtain @⟨type, own, nested, hown, htypes, hfits⟩ := h
  have hnested := hinside nested ⟨htypes, hfits⟩
  rw [placed, if_neg (by simpa using hpath)]
  refine .intro ?_ hnested.types_eq hnested.fits
  rw [hown, declaredIn_concat, if_neg fun h => hne h.symm]

/-- A plan that steps to a type is placed in the node of this type, or in a new one. -/
theorem FitBelow.insert {first : DeclName} {rest : List DeclName} (h : FitBelow plans outer trees)
    (hstep : plan.declaring.stepFrom? outer = some first)
    (hplaced : ∀ n : TypeNode, n.Fits plans → n.type = first →
      (n.placed plan rest).Fits (plans ++ [plan])) :
    FitBelow (plans ++ [plan]) outer (insert plan (first :: rest) trees) := by
  obtain ⟨hmem, houter⟩ := DeclName.stepFrom?_eq_some_iff.mp hstep
  have hknown : trees.any (·.type == first) = true ↔ first ∈ met plans outer := by
    rw [← h.types_eq, List.any_eq_true, List.mem_map]
    simp only [beq_iff_eq]
  have hother : ∀ n ∈ trees, n.type ≠ first → n.Fits (plans ++ [plan]) := by
    intro n hn hne
    refine (h.fits n hn).concat fun hchain => hne ?_
    exact DeclName.eq_of_mem_chain hchain hmem ((h.outer?_eq hn).trans houter.symm)
  rw [insert_cons]
  split
  · rename_i hany
    constructor
    · rw [met_concat_of_some hstep, if_pos (hknown.mp hany), ← h.types_eq, List.map_map]
      refine List.map_congr_left fun n _ => ?_
      rw [Function.comp_apply]
      split
      · exact type_placed plan rest n
      · rfl
    · rw [List.forall_mem_map]
      intro n hn
      split
      · rename_i htype
        exact hplaced n (h.fits n hn) (eq_of_beq htype)
      · rename_i htype
        exact hother n hn fun heq => htype (beq_iff_eq.mpr heq)
  · rename_i hany
    have hnew : first ∉ met plans outer := mt hknown.mpr hany
    constructor
    · rw [met_concat_of_some hstep, if_neg hnew, List.map_append, h.types_eq, List.map_singleton,
        type_placed, type]
    · refine List.forall_mem_append.mpr ⟨fun n hn => hother n hn fun heq => ?_,
        List.forall_mem_singleton.mpr (hplaced _ (fits_empty (houter ▸ hnew)) rfl)⟩
      exact hnew (heq ▸ h.mem_met hn)

/-- **A bridge in a forest.**  If the types of a plan's chain behind some front are to be placed
below the last type of the front, what fitted the plans there fits them with the new one. -/
theorem fitBelow_insert {front rest : List DeclName} {first : DeclName}
    (hchain : plan.declaring.chain = front ++ first :: rest)
    (h : FitBelow plans front.getLast? trees) :
    FitBelow (plans ++ [plan]) front.getLast? (insert plan (first :: rest) trees) := by
  have hstep : plan.declaring.stepFrom? front.getLast? = some first :=
    DeclName.stepFrom?_eq_some_iff.mpr
      ⟨hchain ▸ List.mem_append_right _ List.mem_cons_self, DeclName.outer?_of_chain_eq hchain⟩
  have hlast : (first :: rest).getLast? = some plan.declaring := by
    rw [← plan.declaring.getLast?_chain, hchain, List.getLast?_append_cons]
  -- the induction is on the types the plan is still to be placed below
  induction rest generalizing front first trees with
  | nil =>
    refine h.insert hstep fun n hn htype => hn.placed_last ?_
    rw [htype, ← Option.some.inj hlast, List.getLast_singleton]
  | cons second rest ih =>
    have hnext : plan.declaring.chain = (front ++ [first]) ++ second :: rest := by
      rw [hchain, List.append_assoc, List.singleton_append]
    have hfirst : (front ++ [first]).getLast? = some first := List.getLast?_concat
    have hsecond : plan.declaring.stepFrom? (some first) = some second :=
      DeclName.stepFrom?_eq_some_iff.mpr ⟨hnext ▸ List.mem_append_right _ List.mem_cons_self,
        (DeclName.outer?_of_chain_eq hnext).trans hfirst⟩
    refine h.insert hstep fun n hn htype =>
      hn.placed_inside (List.cons_ne_nil second rest) ?_ fun nested hnested => ?_
    · rintro hlast
      rw [← htype, hlast, DeclName.stepFrom?_self] at hsecond
      exact absurd hsecond.symm (Option.some_ne_none second)
    · rw [htype, ← hfirst] at hnested ⊢
      exact ih hnext hnested (hfirst ▸ hsecond) hlast

theorem fitBelow_forest (plans : List BridgePlan) : FitBelow plans none (forest plans) := by
  induction plans using List.reverseRecOn with
  | nil => exact ⟨rfl, nofun⟩
  | append_singleton plans plan ih =>
    obtain ⟨first, rest, hchain⟩ :=
      List.exists_cons_of_ne_nil (List.ne_nil_of_mem plan.declaring.self_mem_chain)
    have hwhole : plan.declaring.chain = [] ++ first :: rest := hchain
    rw [forest, List.foldl_append, List.foldl_cons, List.foldl_nil, hchain]
    exact fitBelow_insert hwhole ih

end Insertion

/-! ## The nodes of a forest -/

mutual

/-- **The nodes of a tree** in the order of the text: each in front of those inside it. -/
def nodes : TypeNode → List TypeNode
  | n@(node _ _ nested) => n :: nodesList nested

/-- The nodes of several trees. -/
def nodesList : List TypeNode → List TypeNode
  | [] => []
  | n :: ns => n.nodes ++ nodesList ns

end

theorem nodesList_eq_flatMap (trees : List TypeNode) : nodesList trees = trees.flatMap nodes := by
  induction trees with
  | nil => rfl
  | cons n ns ih => rw [nodesList, ih, List.flatMap_cons]

theorem mem_nodesList {trees : List TypeNode} {m : TypeNode} :
    m ∈ nodesList trees ↔ ∃ n ∈ trees, m ∈ n.nodes := by
  rw [nodesList_eq_flatMap, List.mem_flatMap]

theorem self_mem_nodes (n : TypeNode) : n ∈ n.nodes := by
  obtain ⟨type, plans, nested⟩ := n
  exact List.mem_cons_self

mutual

theorem nested_mem_nodes {m c : TypeNode} (hc : c ∈ m.nested) :
    (n : TypeNode) → m ∈ n.nodes → c ∈ n.nodes
  | node type plans nested => by
    rw [nodes, List.mem_cons]
    rintro (rfl | hm)
    · exact List.mem_cons_of_mem _ (mem_nodesList.mpr ⟨c, hc, c.self_mem_nodes⟩)
    · exact List.mem_cons_of_mem _ (nested_mem_nodesList hc nested hm)

/-- What is directly inside a node of some trees is a node of the trees. -/
theorem nested_mem_nodesList {m c : TypeNode} (hc : c ∈ m.nested) :
    (trees : List TypeNode) → m ∈ nodesList trees → c ∈ nodesList trees
  | [] => fun hm => absurd hm List.not_mem_nil
  | n :: ns => by
    rw [nodesList, List.mem_append, List.mem_append]
    rintro (hm | hm)
    · exact .inl (nested_mem_nodes hc n hm)
    · exact .inr (nested_mem_nodesList hc ns hm)

end

section Nodes

variable {plans : List BridgePlan} {outer : Option DeclName} {trees : List TypeNode}
  {n m : TypeNode}

/-- The nodes of a tree fit as well, and the type of the tree is around theirs. -/
theorem Fits.of_mem_nodes (h : n.Fits plans) (hm : m ∈ n.nodes) :
    m.Fits plans ∧ n.type ∈ m.type.chain := by
  induction h with
  | @intro type own nested hown htypes hfits ih =>
    rcases List.mem_cons.mp hm with rfl | hm
    · exact ⟨.intro hown htypes hfits, DeclName.self_mem_chain _⟩
    · obtain ⟨c, hc, hm⟩ := mem_nodesList.mp hm
      obtain ⟨hfits, hchain⟩ := ih c hc hm
      have hc : c.type ∈ met plans (some type) := htypes ▸ List.mem_map_of_mem hc
      have houter := (LateBridge.mem_met.mp hc).1
      exact ⟨hfits, DeclName.mem_chain_trans (DeclName.mem_chain_of_outer? houter) hchain⟩

/-- Only types of chains are placed. -/
theorem Fits.mem_chain (h : n.Fits plans) (hn : ∃ plan ∈ plans, n.type ∈ plan.declaring.chain)
    (hm : m ∈ n.nodes) : ∃ plan ∈ plans, m.type ∈ plan.declaring.chain := by
  induction h with
  | @intro type own nested _ htypes _ ih =>
    rcases List.mem_cons.mp hm with rfl | hm
    · exact hn
    · obtain ⟨c, hc, hm⟩ := mem_nodesList.mp hm
      have hmet : c.type ∈ met plans (some type) := htypes ▸ List.mem_map_of_mem hc
      exact ih c hc (LateBridge.mem_met.mp hmet).2 hm

theorem FitBelow.fits_of_mem (h : FitBelow plans outer trees) (hm : m ∈ nodesList trees) :
    m.Fits plans := by
  obtain ⟨n, hn, hm⟩ := mem_nodesList.mp hm
  exact ((h.fits n hn).of_mem_nodes hm).1

/-- **Trees below a type share no type.** -/
theorem FitBelow.nodup_types (h : FitBelow plans outer trees)
    (hnodup : ∀ n ∈ trees, (n.nodes.map type).Nodup) : ((nodesList trees).map type).Nodup := by
  have hdistinct : trees.Pairwise fun a b => a.type ≠ b.type :=
    List.pairwise_map.mp (h.types_eq ▸ nodup_met plans outer)
  rw [nodesList_eq_flatMap, List.map_flatMap, List.nodup_flatMap]
  refine ⟨hnodup, hdistinct.imp_of_mem fun {a b} ha hb hne => ?_⟩
  intro t hta htb
  obtain ⟨x, hx, rfl⟩ := List.mem_map.mp hta
  obtain ⟨y, hy, htype⟩ := List.mem_map.mp htb
  have hachain := ((h.fits a ha).of_mem_nodes hx).2
  have hbchain := ((h.fits b hb).of_mem_nodes hy).2
  rw [htype] at hbchain
  exact hne (DeclName.eq_of_mem_chain hachain hbchain
    ((h.outer?_eq ha).trans (h.outer?_eq hb).symm))

theorem Fits.nodup_types (h : n.Fits plans) : (n.nodes.map type).Nodup := by
  induction h with
  | @intro type own nested hown htypes hfits ih =>
    have hbelow : FitBelow plans (some type) nested := ⟨htypes, hfits⟩
    rw [nodes, List.map_cons]
    refine List.nodup_cons.mpr ⟨fun hmem => ?_, hbelow.nodup_types ih⟩
    obtain ⟨m, hm, htype⟩ := List.mem_map.mp hmem
    obtain ⟨c, hc, hm⟩ := mem_nodesList.mp hm
    have hchain := ((hfits c hc).of_mem_nodes hm).2
    rw [htype] at hchain
    exact DeclName.not_mem_chain_of_outer? (hbelow.outer?_eq hc) hchain

/-- Every type of a chain is placed, because the one around it is. -/
theorem FitBelow.exists_node (h : FitBelow plans none trees) {plan : BridgePlan}
    (hplan : plan ∈ plans) {t : DeclName} (ht : t ∈ plan.declaring.chain) :
    ∃ m ∈ nodesList trees, m.type = t := by
  have hstands : ∀ {outer below t}, FitBelow plans outer below → t.outer? = outer →
      t ∈ plan.declaring.chain → ∃ m ∈ below, m.type = t := fun hbelow houter hmem =>
    List.mem_map.mp (hbelow.types_eq ▸ LateBridge.mem_met.mpr ⟨houter, plan, hplan, hmem⟩)
  induction t with
  | top space name params =>
    obtain ⟨m, hm, htype⟩ := hstands h rfl ht
    exact ⟨m, mem_nodesList.mpr ⟨m, hm, m.self_mem_nodes⟩, htype⟩
  | nested around name params ih =>
    obtain ⟨m, hm, rfl⟩ := ih (DeclName.mem_chain_trans (DeclName.mem_chain_of_outer? rfl) ht)
    obtain ⟨c, hc, htype⟩ := hstands (h.fits_of_mem hm).nested_fit rfl ht
    exact ⟨c, nested_mem_nodesList hc trees hm, htype⟩

/-- **Exactly the types of containing chains are placed.** -/
theorem FitBelow.mem_types (h : FitBelow plans none trees) {t : DeclName} :
    t ∈ (nodesList trees).map type ↔ ∃ plan ∈ plans, t ∈ plan.declaring.chain := by
  rw [List.mem_map]
  constructor
  · rintro ⟨m, hm, rfl⟩
    obtain ⟨n, hn, hm⟩ := mem_nodesList.mp hm
    exact (h.fits n hn).mem_chain (LateBridge.mem_met.mp (h.mem_met hn)).2 hm
  · rintro ⟨plan, hplan, ht⟩
    exact h.exists_node hplan ht

end Nodes

/-- Plans sorted by the types they are declared in are the plans. -/
theorem flatMap_declaredIn_perm {types : List DeclName} (hnodup : types.Nodup)
    {plans : List BridgePlan} (h : ∀ plan ∈ plans, plan.declaring ∈ types) :
    (types.flatMap (declaredIn plans)).Perm plans := by
  induction types generalizing plans with
  | nil =>
    have hnone : plans = [] := List.eq_nil_iff_forall_not_mem.mpr fun plan hplan =>
      List.not_mem_nil (h plan hplan)
    rw [hnone, List.flatMap_nil]
  | cons t ts ih =>
    obtain ⟨hnew, hnodup⟩ := List.nodup_cons.mp hnodup
    let others := plans.filter fun plan => !(plan.declaring == t)
    have hothers : ∀ plan ∈ others, plan.declaring ∈ ts := by
      intro plan hplan
      obtain ⟨hplan, hne⟩ := List.mem_filter.mp hplan
      exact List.mem_of_ne_of_mem (by simpa using hne) (h plan hplan)
    have hsame : ∀ u ∈ ts, declaredIn plans u = declaredIn others u := by
      intro u hu
      rw [declaredIn, declaredIn, List.filter_filter]
      refine List.filter_congr fun plan _ => Bool.eq_iff_iff.mpr ?_
      have hne : u ≠ t := fun heq => hnew (heq ▸ hu)
      rw [Bool.and_eq_true, Bool.not_eq_true', beq_iff_eq, beq_eq_false_iff_ne]
      exact ⟨fun heq => ⟨heq, heq ▸ hne⟩, And.left⟩
    rw [List.flatMap_cons, List.flatMap_congr hsame]
    exact ((ih hnodup hothers).append_left _).trans (List.filter_append_perm _ plans)

/-- **Every bridge in its place.**  Each type of a containing chain, and no other, is declared once;
the types at the top and those inside a type come in the order in which the plans first meet them;
a type has the bridges that are declared in it, in the order of the plans; and there are no bridges
besides. -/
structure Places (plans : List BridgePlan) (forest : List TypeNode) : Prop where
  nodup_types : ((nodesList forest).map type).Nodup
  mem_types : ∀ t, t ∈ (nodesList forest).map type ↔ ∃ plan ∈ plans, t ∈ plan.declaring.chain
  roots_eq : forest.map type = met plans none
  nested_eq : ∀ n ∈ nodesList forest, n.nested.map type = met plans (some n.type)
  plans_eq : ∀ n ∈ nodesList forest, n.plans = declaredIn plans n.type
  perm : ((nodesList forest).flatMap TypeNode.plans).Perm plans

theorem FitBelow.places {plans : List BridgePlan} {trees : List TypeNode}
    (h : FitBelow plans none trees) : Places plans trees := by
  have hnodup := h.nodup_types fun n hn => (h.fits n hn).nodup_types
  refine ⟨hnodup, fun t => h.mem_types, h.types_eq,
    fun n hn => (h.fits_of_mem hn).nested_fit.types_eq, fun n hn => (h.fits_of_mem hn).plans_eq, ?_⟩
  have hown : (nodesList trees).flatMap TypeNode.plans =
      ((nodesList trees).map type).flatMap (declaredIn plans) := by
    rw [List.flatMap_map]
    exact List.flatMap_congr fun n hn => (h.fits_of_mem hn).plans_eq
  rw [hown]
  exact flatMap_declaredIn_perm hnodup fun plan hplan =>
    h.mem_types.mpr ⟨plan, hplan, plan.declaring.self_mem_chain⟩

end TypeNode

/-! ## The text of a file -/

namespace BridgeEmitter

variable (b : BridgeEmitter)

/-- Code in a namespace, if there is one. -/
def inSpace (space : Option String) (body : List Code) : List Code :=
  match space with
  | some space => [.line ("namespace " ++ space), .block body]
  | none => body

theorem typesCode_eq_map (trees : List TypeNode) : b.typesCode trees = trees.map b.typeCode := by
  induction trees with
  | nil => rfl
  | cons n ns ih => rw [typesCode, ih, List.map_cons]

theorem typeCode_eq (n : TypeNode) : b.typeCode n =
    [.line (b.typeHeader n.type),
      .block (Code.spaced (n.plans.map b.bridgeCode ++ n.nested.map b.typeCode))] := by
  obtain ⟨type, plans, nested⟩ := n
  rw [typeCode, typesCode_eq_map]
  rfl

theorem fileCode_eq (space : Option String) (plans : List BridgePlan) : b.fileCode space plans =
    b.preamble ++ inSpace space (Code.spaced ((TypeNode.forest plans).map b.typeCode)) := by
  rw [← typesCode_eq_map]
  rfl

/-- **A file contains each bridge once and in its place.**  Its text is a forest of types written
in order, each type with its bridges in front of the types inside it; and in the forest every bridge
is in its place. -/
theorem emit_places_bridges (space : Option String) (plans : List BridgePlan) :
    ∃ forest : List TypeNode,
      (b.emit space plans).text = SourceLine.written (SourceLine.laidOut
        (Code.unitOf b.options.indent) 0 (Code.linesList
          (b.preamble ++ inSpace space (Code.spaced (forest.map b.typeCode))))) ∧
      (∀ n ∈ TypeNode.nodesList forest, Code.linesList (b.typeCode n) =
        .text (b.typeHeader n.type) :: .opening ::
          Code.linesList (Code.spaced (n.plans.map b.bridgeCode ++ n.nested.map b.typeCode)) ++
          [.closing]) ∧
      TypeNode.Places plans forest := by
  refine ⟨TypeNode.forest plans, ?_, fun n _ => ?_, (TypeNode.fitBelow_forest plans).places⟩
  · rw [emit, Code.render_eq, fileCode_eq]
  · rw [typeCode_eq]
    simp [Code.linesList, Code.lines]

end BridgeEmitter

end LateBridge
