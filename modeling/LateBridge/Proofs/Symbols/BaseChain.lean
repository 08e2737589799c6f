import LateBridge.Proofs.Symbols.Substitution
import LateBridge.Symbols.Hierarchy
import Mathlib.Data.List.Nodup

/-!
# Proofs/Symbols/BaseChain — a chain that ends is the list of all ancestors

A base chain is cut at the first repeat and at a fixed length.  Where going up ends before that
length (`ShortChains`), nothing is ever cut: a repeat would make the way up endless.  The chain is
then the recursion one expects (`baseChain_eq`), and `base_induction` proves what passes from a base
type down to the types derived from it.
-/

namespace LateBridge.Graph

variable {g : Graph}

/-! ## Declarations behind names -/

theorem mem_decls_of_find? {name : String} {d : TypeDecl} (h : g.find? name = some d) :
    d ∈ g.decls := by
  rw [find?_eq] at h
  exact List.mem_of_find?_eq_some h

theorem metadata_of_find? {name : String} {d : TypeDecl} (h : g.find? name = some d) :
    d.name.metadata = name := by
  rw [find?_eq] at h
  simpa [TypeDecl.metadata] using List.find?_some h

/-- A declaration found by its metadata name is the declaration of its own name. -/
theorem decl?_of_find? {name : String} {d : TypeDecl} (h : g.find? name = some d) :
    g.decl? d.name = some d := by
  rw [decl?, metadata_of_find? h, h]

/-- A declaration of names that differ is found by its name. -/
theorem find?_eq_some_iff (hg : (g.decls.map (·.metadata)).Nodup) {name : String} {d : TypeDecl} :
    g.find? name = some d ↔ d ∈ g.decls ∧ d.metadata = name := by
  constructor
  · exact fun h => ⟨mem_decls_of_find? h, metadata_of_find? h⟩
  · rintro ⟨hd, rfl⟩
    obtain ⟨d', hd'⟩ : ∃ d', g.find? d.metadata = some d' := by
      rw [← Option.isSome_iff_exists, find?_eq, List.find?_isSome]
      exact ⟨d, hd, beq_self_eq_true _⟩
    rw [hd', List.inj_on_of_nodup_map hg (mem_decls_of_find? hd') hd (metadata_of_find? hd')]

theorem base?_named {n : DeclName} {args : List Ty} {d : TypeDecl} (h : g.decl? n = some d) :
    g.base? (.named n args) = d.base?.map (·.subst (n.bindArgs args)) := by
  cases hb : d.base? <;> simp [base?, h, hb]

/-- A named type with a base type is declared, and the base type is the declared one with the
arguments put in. -/
theorem base?_named_eq_some {n : DeclName} {args : List Ty} {b : Ty}
    (h : g.base? (.named n args) = some b) :
    ∃ d b', g.decl? n = some d ∧ d.base? = some b' ∧ b = b'.subst (n.bindArgs args) := by
  cases hd : g.decl? n with
  | none => simp [base?, hd] at h
  | some d =>
    rw [base?_named hd, Option.map_eq_some_iff] at h
    obtain ⟨b', hb', rfl⟩ := h
    exact ⟨d, b', rfl, hb', rfl⟩

/-- **What passes from every type to its base type passes to its base chain.** -/
theorem forall_mem_baseChain {P : Ty → Prop} (step : ∀ t b, P t → g.base? t = some b → P b) {t : Ty}
    (ht : P t) : ∀ b ∈ g.baseChain t, P b := by
  have hfrom : ∀ room chain next, (∀ b ∈ chain, P b) → (∀ b ∈ next, P b) →
      ∀ b ∈ g.chainFrom room chain next, P b := by
    intro room
    induction room with
    | zero => exact fun chain next hchain _ => hchain
    | succ room ih =>
      intro chain next hchain hnext
      cases next with
      | none => exact hchain
      | some base =>
        have hbase : P base := hnext base rfl
        rw [chainFrom]
        split
        · exact hchain
        · exact ih _ _ (List.forall_mem_append.mpr ⟨hchain, List.forall_mem_singleton.mpr hbase⟩)
            fun b hb => step base b hbase hb
  exact hfrom _ _ _ (fun _ h => nomatch h) fun b hb => step t b ht hb

/-- Graphs with the same base types have the same base chains. -/
theorem baseChain_congr {g' : Graph} (h : g'.base? = g.base?) : g'.baseChain = g.baseChain := by
  have hfrom : ∀ room chain next, g'.chainFrom room chain next = g.chainFrom room chain next := by
    intro room
    induction room with
    | zero => exact fun _ _ => rfl
    | succ room ih =>
      rintro chain (_ | base)
      · rfl
      · simp only [chainFrom, h, ih]
  funext t
  rw [baseChain, baseChain, h, hfrom]

/-! ## Ancestors -/

/-- The type so many steps up. -/
def ancestor? (g : Graph) : Nat → Ty → Option Ty
  | 0, t => some t
  | k + 1, t => (g.base? t).bind (ancestor? g k)

/-- Graphs with the same base types have the same ancestors. -/
theorem ancestor?_congr {g' : Graph} (h : g'.base? = g.base?) : g'.ancestor? = g.ancestor? := by
  funext k
  induction k with
  | zero => rfl
  | succ k ih =>
    funext t
    rw [ancestor?, ancestor?, h, ih]

/-- **Going up ends before the greatest length of a base chain.** -/
def ShortChains (g : Graph) : Prop := ∀ t, g.ancestor? maxBaseChain t = none

theorem ancestor?_add (j k : Nat) (t : Ty) :
    g.ancestor? (j + k) t = (g.ancestor? j t).bind (g.ancestor? k) := by
  induction j generalizing t with
  | zero => rw [Nat.zero_add, ancestor?, Option.bind_some]
  | succ j ih =>
    rw [Nat.succ_add, ancestor?, ancestor?, Option.bind_assoc]
    exact congrArg _ (funext ih)

theorem ancestor?_eq_none_of_le {j k : Nat} {t : Ty} (h : g.ancestor? j t = none) (hjk : j ≤ k) :
    g.ancestor? k t = none := by
  obtain ⟨i, rfl⟩ := Nat.exists_eq_add_of_le hjk
  rw [ancestor?_add, h, Option.bind_none]

/-- A type above itself is above itself any number of times. -/
theorem ancestor?_mul {k : Nat} {t : Ty} (h : g.ancestor? k t = some t) (m : Nat) :
    g.ancestor? (m * k) t = some t := by
  induction m with
  | zero => rw [Nat.zero_mul, ancestor?]
  | succ m ih => rw [Nat.succ_mul, ancestor?_add, ih, Option.bind_some, h]

/-- From a type above itself there is no end of going up. -/
theorem ancestor?_ne_none {k : Nat} {t : Ty} (h : g.ancestor? (k + 1) t = some t) (n : Nat) :
    g.ancestor? n t ≠ none := by
  intro hnone
  have hend : g.ancestor? (n * (k + 1)) t = none :=
    ancestor?_eq_none_of_le hnone (Nat.le_mul_of_pos_right _ (Nat.succ_pos k))
  rw [ancestor?_mul h] at hend
  exact absurd hend (Option.some_ne_none t)

/-- **No type is its own ancestor** — or there would be no end. -/
theorem ShortChains.ancestor?_ne_self (hg : g.ShortChains) (k : Nat) (t : Ty) :
    g.ancestor? (k + 1) t ≠ some t := fun h => ancestor?_ne_none h maxBaseChain (hg t)

/-- **Induction up the base types.** -/
theorem ShortChains.base_induction (hg : g.ShortChains) {P : Ty → Prop}
    (step : ∀ t, (∀ b, g.base? t = some b → P b) → P t) (t : Ty) : P t := by
  have hend : ∀ k t, g.ancestor? k t = none → P t := by
    intro k
    induction k with
    | zero => exact fun t h => absurd h (Option.some_ne_none t)
    | succ k ih =>
      refine fun t h => step t fun b hb => ih b ?_
      rwa [ancestor?, hb, Option.bind_some] at h
  exact hend _ t (hg t)

/-! ## The chain as a list of ancestors -/

/-- The first ancestors of a type, nearest first. -/
def ups (g : Graph) : Nat → Ty → List Ty
  | 0, _ => []
  | k + 1, t => match g.base? t with
    | none => []
    | some b => b :: ups g k b

/-- The first ancestors are those so many steps up. -/
theorem mem_ups {u t : Ty} {k : Nat} :
    u ∈ g.ups k t ↔ ∃ j < k, g.ancestor? (j + 1) t = some u := by
  induction k generalizing t with
  | zero => simp [ups]
  | succ k ih =>
    rw [ups]
    cases hb : g.base? t with
    | none => simp [ancestor?, hb]
    | some b =>
      simp only [List.mem_cons, ih, ancestor?, hb, Option.bind_some, Nat.exists_lt_succ_left,
        Option.some.injEq, eq_comm (a := u)]

theorem ShortChains.nodup_ups (hg : g.ShortChains) (k : Nat) (t : Ty) : (g.ups k t).Nodup := by
  induction k generalizing t with
  | zero => exact List.nodup_nil
  | succ k ih =>
    rw [ups]
    cases g.base? t with
    | none => exact List.nodup_nil
    | some b =>
      refine List.nodup_cons.mpr ⟨fun hmem => ?_, ih b⟩
      obtain ⟨j, -, hj⟩ := mem_ups.mp hmem
      exact hg.ancestor?_ne_self j b hj

/-- Where nothing repeats, a chain goes on with all ancestors there is room for. -/
theorem chainFrom_eq {k : Nat} {chain : List Ty} {t : Ty} (hnew : ∀ u ∈ g.ups k t, u ∉ chain)
    (hnodup : (g.ups k t).Nodup) : g.chainFrom k chain (g.base? t) = chain ++ g.ups k t := by
  induction k generalizing chain t with
  | zero => cases g.base? t <;> simp [chainFrom, ups]
  | succ k ih =>
    rw [ups] at hnew hnodup ⊢
    cases hb : g.base? t with
    | none => simp [chainFrom]
    | some b =>
      simp only [hb] at hnew hnodup
      obtain ⟨hbk, hk⟩ := List.nodup_cons.mp hnodup
      have hnext : ∀ u ∈ g.ups k b, u ∉ chain ++ [b] := by
        intro u hu hmem
        rcases List.mem_append.mp hmem with hc | hub
        · exact hnew u (List.mem_cons_of_mem _ hu) hc
        · exact hbk (List.mem_singleton.mp hub ▸ hu)
      rw [chainFrom, if_neg (hnew b List.mem_cons_self), ih hnext hk]
      simp

theorem ups_eq_ups_succ {k : Nat} {t : Ty} (h : g.ancestor? (k + 1) t = none) :
    g.ups k t = g.ups (k + 1) t := by
  induction k generalizing t with
  | zero =>
    cases hb : g.base? t with
    | none => simp [ups, hb]
    | some b => simp [ancestor?, hb] at h
  | succ k ih =>
    rw [ups, ups]
    cases hb : g.base? t with
    | none => rfl
    | some b =>
      rw [ancestor?, hb, Option.bind_some] at h
      simp only [ih h]

/-- **The base chain is the base type and then its chain.** -/
theorem ShortChains.baseChain_eq (hg : g.ShortChains) (t : Ty) :
    g.baseChain t = match g.base? t with
      | none => []
      | some b => b :: g.baseChain b := by
  have hups : ∀ t, g.baseChain t = g.ups maxBaseChain t := fun t =>
    (chainFrom_eq (by simp) (hg.nodup_ups _ t)).trans (List.nil_append _)
  rw [hups, maxBaseChain, ups]
  cases g.base? t with
  | none => rfl
  | some b =>
    have hend : g.ancestor? (255 + 1) b = none := hg b
    simp only [hups, maxBaseChain, ups_eq_ups_succ hend]

theorem ShortChains.mem_baseChain (hg : g.ShortChains) {t u : Ty} :
    u ∈ g.baseChain t ↔ ∃ b, g.base? t = some b ∧ (u = b ∨ u ∈ g.baseChain b) := by
  rw [hg.baseChain_eq t]
  cases g.base? t <;> simp

/-- What is above a base type is above the type. -/
theorem ShortChains.mem_baseChain_trans (hg : g.ShortChains) {s t u : Ty}
    (htu : u ∈ g.baseChain t) (hst : t ∈ g.baseChain s) : u ∈ g.baseChain s := by
  induction s using hg.base_induction with
  | step s ih =>
    obtain ⟨b, hb, rfl | hmem⟩ := hg.mem_baseChain.mp hst
    · exact hg.mem_baseChain.mpr ⟨t, hb, .inr htu⟩
    · exact hg.mem_baseChain.mpr ⟨b, hb, .inr (ih b hb hmem)⟩

/-! ## Substitution -/

/-- **A substitution spares a type** if it knows no variable of the declared base type and interfaces
that the arguments of the type leave open. -/
def Spares (g : Graph) (r : Ty.Subst) (t : Ty) : Prop :=
  ∀ n args d, t = .named n args → g.decl? n = some d → ∀ h ∈ d.base?.toList ++ d.interfaces,
    ∀ v ∈ h.vars, (n.bindArgs args).lookup v = none → r.lookup v = none

/-- **A substitution that knows no variable of a declared base type or interface.**  The
substitutions for the type parameters of methods are of this kind. -/
def Untouched (g : Graph) (r : Ty.Subst) : Prop :=
  ∀ d ∈ g.decls, ∀ h ∈ d.base?.toList ++ d.interfaces, ∀ v ∈ h.vars, r.lookup v = none

theorem Untouched.spares {r : Ty.Subst} (hr : g.Untouched r) (t : Ty) : g.Spares r t :=
  fun _ _ d _ hd h hh v hv _ => hr d (mem_decls_of_find? hd) h hh v hv

/-- **The base type of a substituted type is the substituted base type**, unless the type is a
variable. -/
theorem Spares.base?_subst {r : Ty.Subst} {t : Ty} (hr : g.Spares r t) (ht : ∀ v, t ≠ .var v) :
    g.base? (t.subst r) = (g.base? t).map (·.subst r) := by
  cases t with
  | named n args =>
    rw [Ty.subst_named]
    cases hd : g.decl? n with
    | none => simp [base?, hd]
    | some d =>
      rw [base?_named hd, base?_named hd, Option.map_map]
      refine Option.map_congr fun b hb => (Ty.subst_bindArgs fun v hv hopen => ?_).symm
      exact hr n args d rfl hd b (List.mem_append_left _ (Option.mem_toList.mpr hb)) v hv hopen
  | array element rank =>
    have hbase : g.base? (.array element rank) = g.special? .array := rfl
    have hbase' : g.base? (.array (element.subst r) rank) = g.special? .array := rfl
    rw [Ty.subst_array, hbase, hbase', special?, Option.map_map]
    exact Option.map_congr fun d _ => (Ty.subst_plain r d.name).symm
  | var v => exact absurd rfl (ht v)
  | _ => rfl

/-- The base type of a substituted type is the substituted base type. -/
theorem Untouched.base?_subst {r : Ty.Subst} (hr : g.Untouched r) {t b : Ty}
    (h : g.base? t = some b) : g.base? (t.subst r) = some (b.subst r) := by
  have ht : ∀ v, t ≠ .var v := by
    rintro v rfl
    cases h
  rw [(hr.spares t).base?_subst ht, h, Option.map_some]

/-- **Base chains go along with substitution.** -/
theorem Untouched.mem_baseChain_subst {r : Ty.Subst} (hr : g.Untouched r) (hg : g.ShortChains)
    {t u : Ty} (h : u ∈ g.baseChain t) : u.subst r ∈ g.baseChain (t.subst r) := by
  induction t using hg.base_induction with
  | step t ih =>
    obtain ⟨b, hb, rfl | hmem⟩ := hg.mem_baseChain.mp h
    · exact hg.mem_baseChain.mpr ⟨_, hr.base?_subst hb, .inl rfl⟩
    · exact hg.mem_baseChain.mpr ⟨_, hr.base?_subst hb, .inr (ih b hb hmem)⟩

end LateBridge.Graph
