import LateBridge.Proofs.Bridge.ErasureInheritance
import LateBridge.Proofs.Document.Order
import LateBridge.Proofs.Numbering.Programs

/-!
# Proofs/Numbering/Hierarchy — base types and interfaces of a number

    number ──look up──▸ declaration and arguments
                        its head ──put the arguments in──▸ numbers of base type and interfaces

A declaration stores its head as numbers that loading gave; the head of a constructed type has to be
numbered first.  Chains and closures compare numbers where the functions on types compare types.
Numbers are equal exactly if the types are (`mem_iff`), so each program gives the number of what the
function gives (`gives_base?`, `gives_baseChain`, `gives_allInterfaces`).
-/

namespace LateBridge

/-- **Loading has numbered** what a graph stores, and the well-known types. -/
structure Labels (g : Graph) (known : WellKnown) (label : Ty → Nat) (i : Numbers) : Prop where
  grounded : i.Grounded
  stored : ∀ t ∈ g.storedTypes, i.Denotes t (label t)
  standIns : ∀ t ∈ known.standIns, i.Denotes t (label t)

theorem Labels.mono {g : Graph} {known : WellKnown} {label : Ty → Nat} {i j : Numbers}
    (h : Labels g known label i) (hij : i.Extends j) : Labels g known label j :=
  ⟨hij.grounded, fun t ht => (h.stored t ht).mono hij, fun t ht => (h.standIns t ht).mono hij⟩

/-- What a declaration stores, its methods apart. -/
theorem Labels.denotes_head {g : Graph} {known : WellKnown} {label : Ty → Nat} {i : Numbers}
    (hl : Labels g known label i) {n : DeclName} {d : TypeDecl} (hd : g.decl? n = some d) {t : Ty}
    (ht : t ∈ d.base?.toList ++ d.interfaces) : i.Denotes t (label t) := by
  refine hl.stored t (List.mem_flatMap.mpr ⟨d, Graph.mem_decls_of_find? hd, ?_⟩)
  exact List.mem_append_left _ (List.mem_append_left _ ht)

namespace Numbered

open Interning

/-! ## Looking at types -/

/-- The type behind a number, if the fuel is enough for its depth. -/
def readWithin : Nat → Nat → Interning Ty
  | 0, _ => return .error
  | fuel + 1, id => do
    match ← shapeOf id with
    | .named n ids =>
      let args ← each (readWithin fuel) ids
      return .named n args
    | .array part rank =>
      let element ← readWithin fuel part
      return .array element rank
    | .param v => return .var v
    | .pointer part =>
      let target ← readWithin fuel part
      return .pointer target
    | .fnptr ids part =>
      let params ← each (readWithin fuel) ids
      let ret ← readWithin fuel part
      return .fnptr params ret
    | .void => return .void
    | .dynamic => return .dynamic
    | .error => return .error

/-- **The type behind a number**: its parts have smaller ones. -/
def read (id : Nat) : Interning Ty := readWithin (id + 1) id

/-- A question about the type behind a number. -/
def ask {α : Type} (f : Ty → α) (id : Nat) : Interning α := do
  let t ← read id
  return f t

/-- The numbers whose types pass a test. -/
def keep (f : Ty → Bool) : List Nat → Interning (List Nat)
  | [] => return []
  | id :: ids => do
    let passes ← ask f id
    let rest ← keep f ids
    return if passes then id :: rest else rest

/-! ## Substitution -/

/-- The number of a type with numbers put in for its variables. -/
def substituteWithin (s : List (TypeVar × Nat)) : Nat → Nat → Interning Nat
  | 0, id => return id
  | fuel + 1, id => do
    match ← shapeOf id with
    | .param v => return (s.lookup v).getD id
    | .named n ids =>
      let ids ← each (substituteWithin s fuel) ids
      numberOf (.named n ids)
    | .array part rank =>
      let part ← substituteWithin s fuel part
      numberOf (.array part rank)
    | .pointer part =>
      let part ← substituteWithin s fuel part
      numberOf (.pointer part)
    | .fnptr ids part =>
      let ids ← each (substituteWithin s fuel) ids
      let part ← substituteWithin s fuel part
      numberOf (.fnptr ids part)
    | .void | .dynamic | .error => return id

/-- **Substitution on numbers.** -/
def substitute (s : List (TypeVar × Nat)) (id : Nat) : Interning Nat :=
  if s.isEmpty then return id else substituteWithin s (id + 1) id

section Graph

variable (g : Graph) (label : Ty → Nat)

/-- A stored type of a declaration with the arguments put in. -/
def instantiate (n : DeclName) (ids : List Nat) (t : Ty) : Interning Nat :=
  substitute (n.vars.zip ids) (label t)

/-! ## Base types -/

/-- The number of a special type. -/
def special? (s : Special) : Interning (Option Nat) :=
  match g.find? s.metadata with
  | some d => do
    let id ← numberOf (.named d.name [])
    return some id
  | none => return none

/-- **The base type of a number.** -/
def base? (id : Nat) : Interning (Option Nat) := do
  match ← shapeOf id with
  | .named n ids =>
    match (g.decl? n).bind (·.base?) with
    | some b => do
      let base ← instantiate label n ids b
      return some base
    | none => return none
  | .array _ _ => special? g .array
  | _ => return none

/-- The base chain that continues `chain` with `next`. -/
def chainFrom : Nat → List Nat → Option Nat → Interning (List Nat)
  | 0, chain, _ | _, chain, none => return chain
  | room + 1, chain, some base =>
    if base ∈ chain then return chain
    else do
      let next ← base? g label base
      chainFrom room (chain ++ [base]) next

/-- **The base chain of a number.** -/
def baseChain (id : Nat) : Interning (List Nat) := do
  let base ← base? g label id
  chainFrom g label Graph.maxBaseChain [] base

/-! ## Interfaces -/

/-- **The direct interfaces of a number.** -/
def interfaces (id : Nat) : Interning (List Nat) := do
  match ← shapeOf id with
  | .named n ids =>
    match g.decl? n with
    | some d => each (instantiate label n ids) d.interfaces
    | none => return []
  | _ => return []

/-- The depth-first walk. -/
def visit : Nat → List Nat → List Nat → Interning (Option (List Nat))
  | _, [], seen => return some seen
  | 0, _ :: _, _ => return none
  | budget + 1, next :: pending, seen =>
    if next ∈ seen then visit budget pending seen
    else do
      let more ← interfaces g label next
      visit budget (more ++ pending) (seen ++ [next])

/-- The closure of several owners, one after the other. -/
def visitOwners (budget : Nat) : List Nat → List Nat → Interning (Option (List Nat))
  | [], seen => return some seen
  | owner :: owners, seen => do
    let direct ← interfaces g label owner
    match ← visit g label budget direct seen with
    | some seen => visitOwners budget owners seen
    | none => return none

/-- **Every interface of a number.** -/
def allInterfaces (id : Nat) : Interning (List Nat) := do
  let chain ← baseChain g label id
  let found ← visitOwners g label g.visitLimit (id :: chain) []
  return found.getD []

end Graph

/-! ## Numbers instead of types -/

variable {i : Numbers} {t : Ty} {id : Nat}

/-- **Numbers are equal exactly if their types are.** -/
theorem eq_iff {u : Ty} {id' : Nat} (h : i.Denotes t id) (h' : i.Denotes u id') :
    id = id' ↔ t = u :=
  ⟨fun e => (e ▸ h).injective h', fun e => (e ▸ h).unique h'⟩

theorem mem_iff {ts : List Ty} {ids : List Nat} (hids : Meaning.type.list.Holds i ts ids)
    (h : i.Denotes t id) : id ∈ ids ↔ t ∈ ts := by
  induction hids with
  | nil => simp
  | cons hid _ ih => rw [List.mem_cons, List.mem_cons, eq_iff h hid, ih]

/-- Under a key stands what means the same. -/
theorem rel_lookup {κ α β : Type} [BEq κ] {m : Meaning α β} {as : List (κ × α)}
    {bs : List (κ × β)} (h : (Meaning.same.pair m).list.Holds i as bs) (k : κ) :
    m.option.Holds i (as.lookup k) (bs.lookup k) := by
  induction h with
  | nil => exact .none
  | @cons a b _ _ hab _ ih =>
    obtain ⟨k', a⟩ := a
    obtain ⟨k'', b⟩ := b
    obtain ⟨rfl, hab⟩ := hab
    rw [List.lookup_cons, List.lookup_cons]
    cases k == k'' with
    | true => exact .some hab
    | false => exact ih

theorem list_zip {α β γ δ : Type} {m : Meaning α β} {n : Meaning γ δ} {as : List α} {bs : List β}
    {cs : List γ} {ds : List δ} (h : m.list.Holds i as bs) (h' : n.list.Holds i cs ds) :
    (m.pair n).list.Holds i (as.zip cs) (bs.zip ds) := by
  induction h generalizing cs ds with
  | nil => exact .nil
  | cons hab _ ih =>
    cases h' with
    | nil => exact .nil
    | cons hcd hrest => exact .cons ⟨hab, hcd⟩ (ih hrest)

/-! ## Reading gives the type -/

/-- The parts of a number are smaller, so fuel above the number is enough. -/
theorem gives_readWithin {fuel : Nat} (hi : i.Grounded) (h : i.Denotes t id) (hfuel : id < fuel) :
    (readWithin fuel id).Gives .same t i := by
  induction fuel generalizing i t id with
  | zero => exact absurd hfuel (Nat.not_lt_zero id)
  | succ fuel ih =>
    rw [readWithin]
    refine Gives.shapeOf_bind hi h fun j shape hij hspells hparts => ?_
    have hfuel : ∀ part ∈ shape.parts, part < fuel := fun part hpart =>
      Nat.lt_of_lt_of_le (hparts part hpart) (Nat.le_of_lt_succ hfuel)
    cases hspells with
    | named hargs =>
      refine Gives.bind hij.grounded (gives_eachSelf (m := .type) hij.grounded hargs
        fun k hjk a _ part hpart ha => ih hjk.grounded ha (hfuel part hpart))
        fun k args _ hargs => gives_pure ?_
      exact congrArg (Ty.named _) hargs
    | array helement =>
      refine Gives.bind hij.grounded (ih hij.grounded helement (hfuel _ List.mem_cons_self))
        fun k element _ helement => gives_pure ?_
      exact congrArg (Ty.array · _) helement
    | pointer htarget =>
      refine Gives.bind hij.grounded (ih hij.grounded htarget (hfuel _ List.mem_cons_self))
        fun k target _ htarget => gives_pure ?_
      exact congrArg Ty.pointer htarget
    | fnptr hparams hret =>
      have hfuel := List.forall_mem_append.mp hfuel
      refine Gives.bind hij.grounded (gives_eachSelf (m := .type) hij.grounded hparams
        fun k hjk a _ part hpart ha => ih hjk.grounded ha (hfuel.1 part hpart))
        fun k params hjk hparams => ?_
      refine Gives.bind hjk.grounded
        (ih hjk.grounded (hret.mono hjk) (hfuel.2 _ List.mem_cons_self))
        fun l ret _ hret => gives_pure ?_
      exact congrArg₂ Ty.fnptr hparams hret
    | var | void | dynamic | error => exact gives_pure rfl

/-- **Reading a number gives its type.** -/
theorem gives_read (hi : i.Grounded) (h : i.Denotes t id) : (read id).Gives .same t i :=
  gives_readWithin hi h (Nat.lt_succ_self id)

/-- A question about a number is answered for its type. -/
theorem gives_ask {α : Type} (f : Ty → α) (hi : i.Grounded) (h : i.Denotes t id) :
    (ask f id).Gives .same (f t) i :=
  Gives.bind hi (gives_read hi h) fun _ _ _ ht => gives_pure (congrArg f ht)

/-- The same question about several numbers. -/
theorem gives_askEach {α : Type} (f : Ty → α) {ts : List Ty} {ids : List Nat} (hi : i.Grounded)
    (h : Meaning.type.list.Holds i ts ids) : (each (ask f) ids).Gives .same (ts.map f) i :=
  gives_eachSame hi h fun _ hij _ _ _ _ hid => gives_ask f hij.grounded hid

theorem gives_keep (f : Ty → Bool) {ts : List Ty} {ids : List Nat} (hi : i.Grounded)
    (h : Meaning.type.list.Holds i ts ids) :
    (keep f ids).Gives Meaning.type.list (ts.filter f) i := by
  induction ts generalizing i ids with
  | nil =>
    cases h
    exact gives_pure .nil
  | cons t ts ih =>
    obtain ⟨id, ids, hid, hids, rfl⟩ := List.forall₂_cons_left_iff.mp h
    refine Gives.bind hi (gives_ask f hi hid) fun j passes hij hpasses => ?_
    obtain rfl : passes = f t := hpasses
    refine Gives.bind hij.grounded (ih hij.grounded (Meaning.type.list.mono hids hij))
      fun k rest hjk hrest => gives_pure ?_
    rw [List.filter_cons]
    split
    · exact .cons (hid.mono (hij.trans hjk)) hrest
    · exact hrest

/-! ## Substitution gives the substituted type -/

theorem gives_substituteWithin {r : Ty.Subst} {s : List (TypeVar × Nat)} {fuel : Nat}
    (hi : i.Grounded) (hs : (Meaning.same.pair .type).list.Holds i r s) (h : i.Denotes t id)
    (hfuel : id < fuel) : (substituteWithin s fuel id).Gives .type (t.subst r) i := by
  induction fuel generalizing i t id with
  | zero => exact absurd hfuel (Nat.not_lt_zero id)
  | succ fuel ih =>
    rw [substituteWithin]
    refine Gives.shapeOf_bind hi h fun j shape hij hspells hparts => ?_
    have hfuel : ∀ part ∈ shape.parts, part < fuel := fun part hpart =>
      Nat.lt_of_lt_of_le (hparts part hpart) (Nat.le_of_lt_succ hfuel)
    have h := h.mono hij
    have hs := Meaning.mono _ hs hij
    cases hspells with
    | named hargs =>
      rw [Ty.subst_named]
      exact Gives.bind hij.grounded (gives_each (m := .type) (n := .type) hij.grounded hargs
        fun k hjk a _ part hpart ha =>
          ih hjk.grounded (Meaning.mono _ hs hjk) ha (hfuel part hpart))
        fun k ids _ hids => gives_numberOf (.named hids)
    | array helement =>
      rw [Ty.subst_array]
      exact Gives.bind hij.grounded (ih hij.grounded hs helement (hfuel _ List.mem_cons_self))
        fun k part _ hpart => gives_numberOf (.array hpart)
    | pointer htarget =>
      rw [Ty.subst_pointer]
      exact Gives.bind hij.grounded (ih hij.grounded hs htarget (hfuel _ List.mem_cons_self))
        fun k part _ hpart => gives_numberOf (.pointer hpart)
    | fnptr hparams hret =>
      rw [Ty.subst_fnptr]
      have hfuel := List.forall_mem_append.mp hfuel
      refine Gives.bind hij.grounded (gives_each (m := .type) (n := .type) hij.grounded hparams
        fun k hjk a _ part hpart ha =>
          ih hjk.grounded (Meaning.mono _ hs hjk) ha (hfuel.1 part hpart))
        fun k ids hjk hids => ?_
      exact Gives.bind hjk.grounded (ih hjk.grounded (Meaning.mono _ hs hjk) (hret.mono hjk)
        (hfuel.2 _ List.mem_cons_self)) fun l part hkl hpart =>
          gives_numberOf (.fnptr (Meaning.type.list.mono hids hkl) hpart)
    | @var v =>
      rw [Ty.subst_var]
      refine gives_pure ?_
      have hfound := rel_lookup hs v
      generalize r.lookup v = found, s.lookup v = found' at hfound
      cases hfound with
      | some hfound => exact hfound
      | none => exact h
    | void | dynamic | error => exact gives_pure h

/-- **Substitution on numbers gives the number of the substituted type.** -/
theorem gives_substitute {r : Ty.Subst} {s : List (TypeVar × Nat)} (hi : i.Grounded)
    (hs : (Meaning.same.pair .type).list.Holds i r s) (h : i.Denotes t id) :
    (substitute s id).Gives .type (t.subst r) i := by
  rw [substitute]
  split
  · rename_i hempty
    obtain rfl := List.isEmpty_iff.mp hempty
    cases hs
    rw [Ty.subst_nil]
    exact gives_pure h
  · exact gives_substituteWithin hi hs h (Nat.lt_succ_self id)

/-! ## Base types -/

section Graph

variable {g : Graph} {known : WellKnown} {label : Ty → Nat}

theorem gives_instantiate {n : DeclName} {args : List Ty} {ids : List Nat} (hi : i.Grounded)
    (hargs : Meaning.type.list.Holds i args ids) (ht : i.Denotes t (label t)) :
    (instantiate label n ids t).Gives .type (t.subst (n.bindArgs args)) i :=
  gives_substitute hi (list_zip (Meaning.list_same_self n.vars) hargs) ht

/-- **The base type of a number is the number of the base type.** -/
theorem gives_base? (hl : Labels g known label i) (h : i.Denotes t id) :
    (base? g label id).Gives Meaning.type.option (g.base? t) i := by
  rw [base?]
  refine Gives.shapeOf_bind hl.grounded h fun j shape hij hspells _ => ?_
  cases hspells with
  | @named n ids args hargs =>
    dsimp only
    cases hd : g.decl? n with
    | none =>
      rw [Graph.base?, hd]
      exact gives_pure .none
    | some d =>
      rw [Graph.base?_named hd]
      simp only [Option.bind_some]
      cases hb : d.base? with
      | none => exact gives_pure .none
      | some b =>
        have hstored := (hl.mono hij).denotes_head hd (t := b) (by simp [hb])
        exact Gives.bind hij.grounded (gives_instantiate hij.grounded hargs hstored)
          fun k base _ hbase => gives_pure (.some hbase)
  | array =>
    dsimp only
    rw [special?, Graph.base?, Graph.special?]
    cases g.find? Special.array.metadata with
    | none => exact gives_pure .none
    | some d =>
      exact Gives.bind hij.grounded (gives_numberOf (.named .nil)) fun k base _ hbase =>
        gives_pure (.some hbase)
  | var | pointer | fnptr | void | dynamic | error => exact gives_pure .none

theorem gives_chainFrom (hl : Labels g known label i) {room : Nat} {ts : List Ty} {chain : List Nat}
    {next : Option Ty} {next' : Option Nat} (hchain : Meaning.type.list.Holds i ts chain)
    (hnext : Meaning.type.option.Holds i next next') :
    (chainFrom g label room chain next').Gives Meaning.type.list (g.chainFrom room ts next) i := by
  induction room generalizing i ts chain next next' with
  | zero => exact gives_pure hchain
  | succ room ih =>
    cases hnext with
    | none => exact gives_pure hchain
    | some hbase =>
      rw [chainFrom, Graph.chainFrom]
      simp only [mem_iff hchain hbase]
      split
      · exact gives_pure hchain
      · refine Gives.bind hl.grounded (gives_base? hl hbase) fun j next' hij hnext => ?_
        refine ih (hl.mono hij) ?_ hnext
        exact List.rel_append (Meaning.type.list.mono hchain hij) (.cons (hbase.mono hij) .nil)

/-- **The base chain of a number** is made of the numbers of the base chain. -/
theorem gives_baseChain (hl : Labels g known label i) (h : i.Denotes t id) :
    (baseChain g label id).Gives Meaning.type.list (g.baseChain t) i :=
  Gives.bind hl.grounded (gives_base? hl h) fun _ _ hij hbase =>
    gives_chainFrom (hl.mono hij) .nil hbase

/-! ## Interfaces -/

theorem gives_interfaces (hl : Labels g known label i) (h : i.Denotes t id) :
    (interfaces g label id).Gives Meaning.type.list (g.interfaces t) i := by
  rw [interfaces]
  refine Gives.shapeOf_bind hl.grounded h fun j shape hij hspells _ => ?_
  cases hspells with
  | @named n ids args hargs =>
    dsimp only
    rw [Graph.interfaces]
    cases hd : g.decl? n with
    | none => exact gives_pure .nil
    | some d =>
      refine gives_eachOf hij.grounded d.interfaces fun k hjk t ht => ?_
      exact gives_instantiate hjk.grounded (Meaning.type.list.mono hargs hjk)
        ((hl.mono (hij.trans hjk)).denotes_head hd (List.mem_append_right _ ht))
  | array | var | pointer | fnptr | void | dynamic | error => exact gives_pure .nil

theorem gives_visit (hl : Labels g known label i) {budget : Nat} {pending seen : List Ty}
    {pending' seen' : List Nat} (hpending : Meaning.type.list.Holds i pending pending')
    (hseen : Meaning.type.list.Holds i seen seen') :
    (visit g label budget pending' seen').Gives Meaning.type.list.option
      (g.visit budget pending seen) i := by
  induction budget generalizing i pending pending' seen seen' with
  | zero =>
    cases hpending with
    | nil => exact gives_pure (.some hseen)
    | cons => exact gives_pure .none
  | succ budget ih =>
    induction hpending generalizing seen seen' with
    | nil => exact gives_pure (.some hseen)
    | cons hnext hpending _ =>
      rw [visit, Graph.visit]
      simp only [mem_iff hseen hnext]
      split
      · exact ih hl hpending hseen
      · refine Gives.bind hl.grounded (gives_interfaces hl hnext) fun j more hij hmore => ?_
        have hpending := Meaning.type.list.mono hpending hij
        have hseen := Meaning.type.list.mono hseen hij
        exact ih (hl.mono hij) (List.rel_append hmore hpending)
          (List.rel_append hseen (.cons (hnext.mono hij) .nil))

theorem gives_visitOwners (hl : Labels g known label i) {budget : Nat} {owners seen : List Ty}
    {owners' seen' : List Nat} (hall : Meaning.type.list.Holds i owners owners')
    (hseen : Meaning.type.list.Holds i seen seen') :
    (visitOwners g label budget owners' seen').Gives Meaning.type.list.option
      (g.visitOwners budget owners seen) i := by
  induction owners generalizing i owners' seen seen' with
  | nil =>
    cases hall
    exact gives_pure (.some hseen)
  | cons owner owners ih =>
    obtain ⟨owner', owners', howner, howners, rfl⟩ := List.forall₂_cons_left_iff.mp hall
    rw [visitOwners, Graph.visitOwners]
    refine Gives.bind hl.grounded (gives_interfaces hl howner) fun j direct hij hdirect => ?_
    refine Gives.bind hij.grounded
      (gives_visit (hl.mono hij) hdirect (Meaning.type.list.mono hseen hij))
      fun k found hjk hfound => ?_
    have hik := hij.trans hjk
    generalize g.visit budget (g.interfaces owner) seen = found' at hfound
    cases hfound with
    | none => exact gives_pure .none
    | some hfound => exact ih (hl.mono hik) (Meaning.type.list.mono howners hik) hfound

/-- **The interfaces of a number are the numbers of the interfaces.** -/
theorem gives_allInterfaces (hl : Labels g known label i) (h : i.Denotes t id) :
    (allInterfaces g label id).Gives Meaning.type.list (g.allInterfaces t) i := by
  refine Gives.bind hl.grounded (gives_baseChain hl h) fun j chain hij hchain => ?_
  refine Gives.bind hij.grounded
    (gives_visitOwners (hl.mono hij) (.cons (h.mono hij) hchain) .nil) fun k found _ hfound => ?_
  rw [Graph.allInterfaces, Graph.closure?]
  generalize g.visitOwners g.visitLimit (t :: g.baseChain t) [] = found' at hfound
  cases hfound with
  | none => exact gives_pure .nil
  | some hfound => exact gives_pure hfound

end Graph

end Numbered

end LateBridge
