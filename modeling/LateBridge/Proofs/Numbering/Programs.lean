import LateBridge.Bridge.Planning
import LateBridge.Proofs.Numbering.Tables
import LateBridge.Proofs.Results
import Mathlib.Logic.Relation

/-!
# Proofs/Numbering/Programs — work over a table that everybody extends

    program ──looks a number up──▸ program ──numbers a structure──▸ program ──▸ … ──▸ result
                    ▲ before every step others may number further types ▲

A program sees the table only through single look-ups and single new numbers.  What its result means
(`Meaning`) stays when the table grows; so a program that gives a meaning (`Interning.Gives`) gives it
whatever others do in between, and such programs compose (`Gives.bind`).  In a pool of programs over
one table each gives what it gives alone, in every schedule (`Pool.Reaches.sound`), and one program
after the other is a schedule (`Pool.reaches_runEach`).

The number a step gives is the place in the table (`Interner.place`).  That a number has 32 bits is
left out, so what is said here is about tables with a number for every place.
-/

namespace LateBridge

/-! ## Programs -/

/-- **A program over a shared table**: each step looks a number up or numbers a structure. -/
inductive Interning (α : Type) where
  | done (a : α)
  | lookup (id : Nat) (next : TypeShape DeclName TypeVar → Interning α)
  | intern (shape : TypeShape DeclName TypeVar) (next : Nat → Interning α)

namespace Interning

variable {α β σ : Type}

/-- One program after another. -/
def bind : Interning α → (α → Interning β) → Interning β
  | done a, f => f a
  | lookup id next, f => lookup id fun shape => (next shape).bind f
  | intern shape next, f => intern shape fun id => (next id).bind f

instance : Monad Interning where
  pure := done
  bind := bind

/-- The structure behind a number. -/
def shapeOf (id : Nat) : Interning (TypeShape DeclName TypeVar) := lookup id done

/-- The number of a structure. -/
def numberOf (shape : TypeShape DeclName TypeVar) : Interning Nat := intern shape done

/-- A program for each element of a list. -/
def each (f : α → Interning β) : List α → Interning (List β)
  | [] => return []
  | a :: as => do
    let b ← f a
    let bs ← each f as
    return b :: bs

/-- A program with state for each element of a list. -/
def eachWith (f : σ → α → Interning (β × σ)) (s : σ) : List α → Interning (List β × σ)
  | [] => return ([], s)
  | a :: as => do
    let (b, s) ← f s a
    let (bs, s) ← eachWith f s as
    return (b :: bs, s)

/-- The next step of a program, and the table after it. -/
def step (i : Numbers) : Interning α → Option (Interning α × Numbers)
  | done _ => none
  | lookup id next => some (next (i.lookup id), i)
  | intern shape next => some (next (i.place shape).1, (i.place shape).2)

/-- **A program that is left alone**: its result, and the table after it. -/
def run (i : Numbers) : Interning α → α × Numbers
  | done a => (a, i)
  | lookup id next => (next (i.lookup id)).run i
  | intern shape next => (next (i.place shape).1).run (i.place shape).2

end Interning

/-! ## Meanings -/

/-- **What something with numbers in it means**, as long as the table only grows. -/
structure Meaning (α β : Type) where
  Holds : Numbers → α → β → Prop
  mono : ∀ {i j : Numbers} {a : α} {b : β}, Holds i a b → i.Extends j → Holds j a b

namespace Meaning

variable {α β γ δ : Type}

/-- What has no numbers in it means itself. -/
def same : Meaning α α := ⟨fun _ a b => b = a, fun h _ => h⟩

/-- A number means a type. -/
def type : Meaning Ty Nat := ⟨Interner.Denotes, fun h hij => h.mono hij⟩

/-- Lists mean lists, element by element. -/
def list (m : Meaning α β) : Meaning (List α) (List β) :=
  ⟨fun i => List.Forall₂ (m.Holds i), fun h hij => h.imp fun _ _ h => m.mono h hij⟩

/-- The same for options. -/
def option (m : Meaning α β) : Meaning (Option α) (Option β) where
  Holds i := Option.Rel (m.Holds i)
  mono h hij := by
    cases h with
    | some h => exact .some (m.mono h hij)
    | none => exact .none

/-- The same for pairs. -/
def pair (m : Meaning α β) (n : Meaning γ δ) : Meaning (α × γ) (β × δ) :=
  ⟨fun i a b => m.Holds i a.1 b.1 ∧ n.Holds i a.2 b.2,
    fun h hij => ⟨m.mono h.1 hij, n.mono h.2 hij⟩⟩

variable {i : Numbers}

theorem list_same {as bs : List α} (h : (same (α := α)).list.Holds i as bs) : bs = as := by
  induction h with
  | nil => rfl
  | cons hab _ ih => rw [show _ = _ from hab, ih]

theorem list_same_self (as : List α) : (same (α := α)).list.Holds i as as :=
  List.forall₂_same.mpr fun _ _ => rfl

end Meaning

/-! ## Programs that give a meaning -/

namespace Interning

variable {α β γ δ σ τ : Type} {m : Meaning α β} {n : Meaning γ δ} {i j : Numbers} {a : α} {c : γ}

/-- **A program whose result means something** from a table on, whatever others number before its
steps.  It numbers only structures of numbers that are given. -/
def Gives (m : Meaning α β) (a : α) : Interning β → Numbers → Prop
  | done b, i => m.Holds i a b
  | lookup id next, i => ∀ j, i.Extends j → (next (j.lookup id)).Gives m a j
  | intern shape next, i => (∀ part ∈ shape.parts, part < i.size) ∧
      ∀ j, i.Extends j → (next (j.place shape).1).Gives m a (j.place shape).2

theorem Gives.extend {p : Interning β} (h : p.Gives m a i) (hij : i.Extends j) :
    p.Gives m a j := by
  cases p with
  | done b => exact m.mono h hij
  | lookup id next => exact fun k hjk => h k (hij.trans hjk)
  | intern shape next =>
    exact ⟨fun part hpart => Nat.lt_of_lt_of_le (h.1 part hpart) hij.size_le,
      fun k hjk => h.2 k (hij.trans hjk)⟩

/-- A result that means one thing may mean another one as well. -/
theorem Gives.imp {n : Meaning δ β} {d : δ} {p : Interning β} (h : p.Gives m a i)
    (himp : ∀ j b, m.Holds j a b → n.Holds j d b) : p.Gives n d i := by
  induction p generalizing i with
  | done b => exact himp i b h
  | lookup id next ih => exact fun j hij => ih _ (h j hij)
  | intern shape next ih => exact ⟨h.1, fun j hij => ih _ (h.2 j hij)⟩

theorem gives_pure {b : β} (h : m.Holds i a b) : (pure b : Interning β).Gives m a i := h

/-- **One program after another**: the second goes on with a result of the right meaning. -/
theorem Gives.bind {p : Interning β} {f : β → Interning δ} (hi : i.Grounded) (h : p.Gives m a i)
    (hf : ∀ j b, i.Extends j → m.Holds j a b → (f b).Gives n c j) : (p >>= f).Gives n c i := by
  induction p generalizing i with
  | done b => exact hf i b hi.extends_self h
  | lookup id next ih =>
    exact fun j hij => ih _ hij.grounded (h j hij) fun k b hjk => hf k b (hij.trans hjk)
  | intern shape next ih =>
    refine ⟨h.1, fun j hij => ?_⟩
    have hext : j.Extends (j.place shape).2 := hij.grounded.extends_place fun part hpart =>
      Nat.lt_of_lt_of_le (h.1 part hpart) hij.size_le
    exact ih _ hext.grounded (h.2 j hij) fun k b hk => hf k b ((hij.trans hext).trans hk)

/-- **The structure of a number that stands for a type** makes the type, over smaller numbers. -/
theorem Gives.shapeOf_bind {id : Nat} {t : Ty} {f : TypeShape DeclName TypeVar → Interning δ}
    (hi : i.Grounded) (h : i.Denotes t id)
    (hf : ∀ j shape, i.Extends j → j.Spells shape t → (∀ part ∈ shape.parts, part < id) →
      (f shape).Gives n c j) : (shapeOf id >>= f).Gives n c i := by
  obtain ⟨shape, hid, hspells⟩ := Interner.denotes_iff.mp h
  intro j hij
  rw [Interner.lookup_of_getElem? (hij.getElem? hid)]
  exact hf j shape hij (hspells.mono hij) (hi id shape hid)

/-- **Numbering a structure** gives the type that it makes. -/
theorem gives_numberOf {shape : TypeShape DeclName TypeVar} {t : Ty} (h : i.Spells shape t) :
    (numberOf shape).Gives .type t i :=
  ⟨h.parts_lt_size, fun _ hij => ((h.mono hij).place hij.grounded).2⟩

/-- A program for each element, if each gives the right meaning. -/
theorem gives_each {as : List α} {bs : List β} {f : β → Interning δ} {g : α → γ}
    (hi : i.Grounded) (h : m.list.Holds i as bs)
    (step : ∀ j, i.Extends j → ∀ a ∈ as, ∀ b ∈ bs, m.Holds j a b → (f b).Gives n (g a) j) :
    (each f bs).Gives n.list (as.map g) i := by
  induction as generalizing i bs with
  | nil =>
    cases h
    exact gives_pure .nil
  | cons a as ih =>
    obtain ⟨b, bs, hab, hrest, rfl⟩ := List.forall₂_cons_left_iff.mp h
    refine Gives.bind hi (step i hi.extends_self _ List.mem_cons_self _ List.mem_cons_self hab)
      fun j d hij hd => ?_
    refine Gives.bind (m := n.list) hij.grounded
      (ih hij.grounded (m.list.mono hrest hij) fun k hjk a ha b hb =>
        step k (hij.trans hjk) a (List.mem_cons_of_mem _ ha) b (List.mem_cons_of_mem _ hb))
      fun k ds hjk hds => ?_
    exact gives_pure (.cons (n.mono hd hjk) hds)

/-- The same for elements without numbers in them. -/
theorem gives_eachOf {f : α → Interning δ} {g : α → γ} (hi : i.Grounded) (as : List α)
    (step : ∀ j, i.Extends j → ∀ a ∈ as, (f a).Gives n (g a) j) :
    (each f as).Gives n.list (as.map g) i := by
  refine gives_each hi (Meaning.list_same_self as) fun j hij a ha b _ hab => ?_
  obtain rfl : b = a := hab
  exact step j hij b ha

/-- The same for results without numbers in them. -/
theorem gives_eachSame {as : List α} {bs : List β} {f : β → Interning γ} {g : α → γ}
    (hi : i.Grounded) (h : m.list.Holds i as bs)
    (step : ∀ j, i.Extends j → ∀ a ∈ as, ∀ b ∈ bs, m.Holds j a b → (f b).Gives .same (g a) j) :
    (each f bs).Gives .same (as.map g) i :=
  (gives_each hi h step).imp fun _ _ hcs => Meaning.list_same hcs

/-- Reading each element. -/
theorem gives_eachSelf {as : List α} {bs : List β} {f : β → Interning α} (hi : i.Grounded)
    (h : m.list.Holds i as bs)
    (step : ∀ j, i.Extends j → ∀ a ∈ as, ∀ b ∈ bs, m.Holds j a b → (f b).Gives .same a j) :
    (each f bs).Gives .same as i :=
  List.map_id' as ▸ gives_eachSame (g := fun a => a) hi h step

/-- A program with state for each element, if each step keeps in step. -/
theorem gives_eachWith {s : Meaning σ τ} {as : List α} {bs : List β} {x : σ} {y : τ}
    {f : τ → β → Interning (δ × τ)} {g : σ → α → γ × σ} (hi : i.Grounded)
    (h : m.list.Holds i as bs) (hs : s.Holds i x y)
    (step : ∀ j x y, i.Extends j → s.Holds j x y → ∀ a ∈ as, ∀ b ∈ bs, m.Holds j a b →
      (f y b).Gives (n.pair s) (g x a) j) :
    (eachWith f y bs).Gives (n.list.pair s) (threaded g x as) i := by
  induction as generalizing i bs x y with
  | nil =>
    cases h
    exact gives_pure ⟨.nil, hs⟩
  | cons a as ih =>
    obtain ⟨b, bs, hab, hrest, rfl⟩ := List.forall₂_cons_left_iff.mp h
    refine Gives.bind hi
      (step i x y hi.extends_self hs _ List.mem_cons_self _ List.mem_cons_self hab)
      fun j d hij hd => ?_
    obtain ⟨d, y'⟩ := d
    refine Gives.bind (m := n.list.pair s) hij.grounded
      (ih hij.grounded (m.list.mono hrest hij) hd.2 fun k x y hjk hxy a ha b hb =>
        step k x y (hij.trans hjk) hxy a (List.mem_cons_of_mem _ ha) b (List.mem_cons_of_mem _ hb))
      fun k ds hjk hds => ?_
    exact gives_pure ⟨.cons (n.mono hd.1 hjk) hds.1, hds.2⟩

/-- The same for elements without numbers in them. -/
theorem gives_eachWithOf {s : Meaning σ τ} {x : σ} {y : τ} {f : τ → α → Interning (δ × τ)}
    {g : σ → α → γ × σ} (hi : i.Grounded) (as : List α) (hs : s.Holds i x y)
    (step : ∀ j x y, i.Extends j → s.Holds j x y → ∀ a ∈ as,
      (f y a).Gives (n.pair s) (g x a) j) :
    (eachWith f y as).Gives (n.list.pair s) (threaded g x as) i := by
  refine gives_eachWith hi (Meaning.list_same_self as) hs fun j x y hij hxy a ha b _ hab => ?_
  obtain rfl : b = a := hab
  exact step j x y hij hxy b ha

/-- One step of a program that gives a meaning. -/
theorem Gives.step {p p' : Interning β} (hi : i.Grounded) (h : p.Gives m a i)
    (hstep : p.step i = some (p', j)) : i.Extends j ∧ p'.Gives m a j := by
  cases p with
  | done b => cases hstep
  | lookup id next =>
    cases hstep
    exact ⟨hi.extends_self, h i hi.extends_self⟩
  | intern shape next =>
    cases hstep
    exact ⟨hi.extends_place h.1, h.2 i hi.extends_self⟩

/-- **A program that is left alone** gives what it gives among others. -/
theorem Gives.run {p : Interning β} (hi : i.Grounded) (h : p.Gives m a i) :
    i.Extends (p.run i).2 ∧ m.Holds (p.run i).2 a (p.run i).1 := by
  induction p generalizing i with
  | done b => exact ⟨hi.extends_self, h⟩
  | lookup id next ih => exact ih _ hi (h i hi.extends_self)
  | intern shape next ih =>
    have hext := hi.extends_place h.1
    exact (ih _ hext.grounded (h.2 i hi.extends_self)).imp_left hext.trans

end Interning

/-! ## Pools -/

/-- **Programs over one table.** -/
structure Pool (β : Type) where
  table : Numbers
  threads : List (Interning β)

namespace Pool

variable {α β : Type} {m : Meaning α β} {as : List α} {pool pool' : Pool β}

/-- **What can happen**: one of the programs does a step, or somebody numbers another type. -/
inductive Step (pool : Pool β) : Pool β → Prop
  | act {k : Nat} {p p' : Interning β} {table : Numbers} (hp : pool.threads[k]? = some p)
      (h : p.step pool.table = some (p', table)) : Step pool ⟨table, pool.threads.set k p'⟩
  | other {shape : TypeShape DeclName TypeVar}
      (parts : ∀ part ∈ shape.parts, part < pool.table.size) :
      Step pool ⟨(pool.table.place shape).2, pool.threads⟩

/-- Anything that can happen one after the other. -/
abbrev Reaches (pool pool' : Pool β) : Prop := Relation.ReflTransGen Step pool pool'

/-- **A pool in which the programs give certain meanings.** -/
structure Sound (m : Meaning α β) (as : List α) (pool : Pool β) : Prop where
  grounded : pool.table.Grounded
  gives : List.Forall₂ (fun a p => p.Gives m a pool.table) as pool.threads

theorem forall₂_set {γ δ : Type} {R R' : γ → δ → Prop} {cs : List γ} {ds : List δ} {k : Nat}
    {d d' : δ} (h : List.Forall₂ R cs ds) (hk : ds[k]? = some d) (keep : ∀ c d, R c d → R' c d)
    (step : ∀ c, R c d → R' c d') : List.Forall₂ R' cs (ds.set k d') := by
  induction h generalizing k with
  | nil => cases hk
  | cons hcd hrest ih =>
    cases k with
    | zero =>
      cases hk
      exact .cons (step _ hcd) (hrest.imp keep)
    | succ k => exact .cons (keep _ _ hcd) (ih hk)

/-- **No step disturbs another program.** -/
theorem Step.sound (h : pool.Step pool') (hpool : pool.Sound m as) :
    pool.table.Extends pool'.table ∧ pool'.Sound m as := by
  cases h with
  | act hp hstep =>
    obtain ⟨a, -, ha⟩ := exists_of_mem_forall₂ hpool.gives (List.mem_of_getElem? hp)
    have hext := (ha.step hpool.grounded hstep).1
    exact ⟨hext, hext.grounded, forall₂_set hpool.gives hp (fun _ _ hq => hq.extend hext)
      fun _ hq => (hq.step hpool.grounded hstep).2⟩
  | other parts =>
    have hext := hpool.grounded.extends_place parts
    exact ⟨hext, hext.grounded, hpool.gives.imp fun _ _ hq => hq.extend hext⟩

/-- **In every schedule the programs give what they give alone.** -/
theorem Reaches.sound (h : pool.Reaches pool') (hpool : pool.Sound m as) :
    pool.table.Extends pool'.table ∧ pool'.Sound m as := by
  induction h with
  | refl => exact ⟨hpool.grounded.extends_self, hpool⟩
  | tail _ hstep ih =>
    obtain ⟨hext, hsound⟩ := ih
    exact (hstep.sound hsound).imp_left hext.trans

/-- The results at the end have the meanings. -/
theorem Sound.holds {bs : List β} (h : pool.Sound m as) (hdone : pool.threads = bs.map .done) :
    m.list.Holds pool.table as bs := by
  have hgives := h.gives
  rw [hdone, List.forall₂_map_right_iff] at hgives
  exact hgives

/-! ## One program after the other -/

/-- **The programs one after the other**: their results, and the table after them. -/
def runEach (pool : Pool β) : List β × Numbers :=
  threaded (fun i p => p.run i) pool.table pool.threads

theorem step_at {i j : Numbers} {p p' : Interning β} (before after : List (Interning β))
    (h : p.step i = some (p', j)) : Step ⟨i, before ++ p :: after⟩ ⟨j, before ++ p' :: after⟩ := by
  have hat : (before ++ p :: after)[before.length]? = some p := by simp
  have hstep : Step ⟨i, before ++ p :: after⟩ _ := .act hat h
  simpa using hstep

/-- A program among others can be left alone until it is done. -/
theorem reaches_run (i : Numbers) (before : List (Interning β)) (p : Interning β)
    (after : List (Interning β)) :
    Reaches ⟨i, before ++ p :: after⟩ ⟨(p.run i).2, before ++ .done (p.run i).1 :: after⟩ := by
  induction p generalizing i with
  | done b => exact .refl
  | lookup id next ih => exact .head (step_at before after rfl) (ih _ i)
  | intern shape next ih => exact .head (step_at before after rfl) (ih _ _)

/-- **One program after the other is a schedule.** -/
theorem reaches_runEach (pool : Pool β) :
    pool.Reaches ⟨pool.runEach.2, pool.runEach.1.map .done⟩ := by
  obtain ⟨i, ps⟩ := pool
  have hrun : ∀ (before : List (Interning β)), Reaches ⟨i, before ++ ps⟩
      ⟨(runEach ⟨i, ps⟩).2, before ++ (runEach ⟨i, ps⟩).1.map .done⟩ := by
    induction ps generalizing i with
    | nil => exact fun _ => .refl
    | cons p ps ih =>
      intro before
      refine (reaches_run i before p ps).trans ?_
      have hrest := ih (p.run i).2 (before ++ [.done (p.run i).1])
      simp only [List.append_assoc, List.singleton_append] at hrest
      exact hrest
  exact hrun []

end Pool

end LateBridge
