/-!
# Symbols/Interner — numbers for types

    structure ──place in the table──▸ place ──cut to 32 bits──▸ number

An interner gives every type structure a number: the same one for the same structure, the next free
one for a new one.  Inside a structure other types stand by their numbers.  Three numbers are taken
from the start.  A number has 32 bits and nothing guards against a table with more places than
that: the place after the last number gets number zero again.
-/

namespace LateBridge

/-- **The structure of a type over the numbers of its parts**, for declarations `D` and type
parameters `P`. -/
inductive TypeShape (D P : Type) where
  | void
  | dynamic
  | error
  | named (decl : D) (args : List Nat)
  | array (element rank : Nat)
  | param (p : P)
  | pointer (target : Nat)
  | fnptr (params : List Nat) (ret : Nat)
  deriving DecidableEq, Repr, Inhabited

/-- **An interner** — the structures in the order of their numbers, none of them twice. -/
structure Interner (D P : Type) where
  shapes : List (TypeShape D P)
  reserved : [.void, .dynamic, .error] <+: shapes
  nodup : shapes.Nodup

namespace Interner

variable {D P : Type}

/-- The interner with the three reserved numbers. -/
def new : Interner D P where
  shapes := [.void, .dynamic, .error]
  reserved := List.prefix_refl _
  nodup := by simp

instance : Inhabited (Interner D P) := ⟨new⟩

/-- How many numbers are given. -/
def size (i : Interner D P) : Nat := i.shapes.length

/-- Whether no number is given. -/
def isEmpty (i : Interner D P) : Bool := i.shapes.isEmpty

/-- **The structure with a number**; a number that is not given stands for the error. -/
def lookup (i : Interner D P) (id : Nat) : TypeShape D P := i.shapes[id]?.getD .error

/-- **The place of a structure** in the table, where it is added if it has none. -/
def place [DecidableEq D] [DecidableEq P] (i : Interner D P) (shape : TypeShape D P) :
    Nat × Interner D P :=
  if h : shape ∈ i.shapes then (i.shapes.idxOf shape, i)
  else
    (i.size,
      { shapes := i.shapes ++ [shape]
        reserved := i.reserved.trans (List.prefix_append _ _)
        nodup := by
          have := i.nodup
          simp only [List.nodup_append, List.nodup_cons, List.not_mem_nil, not_false_eq_true,
            List.nodup_nil, and_self, List.mem_singleton, ne_eq, true_and]
          exact ⟨this, fun a ha b hb => by rintro rfl; exact h (hb ▸ ha)⟩ })

/-- How many numbers there are. -/
def numberLimit : Nat := Nat.pow 2 32

/-- **The number of a structure**: its place, cut to the width of a number. -/
def intern [DecidableEq D] [DecidableEq P] (i : Interner D P) (shape : TypeShape D P) :
    Nat × Interner D P :=
  ((i.place shape).1 % numberLimit, (i.place shape).2)

/-- A number that is not given stands for the error. -/
theorem lookup_of_size_le (i : Interner D P) {id : Nat} (h : i.size ≤ id) :
    i.lookup id = .error := by
  simp [lookup, List.getElem?_eq_none h]

end Interner

end LateBridge
