/-!
# Pareto frontiers

A `Frontier` holds entries none of which is at least as good as another one on all criteria. Of
entries that are equal on all criteria the first one stays.
-/
namespace JourneyPlanner

/-- How an entry relates to another one on all criteria together. -/
inductive Dominance where
  | dominates
  | dominatedBy
  | equal
  | incomparable
  deriving DecidableEq, Repr

/-- Combines comparisons criterion by criterion, where `lt` means better. -/
def Dominance.ofOrderings (orderings : List Ordering) : Dominance :=
  match orderings.contains .lt, orderings.contains .gt with
  | true, false => .dominates
  | false, true => .dominatedBy
  | false, false => .equal
  | true, true => .incomparable

/-- Entries that are compared on several criteria. -/
class Criteria (α : Type) where
  /-- The comparison of two entries on each criterion, where `lt` means that the first is better. -/
  orderings : α → α → List Ordering

/-- How the first entry relates to the second. -/
def dominance {α : Type} [Criteria α] (a b : α) : Dominance :=
  .ofOrderings (Criteria.orderings a b)

/-- Entries of which none dominates or equals another, in the order in which they came. -/
structure Frontier (α : Type) where
  items : List α
  deriving DecidableEq, Repr

namespace Frontier

variable {α : Type}

/-- The frontier without entries. -/
def empty : Frontier α := ⟨[]⟩

/-- The number of entries. -/
def size (f : Frontier α) : Nat := f.items.length

section Criteria

variable [Criteria α]

/-- Whether no entry of the frontier dominates or equals `x`. -/
def admits (f : Frontier α) (x : α) : Bool :=
  f.items.all fun e => dominance x e == .dominates || dominance x e == .incomparable

/-- Adds an entry, unless one of the frontier dominates or equals it, and drops those it dominates. -/
def insert (f : Frontier α) (x : α) : Frontier α :=
  if f.admits x then ⟨f.items.filter (fun e => dominance x e != .dominates) ++ [x]⟩ else f

end Criteria

/-- The entry with the greatest key, the last one of several, and its place in the list. -/
def greatest (le : α → α → Bool) : List α → Option (Nat × α)
  | [] => none
  | x :: xs =>
    match greatest le xs with
    | none => some (0, x)
    | some (i, y) => if le x y then some (i + 1, y) else some (0, x)

/-- Removes the entry that is greatest in the order `le`, the last one of several. -/
def dropGreatest (f : Frontier α) (le : α → α → Bool) : Frontier α :=
  match greatest le f.items with
  | none => f
  | some (i, _) => ⟨f.items.eraseIdx i⟩

end Frontier

end JourneyPlanner
