import SlotSymmetry.Group.Error

/-! # Budgets

    A search may be limited in the number of nodes it visits and in time.  The
    clock is looked at once in 64 nodes, and the time limit is either over when
    the search starts or never reached. -/

namespace SlotSymmetry

/-- A time limit. -/
inductive Deadline where
  /-- It is over when the search starts. -/
  | passed
  /-- It is not reached while the search runs. -/
  | ahead
  deriving DecidableEq, Repr

/-- The limits of a search. -/
structure Budget where
  maxNodes : Option Nat
  deadline : Option Deadline
  deriving DecidableEq, Repr

/-- No limits. -/
def Budget.unlimited : Budget := ⟨none, none⟩

/-- This count of nodes is over the limit. -/
def Budget.isSpentAt (budget : Budget) (nodes : Nat) : Bool :=
  budget.maxNodes.any (· < nodes) || (nodes % 64 == 0 && budget.deadline == some .passed)

/-- What a search found: all of it, or what it found until its budget ran out. -/
inductive Outcome (α : Type) where
  | complete (value : α)
  | incomplete (value : α) (nodes : Nat)
  deriving DecidableEq, Repr

namespace Outcome

variable {α β : Type}

/-- What was found. -/
def value : Outcome α → α
  | complete value => value
  | incomplete value _ => value

/-- The search came to its end. -/
def isComplete : Outcome α → Bool
  | complete _ => true
  | incomplete _ _ => false

/-- The same outcome of something computed from what was found. -/
def map (f : α → β) : Outcome α → Outcome β
  | complete value => complete (f value)
  | incomplete value nodes => incomplete (f value) nodes

/-- What was found, if the search came to its end. -/
def toResult : Outcome α → Except GroupError α
  | complete value => .ok value
  | incomplete _ nodes => .error (.searchIncomplete nodes)

end Outcome

/-- The nodes counted against a budget, over all searches of one query. -/
structure Meter where
  budget : Budget
  nodes : Nat
  exhausted : Bool
  deriving DecidableEq, Repr

namespace Meter

/-- Nothing is counted yet. -/
def start (budget : Budget) : Meter := ⟨budget, 0, false⟩

/-- Counts one node, unless the budget is spent already. -/
def tick (m : Meter) : Meter :=
  if m.exhausted then m
  else { m with nodes := m.nodes + 1, exhausted := m.budget.isSpentAt (m.nodes + 1) }

/-- The outcome of a query that found `value`. -/
def outcome {α : Type} (m : Meter) (value : α) : Outcome α :=
  if m.exhausted then .incomplete value m.nodes else .complete value

end Meter

end SlotSymmetry
