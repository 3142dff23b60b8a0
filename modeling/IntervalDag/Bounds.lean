import IntervalDag.Interval.Basic

/-!
# Bound stores

Propagation reads the domains of variables from a bound store and tightens them there. `BoundStore` is
what it asks of a store; `BoundTable` is the store that keeps the domains in memory.
-/

namespace IntervalDag

/-- What became of a request to tighten a domain. -/
inductive BoundChange where
  /-- The domain stays as it was. -/
  | unchanged
  /-- The domain shrank. -/
  | tightened
  /-- The bounds asked for do not meet the domain, which stays as it was. -/
  | infeasible
  deriving DecidableEq, Repr, Inhabited

/-- The capitalised name of a change. -/
def BoundChange.name : BoundChange → String
  | unchanged => "Unchanged"
  | tightened => "Tightened"
  | infeasible => "Infeasible"

/-- A source of variable domains that can be tightened. -/
class BoundStore (σ : Type) (α : outParam Type) where
  /-- The domain of a variable. -/
  bounds : σ → VarId → Interval α
  /-- Intersects the domain of a variable with an interval. -/
  tighten : σ → VarId → Interval α → σ × BoundChange

/-- Domains by variable number. A variable without an entry is unbounded. -/
structure BoundTable (α : Type) where
  /-- The domains of the variables from zero on. -/
  entries : Array (Interval α)
  /-- Changes up to this relative size are not applied. -/
  minTightening : α

namespace BoundTable

variable {α : Type} [Scalar α]

/-- The table of the given domains, which applies every change. -/
def ofList (entries : List (Interval α)) : BoundTable α := ⟨entries.toArray, 0⟩

/-- The domain of a variable. -/
def bounds (t : BoundTable α) (v : VarId) : Interval α := t.entries[v]?.getD .entire

/-- Sets the domain of a variable, adding unbounded entries below it as needed. -/
def set (t : BoundTable α) (v : VarId) (x : Interval α) : BoundTable α :=
  let padding := Array.replicate ((v : Nat) + 1 - t.entries.size) Interval.entire
  { t with entries := (t.entries ++ padding).setIfInBounds v x }

/-- Intersects the domain of a variable with an interval. An empty intersection is refused, and one
that is not tighter by the table's own threshold is passed over. -/
def tighten (t : BoundTable α) (v : VarId) (x : Interval α) : BoundTable α × BoundChange :=
  let current := t.bounds v
  let narrowed := current.inter x
  if narrowed.isEmpty then (t, .infeasible)
  else if narrowed.isTighter current t.minTightening then (t.set v narrowed, .tightened)
  else (t, .unchanged)

instance : BoundStore (BoundTable α) α where
  bounds := bounds
  tighten := tighten

/-- After setting a domain, that variable has it and all others have theirs. -/
theorem bounds_set (t : BoundTable α) (v w : Nat) (x : Interval α) :
    (t.set v x).bounds w = if w = v then x else t.bounds w := by
  unfold set bounds
  simp only [Array.getElem?_setIfInBounds, Array.size_append, Array.size_replicate]
  split
  case isTrue h =>
    have hv : v < t.entries.size + (v + 1 - t.entries.size) := by omega
    subst h
    simp [hv]
  case isFalse h =>
    rw [if_neg (fun e => h e.symm), Array.getElem?_append]
    split
    case isTrue => rfl
    case isFalse hw =>
      rw [Array.getElem?_eq_none (Nat.le_of_not_lt hw), Array.getElem?_replicate]
      split <;> rfl

end BoundTable

end IntervalDag
