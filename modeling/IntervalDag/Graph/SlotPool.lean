import IntervalDag.Fault

/-!
# Walk slots, visit tags and epochs

Each walk that keeps state on nodes holds one of five slots of its graph while it does. A walk that must
not visit a node twice marks nodes with a visit tag of its own. Tags count up from one, so that zero can
mean that there is none.
-/

namespace IntervalDag

/-- A counter of tags. -/
structure EpochCounter where
  /-- The last tag given out; zero before the first. -/
  last : Nat
  deriving DecidableEq, Repr, Inhabited

/-- Gives out the next tag. -/
def EpochCounter.mint (c : EpochCounter) : Nat × EpochCounter := (c.last + 1, ⟨c.last + 1⟩)

/-- The slots of a graph that are taken, and the last visit tag. -/
structure SlotPool where
  /-- The slots that walks hold. -/
  taken : List Nat
  /-- The counter of visit tags. -/
  visitTags : EpochCounter
  deriving Repr

namespace SlotPool

/-- No slot is taken and no tag given out. -/
instance : Inhabited SlotPool := ⟨⟨[], default⟩⟩

/-- The number of slots of a graph. -/
def limit : Nat := 5

/-- The lowest slot that is not taken. -/
def lowestFree? (p : SlotPool) : Option Nat := (List.range limit).find? fun i => !p.taken.contains i

/-- Takes the lowest free slot. -/
def lease {α : Type} (p : SlotPool) : Checked α (Nat × SlotPool) :=
  match p.lowestFree? with
  | some i => .ok (i, { p with taken := i :: p.taken })
  | none => .error .slotsExhausted

/-- Gives a slot back. -/
def giveBack (p : SlotPool) (i : Nat) : SlotPool := { p with taken := p.taken.erase i }

/-- The number of slots that are taken. -/
def activeCount (p : SlotPool) : Nat := p.taken.length

/-- Gives out the next visit tag. -/
def nextVisitTag (p : SlotPool) : Nat × SlotPool :=
  let (tag, visitTags) := p.visitTags.mint
  (tag, { p with visitTags })

/-- The slot that is taken was free, and lies below the limit. -/
theorem lowestFree?_spec {p : SlotPool} {i : Nat} (h : p.lowestFree? = some i) :
    i < limit ∧ i ∉ p.taken := by
  have hm := List.mem_of_find?_eq_some h
  have hp := List.find?_some h
  exact ⟨List.mem_range.1 hm, by simpa using hp⟩

end SlotPool

end IntervalDag
