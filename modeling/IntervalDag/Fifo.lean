/-!
# First-in first-out queues

A queue of a front list and a reversed back list. Its view is `toList`, the elements from the next one
out to the last one in, and every operation is described through it: `toList_push` and `pop?_eq`.
-/

namespace IntervalDag

/-- A first-in first-out queue. -/
structure Fifo (β : Type) where
  /-- The next elements out, in order. -/
  front : List β
  /-- The last elements in, latest first. -/
  back : List β
  deriving Inhabited

namespace Fifo

variable {β : Type}

/-- The queue without elements. -/
def empty : Fifo β := ⟨[], []⟩

/-- The elements, from the next one out to the last one in. -/
def toList (q : Fifo β) : List β := q.front ++ q.back.reverse

/-- The number of elements. -/
def size (q : Fifo β) : Nat := q.front.length + q.back.length

/-- Puts an element in at the back. -/
def push (q : Fifo β) (b : β) : Fifo β := { q with back := b :: q.back }

/-- Puts the elements of a list in at the back, in order. -/
def pushAll (q : Fifo β) (bs : List β) : Fifo β := bs.foldl push q

/-- Takes the next element out, if there is one. -/
def pop? (q : Fifo β) : Option (β × Fifo β) :=
  match q.front with
  | b :: front => some (b, { q with front })
  | [] =>
    match q.back.reverse with
    | b :: front => some (b, ⟨front, []⟩)
    | [] => none

@[simp] theorem toList_empty : (empty : Fifo β).toList = [] := rfl

@[simp] theorem toList_push (q : Fifo β) (b : β) : (q.push b).toList = q.toList ++ [b] := by
  simp [toList, push]

@[simp] theorem toList_pushAll (q : Fifo β) (bs : List β) :
    (q.pushAll bs).toList = q.toList ++ bs := by
  induction bs generalizing q with
  | nil => simp [pushAll]
  | cons b bs ih =>
    have h : q.pushAll (b :: bs) = (q.push b).pushAll bs := rfl
    rw [h, ih, toList_push, List.append_assoc]
    rfl

@[simp] theorem length_toList (q : Fifo β) : q.toList.length = q.size := by
  simp [toList, size]

/-- Taking out splits the view into its head and its tail. -/
theorem pop?_eq (q : Fifo β) :
    (q.pop?).map (fun r => (r.1, r.2.toList)) =
      match q.toList with
      | [] => none
      | b :: bs => some (b, bs) := by
  obtain ⟨front, back⟩ := q
  cases front with
  | cons b front => simp [pop?, toList]
  | nil =>
    cases h : back.reverse with
    | nil => simp [pop?, toList, h]
    | cons b bs => simp [pop?, toList, h]

end Fifo

end IntervalDag
