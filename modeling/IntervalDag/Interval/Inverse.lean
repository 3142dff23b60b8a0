import IntervalDag.Interval.Elementary

/-!
# Inverse relations

Each function here takes the `bounds` that an operation's result must lie in and the interval `within`
that an operand is known to lie in. It answers with an interval inside `within` that holds every
operand whose image is in `bounds`, and with an empty one when it finds none. Reverse propagation is
built from these relations.
-/

namespace IntervalDag

open Scalar

variable {α : Type} [Scalar α]

namespace Interval

/-! ### Products -/

/-- The values up to `num / den`, listed only if `present`. -/
def rayBelow (num den : α) (present : Bool) : Checked α (List (Interval α)) :=
  if present then (fun x => [x]) <$> ofBounds negInf (num / den) else .ok []

/-- The values from `num / den` on, listed only if `present`. -/
def rayAbove (num den : α) (present : Bool) : Checked α (List (Interval α)) :=
  if present then (fun x => [x]) <$> ofBounds (num / den) posInf else .ok []

/-- The rays that solve `x * d ∈ bounds` for some `d` of a factor that touches zero, when `bounds`
lies on one side of zero. -/
def solutionRays (bounds factor : Interval α) : Checked α (List (Interval α)) := do
  let lo := factor.inf
  let hi := factor.sup
  if 0 < bounds.inf then
    let left ← rayBelow bounds.inf lo (lo < 0)
    let right ← rayAbove bounds.inf hi (0 < hi)
    return left ++ right
  else
    let left ← rayBelow bounds.sup hi (0 < hi)
    let right ← rayAbove bounds.sup lo (lo < 0)
    return left ++ right

/-- The hull of the `x` in `within` for which `x * d` is in `bounds` for some `d` in `factor`. Where
`factor` touches zero and `bounds` does not, the solutions form up to two rays, and each is clipped to
`within` before the hull is taken. -/
def solveProduct (bounds factor within : Interval α) : Checked α (Interval α) :=
  if bounds.isEmpty || factor.isEmpty || within.isEmpty then .ok empty
  else if bounds.containsZero && factor.containsZero then .ok within
  else if factor.inf == 0 && factor.sup == 0 then .ok empty
  else if !factor.containsZero then .ok ((bounds / factor).inter within)
  else do
    let rays ← solutionRays bounds factor
    return hullAll (rays.map (·.inter within))

/-! ### Powers -/

/-- The `p`-th root of a magnitude, with the sign of `v`. The sign of a zero counts, since the root of a
zero need not be zero: for an infinite `p` it is one. -/
def signedRoot (p v : α) : α :=
  let r := Scalar.pow (Scalar.abs v) (1 / p)
  if isNegative v then -r else r

/-- The `x` in `within` whose power with an odd positive exponent is in `bounds`. -/
def oddRootsWithin (bounds : Interval α) (p : α) (within : Interval α) : Checked α (Interval α) := do
  let x ← ofBounds (nudgeDown (signedRoot p bounds.inf)) (nudgeUp (signedRoot p bounds.sup))
  return x.inter within

/-- The roots that are not negative of the values in `bounds`. -/
def positiveRoots (bounds : Interval α) (p : α) : Checked α (Interval α) :=
  ofBounds (maxNum (nudgeDown (signedRoot p bounds.inf)) 0) (nudgeUp (signedRoot p bounds.sup))

/-- The `x` in `within` with `x ^ p` in `bounds`, for an exponent above zero. -/
def rootsWithin (bounds : Interval α) (p : α) (within : Interval α) : Checked α (Interval α) :=
  if bounds.isEmpty || within.isEmpty then .ok empty
  else
    match integral? p with
    | some n =>
      if n % 2 ≠ 0 then oddRootsWithin bounds p within
      else do
        let b := bounds.inter nonnegative
        if b.isEmpty then return empty
        let positive ← positiveRoots b p
        return hullAll [positive.inter within, (-positive).inter within]
    | none => do
      let b := bounds.inter nonnegative
      if b.isEmpty then return empty
      let positive ← positiveRoots b p
      return positive.inter within

/-- The inverse relation of `x ^ p`. For an exponent below zero the reciprocals of `bounds` are solved
for first. -/
def powInverse (bounds : Interval α) (p : α) (within : Interval α) : Checked α (Interval α) :=
  if bounds.isEmpty || within.isEmpty then .ok empty
  else if p == 0 then .ok (if bounds.contains 1 then within else empty)
  else if p < 0 then do
    let base ← solveProduct ⟨1, 1⟩ bounds entire
    rootsWithin base (-p) within
  else rootsWithin bounds p within

/-! ### Exponential, logarithm and magnitude -/

/-- The inverse relation of the exponential function: empty when `bounds` holds no value above
zero. -/
def expInverse (bounds within : Interval α) : Interval α :=
  if bounds.isEmpty || decide (bounds.sup ≤ 0) then empty
  else
    let lo := if bounds.inf ≤ 0 then negInf else nudgeDown (Scalar.ln bounds.inf)
    inter ⟨lo, nudgeUp (Scalar.ln bounds.sup)⟩ within

/-- The inverse relation of the natural logarithm. -/
def lnInverse (bounds within : Interval α) : Interval α :=
  if bounds.isEmpty then empty
  else
    let lo := maxNum (nudgeDown (Scalar.exp bounds.inf)) 0
    inter ⟨lo, nudgeUp (Scalar.exp bounds.sup)⟩ within

/-- The inverse relation of the magnitude. -/
def absInverse (bounds within : Interval α) : Interval α :=
  let b := bounds.inter nonnegative
  if b.isEmpty then empty else hullAll [b.inter within, (-b).inter within]

/-! ### Sine and cosine -/

/-- The first value from `start` on that lies a whole number of periods from `root`. -/
def nextPeriodic (start root : α) : α := root + ceil ((start - root) / tau) * tau

/-- The least `x` from `start` on whose sine is in `b`, a part of `[-1, 1]`. It is `start` itself, or
a place where the sine equals an end of `b`. -/
def firstSineHit (start : α) (b : Interval α) : α :=
  if b.contains (Scalar.sin start) then start
  else
    let roots := [b.inf, b.sup].flatMap fun level => [asin level, Scalar.pi - asin level]
    roots.foldl
      (fun best root =>
        let x := nextPeriodic start root
        if start ≤ x ∧ x < best then x else best)
      posInf

/-- The inverse relation of `x ↦ sin (x + shift)`. The last hit below an end mirrors the first hit
above the negated end, as the sine is odd. -/
def periodicInverse (bounds within : Interval α) (shift : α) : Interval α :=
  let b := bounds.inter ⟨-1, 1⟩
  if b.isEmpty || within.isEmpty then empty
  else if (b.inf ≤ -1 ∧ 1 ≤ b.sup) ∨ within.isBounded = false then within
  else
    let hi := within.sup + shift
    let first := firstSineHit (within.inf + shift) b
    if hi < first then empty
    else
      let last := -firstSineHit (-hi) (-b)
      ⟨maxNum (nudgeDown (first - shift)) within.inf, minNum (nudgeUp (last - shift)) within.sup⟩

/-- The inverse relation of the sine. -/
def sinInverse (bounds within : Interval α) : Interval α := periodicInverse bounds within 0

/-- The inverse relation of the cosine, which is the sine a quarter of a period ahead. -/
def cosInverse (bounds within : Interval α) : Interval α := periodicInverse bounds within halfPi

/-! ### The entropy term -/

/-- Halves `[lo, hi]` up to `steps` times around the point where `before` changes from true to false,
and stops early when the midpoint is no longer strictly inside. -/
def bisect (before : α → Bool) : Nat → α → α → α × α
  | 0, lo, hi => (lo, hi)
  | steps + 1, lo, hi =>
    let mid := 0.5 * (lo + hi)
    if mid ≤ lo ∨ hi ≤ mid then (lo, hi)
    else if before mid then bisect before steps mid hi
    else bisect before steps lo mid

/-- The number of halvings of a bracket. -/
def bisectionSteps : Nat := 200

/-- Doubles `hi` while `f` still lies above `target` there. There is no result if `steps` steps are not enough to get to
the end. -/
def doubleWhileAbove? (f : α → α) (target : α) : Nat → α → Option α
  | 0, _ => none
  | steps + 1, hi =>
    if target < f hi ∧ isFinite hi = true then doubleWhileAbove? f target steps (hi * 2.0) else some hi

/-- A bracket around the point of `[0, peak]`, where `f` rises, at which it crosses `target`. -/
def risingBracket (f : α → α) (peak target : α) : α × α :=
  bisect (fun x => f x < target) bisectionSteps 0 peak

/-- A bracket around the point of `[peak, ∞)`, where `f` falls, at which it crosses `target`. Its upper end is infinite
unless doubling ends at a finite one in `steps` steps. -/
def fallingBracket (steps : Nat) (f : α → α) (peak target : α) : α × α :=
  match doubleWhileAbove? f target steps 1 with
  | some hi => if isFinite hi then bisect (fun x => target < f x) bisectionSteps peak hi else (peak, posInf)
  | none => (peak, posInf)

/-- Where a function that rises from zero up to a peak may have values in bounds, if they are not all negative. -/
def risingPart (f : α → α) (peak : α) (bounds : Interval α) : Interval α :=
  ⟨if bounds.inf ≤ 0 then 0 else (risingBracket f peak bounds.inf).1,
    if peak ≤ bounds.sup then peak else (risingBracket f peak bounds.sup).2⟩

/-- Where a function that falls from a peak on may have values in bounds. -/
def fallingPart (steps : Nat) (f : α → α) (peak : α) (bounds : Interval α) : Interval α :=
  ⟨if peak ≤ bounds.sup then peak else (fallingBracket steps f peak bounds.sup).1,
    if bounds.inf == negInf then posInf else (fallingBracket steps f peak bounds.inf).2⟩

/-- The inverse relation, over values that are not negative, of a function with `f 0 = 0` that rises
up to `peak`, where its value is `peak` too, and falls from there on without bound. -/
def humpInverse (steps : Nat) (f : α → α) (peak : α) (bounds within : Interval α) : Interval α :=
  let within := within.inter nonnegative
  if bounds.isEmpty || within.isEmpty || decide (peak < bounds.inf) then empty
  else
    let rising := if bounds.sup < 0 then empty else risingPart f peak bounds
    hullAll [rising.inter within, (fallingPart steps f peak bounds).inter within]

/-- The number of doublings after which an end counts as infinite. -/
def doublingSteps : Nat := 1024

/-- The inverse relation of `-x ln x`. -/
def entropyInverse (bounds within : Interval α) : Interval α :=
  humpInverse doublingSteps entropyAt invE bounds within

end Interval

end IntervalDag
