/-!
# Fresh numbers and names

A counter hands out natural numbers in order. A family of names hands out its stem first and then
the stem with a number, and reserves for itself every name that continues the stem with a point.

What is *not* modelled: the width of these numbers. They are unbounded, so that a counter never
runs over; in a module that is read they have 32 bits.
-/

namespace StraightLine

/-- Hands out the natural numbers from a start on. -/
structure Counter where
  next : Nat := 0
  deriving DecidableEq, Repr

/-- The next number, and the counter after it. -/
def Counter.take (c : Counter) : Nat × Counter := (c.next, { next := c.next + 1 })

/-- The next `n` numbers. -/
def Counter.takeMany (c : Counter) : Nat → List Nat
  | 0 => []
  | n + 1 => c.take.1 :: c.take.2.takeMany n

/-- The names `stem`, `stem.1`, `stem.2` and so on. -/
structure NameFamily where
  stem : String
  next : Nat := 0
  deriving DecidableEq, Repr

namespace NameFamily

/-- The member of the family with a number. -/
def member (f : NameFamily) (n : Nat) : String :=
  if n = 0 then f.stem else f.stem ++ "." ++ toString n

/-- The next name, and the family after it. -/
def take (f : NameFamily) : String × NameFamily := (f.member f.next, { f with next := f.next + 1 })

/-- The next `n` names. -/
def takeMany (f : NameFamily) : Nat → List String
  | 0 => []
  | n + 1 => f.take.1 :: f.take.2.takeMany n

/-- Whether a name is kept for the family: the stem, or the stem and a point and anything. -/
def reserves (f : NameFamily) (name : String) : Bool :=
  name = f.stem || (f.stem ++ ".").toList.isPrefixOf name.toList

end NameFamily

end StraightLine
