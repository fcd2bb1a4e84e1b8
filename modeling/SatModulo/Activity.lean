/-!
# Activities

How active a theory has been, as a double. Activities are only added, scaled and compared, so the
numbers they are measured in are classes with those operations: what theories are ranked by, and what
is reckoned when they are bumped.

A value that is no number has a sign here. The sign is seen in the total order alone, where the negative
one is below all numbers and the positive one above. One that was put in place is positive. Which sign an
operation gives, and which of two equal values the larger one is, is left open by the definition of
doubles and differs between machines, so `Conventions` are a parameter of it.
-/
namespace SatModulo

/-- Numbers by which theories can be ranked. -/
class Measure (α : Type) where
  zero : α
  /-- A total order. -/
  rank : α → α → Ordering

/-- Numbers in which activity can be reckoned. -/
class Reckoning (α : Type) extends Add α, Sub α, Mul α, Div α where
  one : α
  /-- Strictly more, as bounds are tested. -/
  exceeds : α → α → Bool
  /-- The larger of two, where what is no number gives way. -/
  larger : α → α → α

inductive Operation where
  | sum
  | difference
  | product
  | quotient
  deriving DecidableEq, Repr

def Operation.eval : Operation → Float → Float → Float
  | .sum => (· + ·)
  | .difference => (· - ·)
  | .product => (· * ·)
  | .quotient => (· / ·)

/-- What machines are free to do with doubles. -/
class Conventions where
  /-- Whether an operation on two values that are no numbers hands on the right one. -/
  handsOnRight : Operation → Bool
  /-- Whether a value that is no number and arises from numbers is negative. -/
  arisesNegative : Operation → Bool
  /-- Whether the right one of two values is taken for the larger where neither is: they are no numbers, or they
  are equal, which shows where they are zeros of different sign. -/
  takesRight : Float → Float → Bool

/-- The conventions of the machine that searches are run on. -/
instance Conventions.usual : Conventions where
  handsOnRight _ := true
  arisesNegative _ := true
  takesRight _ _ := true

/-- A double, where a value that is no number has a sign. -/
structure Activity where
  value : Float
  /-- Whether a value that is no number is the negative one. -/
  negative : Bool := false
  deriving Repr

namespace Activity

/-- The position of a double in the total order: the bits read as sign and magnitude, where `-0`
comes right before `0`. -/
def position (a : Activity) : Int :=
  let bits := a.value.toBits.toNat
  let magnitude : Int := (bits % 0x8000000000000000 : Nat)
  if 0x8000000000000000 ≤ bits ∨ (a.value.isNaN ∧ a.negative) then -magnitude - 1 else magnitude

instance : Measure Activity where
  zero := ⟨0.0, false⟩
  rank a b := compare a.position b.position

variable [Conventions]

/-- An operation on doubles. A value that is no number is handed on. -/
def lift (op : Operation) (a b : Activity) : Activity :=
  if b.value.isNaN then if a.value.isNaN && !Conventions.handsOnRight op then a else b
  else if a.value.isNaN then a
  else
    let value := op.eval a.value b.value
    ⟨value, value.isNaN && Conventions.arisesNegative op⟩

def larger (a b : Activity) : Activity :=
  if b.value < a.value ∨ (b.value.isNaN ∧ ¬a.value.isNaN) then a
  else if a.value < b.value ∨ (a.value.isNaN ∧ ¬b.value.isNaN) then b
  else if Conventions.takesRight a.value b.value then b else a

instance : Reckoning Activity where
  add := lift .sum
  sub := lift .difference
  mul := lift .product
  div := lift .quotient
  one := ⟨1.0, false⟩
  exceeds a b := decide (b.value < a.value)
  larger := larger

end Activity

end SatModulo
