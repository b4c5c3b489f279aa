import Packed.Fault
import Packed.IntType

/-!
Arithmetic on numbers that may be unknown. An operation casts its operands to an intermediate
type, computes there modulo the width, and casts the answer to a result type. What depends on an
unknown operand is unknown; only `both` and `either` may be decided by one side alone.
-/

namespace Packed.Known

inductive Operation where
  | sum
  | difference
  | product
  deriving DecidableEq, Repr

def Operation.apply : Operation → Int → Int → Int
  | sum, a, b => a + b
  | difference, a, b => a - b
  | product, a, b => a * b

inductive Comparison where
  | equal
  | notEqual
  | less
  | lessOrEqual
  | greater
  | greaterOrEqual
  deriving DecidableEq, Repr

def Comparison.holds : Comparison → Int → Int → Bool
  | equal, a, b => a == b
  | notEqual, a, b => a != b
  | less, a, b => a < b
  | lessOrEqual, a, b => a ≤ b
  | greater, a, b => b < a
  | greaterOrEqual, a, b => b ≤ a

def arithmetic (op : Operation) (r i : IntType) (a b : Option Int) : Option Int :=
  match a, b with
  | some a, some b => some (r.wrap (i.wrap (op.apply (i.wrap a) (i.wrap b))))
  | _, _ => none

def compare (op : Comparison) (i : IntType) (a b : Option Int) : Option Bool :=
  match a, b with
  | some a, some b => some (op.holds (i.wrap a) (i.wrap b))
  | _, _ => none

def both (a b : Option Bool) : Option Bool :=
  match a, b with
  | some false, _ => some false
  | _, some false => some false
  | some true, some true => some true
  | _, _ => none

def either (a b : Option Bool) : Option Bool :=
  match a, b with
  | some true, _ => some true
  | _, some true => some true
  | some false, some false => some false
  | _, _ => none

def maximumFrom (i : IntType) (best : Option Int) : List (Option Int) → Option Int
  | [] => best
  | none :: _ => none
  | some a :: rest =>
      let candidate := i.wrap a
      match best with
      | some current =>
          maximumFrom i (some (if candidate ≤ current then current else candidate)) rest
      | none => maximumFrom i (some candidate) rest

/-- The greatest number in the order of the intermediate type. An empty list has none. -/
def maximum (r i : IntType) (values : List (Option Int)) : Option Int :=
  (maximumFrom i none values).map r.wrap

def choice (r : IntType) (condition : Option Bool) (a b : Option Int) : Option Int :=
  match condition with
  | some true => a.map r.wrap
  | some false => b.map r.wrap
  | none => none

def value {α : Type} : Option α → Except Fault α
  | some a => .ok a
  | none => .error .unknownValue

end Packed.Known
