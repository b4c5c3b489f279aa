namespace Packed

structure IntType where
  signed : Bool
  bits : Nat
  deriving DecidableEq, Repr

namespace IntType

def truth : IntType := ⟨false, 1⟩

def low (t : IntType) : Int := if t.signed then -(Nat.pow 2 (t.bits - 1) : Nat) else 0

def high (t : IntType) : Int :=
  if t.signed then (Nat.pow 2 (t.bits - 1) : Nat) - 1 else (Nat.pow 2 t.bits : Nat) - 1

def contains (t : IntType) (n : Int) : Bool := t.low ≤ n && n ≤ t.high

/-- The number of the type that is congruent to `n` modulo two to the width. -/
def wrap (t : IntType) (n : Int) : Int :=
  if t.signed then n.bmod (Nat.pow 2 t.bits) else n % (Nat.pow 2 t.bits : Nat)

def leastBits (n : Nat) : Nat :=
  if n ≤ 8 then 8 else if n ≤ 16 then 16 else if n ≤ 32 then 32 else 64

end IntType

end Packed
