import Packed.Fault
import Packed.Word

namespace Packed

/-- The indices to come are those from `front` up to `back`. -/
structure Cursor where
  front : Nat
  back : Nat
  deriving DecidableEq, Repr

namespace Cursor

def ofCount (count : Nat) : Cursor := ⟨0, count⟩

variable (c : Cursor)

def next : Option Nat × Cursor :=
  if c.back ≤ c.front then (none, c) else (some c.front, { c with front := c.front + 1 })

def nextBack : Option Nat × Cursor :=
  if c.back ≤ c.front then (none, c) else (some (c.back - 1), { c with back := c.back - 1 })

/-- Skips `n` indices, as far as there are any, and takes the next. -/
def nth (n : Nat) : Option Nat × Cursor :=
  next { c with front := min (saturate (c.front + n)) c.back }

def nthBack (n : Nat) : Option Nat × Cursor :=
  nextBack { c with back := max (c.back - n) c.front }

def remaining : Except Fault Nat :=
  if c.back < c.front then .error .overflow else .ok (c.back - c.front)

def toList : List Nat := List.range' c.front (c.back - c.front)

end Cursor

end Packed
