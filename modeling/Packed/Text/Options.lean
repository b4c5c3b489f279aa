import Packed.Fault
import Packed.Word

namespace Packed

inductive Base where
  | binary
  | decimal
  | hexadecimal
  deriving DecidableEq, Repr

namespace Base

def radix : Base → Nat
  | binary => 2
  | decimal => 10
  | hexadecimal => 16

def ofRadix (radix : Nat) : Except Error Base :=
  if radix = 2 then .ok .binary
  else if radix = 10 then .ok .decimal
  else if radix = 16 then .ok .hexadecimal
  else .error (.unsupportedBase radix)

def alternate : Base → Base
  | decimal => hexadecimal
  | _ => decimal

def groupSize : Base → Nat
  | binary => 8
  | decimal => 3
  | hexadecimal => 4

def marker : Base → List Char
  | binary => ['0', 'b']
  | decimal => []
  | hexadecimal => ['0', 'x']

end Base

structure TextOptions where
  multiline : Bool
  indent : Nat
  current : Nat
  comments : Bool
  grouping : Bool
  base : Base
  partialOutput : Bool
  deriving DecidableEq, Repr

namespace TextOptions

def default : TextOptions := ⟨false, 2, 0, false, false, .decimal, false⟩

def multilineText : TextOptions := { default with multiline := true, comments := true }

/-- On one line a comment would hide what follows it. -/
def showsComments (o : TextOptions) : Bool := o.comments && o.multiline

def deeper (o : TextOptions) : Except Fault TextOptions :=
  if sizeLimit ≤ o.current + o.indent then .error .overflow
  else .ok { o with current := o.current + o.indent }

end TextOptions

def spaces (n : Nat) : String := String.ofList (List.replicate n ' ')

end Packed
