import Packed.Field
import Packed.Text.ScalarText

namespace Packed

structure Session where
  input : TextStream
  memory : Memory

abbrev Update (α : Type) := EStateM Error Session α

namespace Update

def ofParser {α : Type} (p : Parser α) : Update α := fun s =>
  match p s.input with
  | .ok a input => .ok a { s with input }
  | .error e input => .error e { s with input }

instance : MonadLift (EStateM Error TextStream) (EStateM Error Session) := ⟨ofParser⟩

def store (change : Memory → Except Error Memory) : Update Unit := fun s =>
  match change s.memory with
  | .ok memory => .ok () { s with memory }
  | .error e => .error e s

end Update

/-- What fields, arrays and structures have in common. Each value is stored as soon as it is read
from the text, so that an error leaves those before it in place. -/
structure View where
  isAggregate : Bool
  isComplete : Memory → Bool
  ok : Memory → Bool
  text : TextOptions → Memory → Except Fault String
  update : Update Unit

namespace View

def readText (v : View) (text : String) : Action Error Unit := fun m =>
  match v.update ⟨.ofString text, m⟩ with
  | .ok _ s => .ok () s.memory
  | .error e s => .error e s.memory

/-- Whether partial output leaves the view out: it is a scalar that cannot be read. -/
def isHidden (v : View) (aggregate : Bool) (o : TextOptions) (m : Memory) : Bool :=
  o.partialOutput && !aggregate && !v.ok m

end View

namespace Field

variable {k : Kind} (f : Field k)

def text (o : TextOptions) (m : Memory) : Except Fault String := (f.read m).map (k.render o)

def update : Update Unit := do
  let v ← (k.parser : Parser k.Value)
  Update.store (f.tryWrite v)

def view : View where
  isAggregate := false
  isComplete _ := f.isComplete
  ok := f.ok
  text := f.text
  update := f.update

end Field

end Packed
