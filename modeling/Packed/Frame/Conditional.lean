import Packed.Frame.WordList

namespace Packed

/-- A byte of condition and, only where it is zero, a byte of payload. -/
structure Conditional where
  buffer : Buffer
  deriving DecidableEq, Repr

namespace Conditional

variable (c : Conditional)

def condition : Field .unsigned := byteField c.buffer 0

def hasPayload (m : Memory) : Option Bool :=
  Known.compare .equal sizeType (c.condition.known? m) (some 0)

def payload (m : Memory) : Field .unsigned :=
  if (c.hasPayload m).getD false then byteField c.buffer 1 else byteField (.null .any) 0

def size (m : Memory) : Option Int :=
  Known.choice sizeType (c.hasPayload m) (some 2) (some 1)

def isComplete (m : Memory) : Bool := c.buffer.holds (c.size m)

def ok (m : Memory) : Bool :=
  c.isComplete m && c.condition.ok m && (!(c.hasPayload m).getD false || (c.payload m).ok m)

def members (m : Memory) : List Member :=
  [⟨"condition", some true, c.condition.view⟩,
    ⟨"payload", c.hasPayload m, (c.payload m).view⟩]

def view : View := .ofMembers c.isComplete c.ok c.members

end Conditional

end Packed
