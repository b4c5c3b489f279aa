import Packed.Frame.Status
import Packed.Frame.WordList

namespace Packed

/-- A status word and, behind it, a counted list. -/
structure Frame where
  buffer : Buffer
  deriving DecidableEq, Repr

namespace Frame

variable (f : Frame)

def status : Status := .ofBuffer (f.buffer.part 0 Status.size)

def list : WordList := ⟨f.buffer.part Status.size (sizeLimit - 1)⟩

def size (m : Memory) : Option Int :=
  Known.arithmetic .sum sizeType sizeType (some Status.size) (f.list.size m)

def isComplete (m : Memory) : Bool := f.buffer.holds (f.size m)

def ok (m : Memory) : Bool := f.isComplete m && f.status.ok m && f.list.ok m

def members : List Member :=
  [⟨"status", some true, f.status.view⟩, ⟨"list", some true, f.list.view⟩]

def view : View := .ofMembers f.isComplete f.ok fun _ => f.members

/-- Compares the status and, if that is equal, the words. -/
def equals (m : Memory) (g : Frame) (n : Memory) : Except Fault Bool := do
  if ← f.status.equals m g.status n then (f.list.words m).equals m (g.list.words n) n
  else return false

def uncheckedEquals (m : Memory) (g : Frame) (n : Memory) : Bool :=
  f.status.uncheckedEquals m g.status n &&
    (f.list.words m).uncheckedEquals m (g.list.words n) n

end Frame

end Packed
