import Packed.Fault
import Packed.Memory

namespace Packed

/-- Plain bytes are copied out as one range, which must lie in the store even when it is empty.
Shared cells are copied out one by one, so that an empty copy asks for no range. -/
inductive StoreKind where
  | bytes
  | cells
  deriving DecidableEq, Repr

/-- A range of memory whose bytes and slices are reached through checks of their bounds. -/
structure ByteStore where
  kind : StoreKind
  region : Region
  deriving DecidableEq, Repr

namespace ByteStore

variable (s : ByteStore)

def size : Nat := s.region.size

def isEmpty : Bool := s.size == 0

def readOnly : ByteStore := s

def load (index : Nat) (m : Memory) : Except Fault Byte :=
  if index < s.size then .ok (m.get (s.region.start + index)) else .error .outOfBounds

def slice (start size : Nat) : Except Fault ByteStore :=
  if sizeLimit ≤ start + size then .error .overflow
  else if s.size < start + size then .error .outOfBounds
  else .ok { s with region := ⟨s.region.start + start, size⟩ }

def copyOut (start size : Nat) (m : Memory) : Except Fault (List Byte) :=
  match s.kind with
  | .bytes => (s.slice start size).map fun part => m.read part.region
  | .cells => (List.range size).mapM fun i => s.load (start + i) m

def store (index : Nat) (b : Byte) : Action Fault Unit := fun m =>
  if index < s.size then .ok () (m.set (s.region.start + index) b) else .error .outOfBounds m

def copyIn (start : Nat) : List Byte → Action Fault Unit
  | [] => pure ()
  | b :: bs => do
      s.store start b
      copyIn (start + 1) bs

end ByteStore

end Packed
