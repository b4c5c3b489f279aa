import Packed.Buffer

namespace Packed

/-- The shape of a block. Its width is a whole number of bytes and fits in a word, and only a block
of one byte goes without an order. -/
structure BlockFormat where
  order : ByteOrder
  bits : Nat
  bits_pos : 0 < bits := by decide
  bits_le : bits ≤ 64 := by decide
  bits_mod : bits % 8 = 0 := by decide
  bits_single : order = .single → bits = 8 := by decide
  deriving DecidableEq, Repr

namespace BlockFormat

def byte : BlockFormat := { order := .little, bits := 8 }

def bigPair : BlockFormat := { order := .big, bits := 16 }

def ofBits? (order : ByteOrder) (bits : Nat) : Option BlockFormat :=
  if h : 0 < bits ∧ bits ≤ 64 ∧ bits % 8 = 0 ∧ (order = .single → bits = 8) then
    some ⟨order, bits, h.1, h.2.1, h.2.2.1, h.2.2.2⟩
  else none

end BlockFormat

/-- Whole bytes that are read and written as one word. -/
structure Block where
  format : BlockFormat
  buffer : Buffer
  deriving DecidableEq, Repr

namespace Block

variable (b : Block)

def bits : Nat := b.format.bits

def ok : Bool := b.buffer.ok && b.buffer.size * 8 == b.bits

def address? : Option Nat := b.buffer.region.map (·.start)

def load (m : Memory) : Word := b.buffer.load b.format.order.loads b.bits m

def store (w : Word) (m : Memory) : Memory := b.buffer.put b.format.order.stores b.bits w m

def read (m : Memory) : Except Fault Word := b.buffer.read b.format.order.loads b.bits m

/-- A value that is too wide is refused before the buffer is looked at. -/
def write (w : Word) (m : Memory) : Except Fault Memory :=
  if w ≠ w.mask b.bits then .error .tooWideForBlock
  else (b.buffer.exact b.bits).map fun _ => b.store w m

end Block

end Packed
