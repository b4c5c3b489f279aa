namespace Packed

inductive Endian where
  | little
  | big
  deriving DecidableEq, Repr

def Endian.place (n i : Nat) : Endian → Nat
  | little => i
  | big => n - 1 - i

/-- The order that a block declares. A block of one byte needs none; such a byte is loaded as a
little endian word and stored as a big endian one, which for one byte is the same. -/
inductive ByteOrder where
  | little
  | big
  | single
  deriving DecidableEq, Repr

namespace ByteOrder

def endian? : ByteOrder → Option Endian
  | little => some .little
  | big => some .big
  | single => none

def loads : ByteOrder → Endian
  | little => .little
  | big => .big
  | single => .little

def stores : ByteOrder → Endian
  | little => .little
  | big => .big
  | single => .big

end ByteOrder

end Packed
