import Packed.Word

/-!
Memory is one list of bytes; an address is an index into it. The list begins at an address that
every alignment in use divides, so indices stand for addresses. A `Region` is a range of addresses,
and an `Action` changes memory and may stop on the way, with what it changed before kept.
-/

namespace Packed

abbrev Memory := List Byte

abbrev Action (ε α : Type) := EStateM ε Memory α

structure Region where
  start : Nat
  size : Nat
  deriving DecidableEq, Repr

def Region.part (r : Region) (offset size : Nat) : Region :=
  let skipped := min offset r.size
  ⟨r.start + skipped, min size (r.size - skipped)⟩

namespace Memory

def get (m : Memory) (a : Nat) : Byte := m.getD a 0

def read (m : Memory) (r : Region) : List Byte := (m.drop r.start).take r.size

def write (m : Memory) (a : Nat) : List Byte → Memory
  | [] => m
  | b :: bs => write (m.set a b) (a + 1) bs

def move (m : Memory) (target source size : Nat) : Memory :=
  m.write target (m.read ⟨source, size⟩)

end Memory

end Packed
