import Packed.Block

namespace Packed

/-- A range of bits of a block. Offset and size are kept in eight bits each, and a window that was
asked for beyond the bounds of what it was cut from is never `ok`, whatever these say. -/
structure Window where
  block : Block
  offset : Byte
  size : Byte
  valid : Bool
  deriving DecidableEq, Repr

namespace Window

/-- Bits `offset` to `offset + size` of a block. -/
def ofBlock (block : Block) (offset size : Nat) : Window :=
  { block
    offset := BitVec.ofNat 8 offset
    size := BitVec.ofNat 8 size
    valid := offset ≤ 255 && size ≤ 255 && offset + size ≤ block.bits }

variable (w : Window)

def part (offset size : Nat) : Window :=
  let cut := ofBlock w.block (saturate (w.offset.toNat + offset)) size
  { cut with valid := cut.valid && w.valid && saturate (offset + size) ≤ w.size.toNat }

def ok : Bool := w.valid && w.block.ok

def cover : Word := Word.lowMask w.size.toNat <<< w.offset.toNat

def load (m : Memory) : Word := Word.mask (w.block.load m >>> w.offset.toNat) w.size.toNat

def store (value : Word) (m : Memory) : Memory :=
  let kept := w.block.load m &&& ~~~w.cover
  w.block.store (kept ||| (value <<< w.offset.toNat &&& w.cover)) m

end Window

end Packed
