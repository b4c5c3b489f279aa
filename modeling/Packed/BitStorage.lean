import Packed.Window

namespace Packed

/-- What a field lies over. -/
inductive BitStorage where
  | block (b : Block)
  | window (w : Window)
  deriving DecidableEq, Repr

namespace BitStorage

def ok : BitStorage → Bool
  | block b => b.ok
  | window w => w.ok

def size : BitStorage → Nat
  | block b => b.bits
  | window w => w.size.toNat

def base : BitStorage → Block
  | block b => b
  | window w => w.block

def offset : BitStorage → Nat
  | block _ => 0
  | window w => w.offset.toNat

def location? (s : BitStorage) : Option (Nat × Nat) := s.base.address?.map fun a => (a, s.offset)

def part (offset size : Nat) : BitStorage → Window
  | block b => .ofBlock b offset size
  | window w => w.part offset size

def load : BitStorage → Memory → Word
  | block b => b.load
  | window w => w.load

def store : BitStorage → Word → Memory → Memory
  | block b => b.store
  | window w => w.store

def read (m : Memory) : BitStorage → Except Fault Word
  | block b => b.read m
  | window w => if w.ok then .ok (w.load m) else .error .unreadableStorage

/-- A window is refused before its value is looked at, a block after. -/
def write (value : Word) (m : Memory) : BitStorage → Except Fault Memory
  | block b => b.write value m
  | window w =>
      if !w.ok then .error .unwritableStorage
      else if value ≠ value.mask w.size.toNat then .error .tooWideForStorage
      else .ok (w.store value m)

end BitStorage

end Packed
