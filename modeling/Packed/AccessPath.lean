import Packed.Endian
import Packed.Memory

namespace Packed

/-- The ways of moving a word between memory and a register of a host that is little endian. They
move the same word and differ in what they ask of the address. -/
inductive AccessPath where
  | aligned (bytes : Nat)
  | unaligned
  | bytewise
  deriving DecidableEq, Repr

namespace AccessPath

def downgrade (bytes alignment offset : Nat) : AccessPath :=
  if bytes ≤ alignment ∧ offset % bytes = 0 then .aligned bytes
  else if alignment ≤ 1 then .unaligned
  else downgrade bytes (alignment / 2) (offset % (alignment / 2))
termination_by alignment

/-- The path for words of `bits` bits at addresses that are `offset` modulo `alignment`. An
alignment that is no power of two says nothing. -/
def select (alignment offset bits : Nat) : AccessPath :=
  let bytes := bits / 8
  if bits % 8 ≠ 0 ∨ bytes = 0 ∨ 8 < bytes then .bytewise
  else if !isPowerOfTwo bytes then .bytewise
  else if bytes = 1 then .unaligned
  else
    let alignment := if isPowerOfTwo alignment then alignment else 1
    downgrade bytes alignment (offset % alignment)

def Permits (address : Nat) : AccessPath → Prop
  | aligned bytes => address % bytes = 0
  | unaligned => True
  | bytewise => True

def isTyped (path : AccessPath) (n : Nat) : Bool :=
  path != .bytewise && (n == 1 || n == 2 || n == 4 || n == 8)

def loadBytewise (e : Endian) (bytes : List Byte) : Word :=
  let ordered := match e with
    | .little => bytes.reverse
    | .big => bytes
  ordered.foldl (fun w b => w <<< 8 ||| b.setWidth 64) 0

def loadTyped (e : Endian) (bytes : List Byte) : Word :=
  match e with
  | .little => Word.ofDigits bytes
  | .big => (Word.ofDigits bytes).byteSwap bytes.length

def load (path : AccessPath) (e : Endian) (bytes : List Byte) : Word :=
  if path.isTyped bytes.length then loadTyped e bytes else loadBytewise e bytes

/-- Stores the bytes of a word one at a time. A word has eight of them. -/
def storeBytewise (m : Memory) (start n : Nat) (e : Endian) (w : Word) : Memory :=
  (List.range (min n 8)).foldl (fun m i => m.set (start + e.place n i) (w.byte i)) m

def storeTyped (m : Memory) (start n : Nat) (e : Endian) (w : Word) : Memory :=
  match e with
  | .little => m.write start (w.digits n)
  | .big => m.write start ((w.byteSwap n).digits n)

def store (path : AccessPath) (m : Memory) (start n : Nat) (e : Endian) (w : Word) : Memory :=
  if path.isTyped n then storeTyped m start n e w else storeBytewise m start n e w

end AccessPath

end Packed
