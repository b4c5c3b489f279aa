import Packed.AccessPath
import Packed.Fault

namespace Packed

/-- A region of memory, or none. Whole words are read and written over a region of exactly their
size; `load` and `store` also work over any other, as if it went on in zeros that stay. -/
structure Buffer where
  region : Option Region
  tag : Alignment
  deriving DecidableEq, Repr

namespace Buffer

def null (tag : Alignment) : Buffer := ⟨none, tag⟩

def tagged (tag : Alignment) (r : Region) : Except Fault Buffer :=
  if tag.holds r.start then .ok ⟨some r, tag⟩ else .error (.misaligned tag)

def ofRegion (r : Region) : Buffer := ⟨some r, .any⟩

variable (b : Buffer)

def ok : Bool := b.region.isSome

def size : Nat := b.region.elim 0 (·.size)

/-- The `size` bytes from `offset` on, as far as the buffer holds them. -/
def part (offset size : Nat) : Buffer := ⟨b.region.map (·.part offset size), .any⟩

def partTagged (tag : Alignment) (offset size : Nat) : Except Fault Buffer :=
  if tag.modulus ≤ 1 then .ok { b.part offset size with tag }
  else if sizeLimit ≤ b.tag.residue + offset then .error .overflow
  else if (b.tag.residue + offset) % tag.modulus = tag.residue then
    .ok { b.part offset size with tag }
  else .error (.incongruent offset tag)

def retag (tag : Alignment) : Buffer := { b with tag }

def readOnly : Buffer := b

def path (bits : Nat) : AccessPath := .select b.tag.modulus b.tag.residue bits

def bytes (m : Memory) : List Byte := b.region.elim [] m.read

def exact (bits : Nat) : Except Fault Region :=
  match b.region with
  | none => .error (.nullAccess bits)
  | some r => if r.size * 8 = bits then .ok r else .error (.widthMismatch bits r.size)

theorem exact_eq_ok {b : Buffer} {bits : Nat} {r : Region} (h : b.exact bits = .ok r) :
    b.region = some r ∧ r.size * 8 = bits := by
  rw [exact] at h
  split at h
  · cases h
  · rename_i q hq
    split at h
    · rename_i hs
      cases h
      exact ⟨hq, hs⟩
    · cases h

/-- Bytes that a word of `bits` bits spans when the buffer need not match it. -/
def span (bits : Nat) : Nat := min (bits / 8) 8

def loadPadded (e : Endian) (bits : Nat) (m : Memory) : Word :=
  let present := (b.bytes m).take (span bits)
  AccessPath.loadBytewise e (present ++ List.replicate (span bits - present.length) 0)

def storePadded (e : Endian) (bits : Nat) (w : Word) (m : Memory) : Memory :=
  match b.region with
  | none => m
  | some r =>
      (List.range (span bits)).foldl (fun m i =>
        let index := e.place (span bits) i
        if index < r.size then m.set (r.start + index) (w.byte i) else m) m

def load (e : Endian) (bits : Nat) (m : Memory) : Word :=
  match b.exact bits with
  | .ok r => (b.path bits).load e (m.read r)
  | .error _ => b.loadPadded e bits m

def put (e : Endian) (bits : Nat) (w : Word) (m : Memory) : Memory :=
  match b.exact bits with
  | .ok r => (b.path bits).store m r.start r.size e w
  | .error _ => b.storePadded e bits w m

/-- A store over more than eight bytes runs out of the word after the eighth. -/
def store (e : Endian) (bits : Nat) (w : Word) : Action Fault Unit := fun m =>
  if b.size * 8 = bits ∧ 64 < bits then .error .overflow (b.put e bits w m)
  else .ok () (b.put e bits w m)

def read (e : Endian) (bits : Nat) (m : Memory) : Except Fault Word :=
  (b.exact bits).map fun r => (b.path bits).load e (m.read r)

def write (e : Endian) (bits : Nat) (w : Word) : Action Fault Unit := fun m =>
  match b.exact bits with
  | .ok _ => b.store e bits w m
  | .error fault => .error fault m

def tryCopy (source : Buffer) (size : Nat) (m : Memory) : Except Error Memory :=
  match b.region, source.region with
  | some target, some origin =>
      let available := min target.size origin.size
      if available < size then .error (.sizeMismatch size available)
      else .ok (m.move target.start origin.start size)
  | _, _ => .error .incomplete

def copy (source : Buffer) (size : Nat) (m : Memory) : Except Fault Memory :=
  (b.tryCopy source size m).mapError .copyFailed

def sameBytes (other : Buffer) : Bool := b.region == other.region

end Buffer

end Packed
