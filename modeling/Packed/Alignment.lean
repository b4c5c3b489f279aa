namespace Packed

/-- What is known of an address: its residue modulo some number. -/
structure Alignment where
  modulus : Nat
  residue : Nat
  deriving DecidableEq, Repr

namespace Alignment

def any : Alignment := ⟨1, 0⟩

def holds (t : Alignment) (address : Nat) : Bool :=
  t.modulus ≤ 1 || address % t.modulus == t.residue % t.modulus

end Alignment

end Packed
