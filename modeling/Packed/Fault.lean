import Packed.Alignment
import Packed.Error
import Packed.Kind

/-!
Faults: what stops a call that was made against its contract. A fault is not an answer about the
data, as an `Error` is, but a mistake of the caller, an arithmetic overflow or an access outside a
range. The last two have no wording of their own.
-/

namespace Packed

inductive Fault where
  | misaligned (tag : Alignment)
  | incongruent (offset : Nat) (tag : Alignment)
  | widthMismatch (bits bytes : Nat)
  | nullAccess (bits : Nat)
  | tooWideForBlock
  | tooWideForStorage
  | unreadableStorage
  | unwritableStorage
  | unreadable (kind : Kind) (width : Nat)
  | refused (kind : Kind) (width : Nat) (value : kind.Value) (reason : Error)
  | copyFailed (reason : Error)
  | unknownValue
  | overflow
  | outOfBounds

namespace Fault

def showValue : (k : Kind) → k.Value → String
  | .unsigned, v => s!" of {v}"
  | .signed, v => s!" of {v}"
  | .decimal, v => s!" of {v}"
  | .flag, v => if v then " of true" else " of false"
  | .float _, _ => ""
  | .named _, v =>
      " of raw 0x" ++ String.ofList (Nat.toDigits 16 (BitVec.ofInt 64 v).toNat)

def message? : Fault → Option String
  | misaligned tag => s!"storage is not aligned to {tag.modulus} at offset {tag.residue}"
  | incongruent offset tag =>
      s!"offset {offset} is not congruent to {tag.residue} modulo {tag.modulus}"
  | widthMismatch bits bytes => s!"{bits}-bit access to a buffer of {bytes} bytes"
  | nullAccess bits => s!"{bits}-bit access to a null buffer"
  | tooWideForBlock => "value wider than block"
  | tooWideForStorage => "value wider than storage"
  | unreadableStorage => "read from bit storage that is not ok"
  | unwritableStorage => "write to bit storage that is not ok"
  | unreadable kind width => s!"read of {kind.phrase width} that is not ok"
  | refused kind width value reason =>
      "write" ++ showValue kind value ++ " to " ++ kind.phrase width ++ ": " ++ reason.message
  | copyFailed reason => "copy_from failed: " ++ reason.message
  | unknownValue => "Maybe::value() called on an unknown value"
  | overflow => none
  | outOfBounds => none

end Fault

end Packed
