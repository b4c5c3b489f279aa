import Packed.Fault
import Packed.Word

namespace Packed.Word

def signExtend (raw : Word) (n : Nat) : Int :=
  if n = 0 then 0
  else if 64 ≤ n then raw.toInt
  else ((raw <<< (64 - n)).sshiftRight (64 - n)).toInt

/-- The same without an arithmetic shift. The sign of a field wider than a word has no place in
the word, and asking for it overflows. -/
def signExtendByXor (raw : Word) (n : Nat) : Except Fault Int :=
  if n = 0 then .ok 0
  else if n = 1 then .ok (if raw &&& 1 = 1 then -1 else 0)
  else if 64 < n then .error .overflow
  else
    let sign : Word := 1 <<< (n - 1)
    .ok ((raw.mask n ^^^ sign) - sign).toInt

end Packed.Word
