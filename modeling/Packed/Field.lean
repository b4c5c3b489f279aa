import Packed.BitStorage
import Packed.Encoding

namespace Packed

/-- A field is complete when its storage is there and wide enough, and `ok` when besides it holds an
allowed value. Accesses fault on a field that is not ok, those named `try` answer with an error, and
the unchecked ones work on whatever bits there are. -/
structure Field (k : Kind) where
  width : Nat
  admits : k.Admits width
  check : k.Value → Bool
  storage : BitStorage

namespace Field

variable {k : Kind} (f : Field k)

def isComplete : Bool := f.storage.ok && f.width ≤ f.storage.size

def uncheckedRead (m : Memory) : k.Value := k.decode f.width (f.storage.load m)

def ok (m : Memory) : Bool :=
  f.isComplete && k.wellFormed f.width (f.storage.load m) && f.check (f.uncheckedRead m)

def read (m : Memory) : Except Fault k.Value :=
  if f.ok m then .ok (f.uncheckedRead m) else .error (.unreadable k f.width)

def couldWrite (v : k.Value) : Bool := k.fits f.width v && f.check v

def uncheckedWrite (v : k.Value) (m : Memory) : Memory := f.storage.store (k.encode f.width v) m

/-- A value that the field cannot hold is refused before the storage is looked at. -/
def tryWrite (v : k.Value) (m : Memory) : Except Error Memory :=
  if !f.couldWrite v then .error .notRepresentable
  else if !f.isComplete then .error .incomplete
  else .ok (f.storage.store (k.pattern f.width v) m)

def write (v : k.Value) (m : Memory) : Except Fault Memory :=
  (f.tryWrite v m).mapError (.refused k f.width v)

def equals (m : Memory) (other : Field k) (n : Memory) : Except Fault Bool := do
  let a ← f.read m
  let b ← other.read n
  return k.same a b

def uncheckedEquals (m : Memory) (other : Field k) (n : Memory) : Bool :=
  k.same (f.uncheckedRead m) (other.uncheckedRead n)

def tryCopy (source : Field k) (m : Memory) : Except Error Memory :=
  if source.ok m then f.tryWrite (source.uncheckedRead m) m else .error .incomplete

def copy (source : Field k) (m : Memory) : Except Fault Memory :=
  (f.tryCopy source m).mapError .copyFailed

def uncheckedCopy (source : Field k) (m : Memory) : Memory :=
  f.storage.store (k.recode f.width source.width (source.storage.load m)) m

end Field

end Packed
