import Packed.Array.Basic

namespace Packed

/-- Two bytes, big endian, that hold a flag, a mode, a level and a count. -/
structure Status where
  block : Block
  deriving DecidableEq, Repr

namespace Status

def modes : EnumType :=
  .declare "Mode" ⟨false, 8⟩ .first
    [("Idle", none), ("Listen", none), ("Transmit", some 4), ("Sleep", some 7)]

theorem admits_mode : (Kind.named modes).Admits 3 := ⟨by decide, by decide⟩

theorem admits_level : Kind.signed.Admits 4 := by decide

def size : Nat := 2

def ofBuffer (b : Buffer) : Status := ⟨⟨.bigPair, b.part 0 size⟩⟩

variable (s : Status)

def bits (offset size : Nat) : BitStorage := .window (.ofBlock s.block offset size)

def ready : Field .flag := ⟨1, Kind.admits_flag, fun _ => true, s.bits 0 1⟩

def mode : Field (.named modes) := ⟨3, admits_mode, fun _ => true, s.bits 1 3⟩

def level : Field .signed := ⟨4, admits_level, fun _ => true, s.bits 4 4⟩

def count : Field .unsigned := ⟨8, Kind.unsigned_admits_byte, fun _ => true, s.bits 8 8⟩

def isComplete : Bool := s.block.ok

def ok (m : Memory) : Bool :=
  s.isComplete && s.ready.ok m && s.mode.ok m && s.level.ok m && s.count.ok m

def members : List Member :=
  [⟨"ready", some true, s.ready.view⟩, ⟨"mode", some true, s.mode.view⟩,
    ⟨"level", some true, s.level.view⟩, ⟨"count", some true, s.count.view⟩]

def view : View := .ofMembers (fun _ => s.isComplete) s.ok fun _ => s.members

def equals (m : Memory) (t : Status) (n : Memory) : Except Fault Bool := do
  if !(← s.ready.equals m t.ready n) then return false
  if !(← s.mode.equals m t.mode n) then return false
  if !(← s.level.equals m t.level n) then return false
  s.count.equals m t.count n

def uncheckedEquals (m : Memory) (t : Status) (n : Memory) : Bool :=
  s.ready.uncheckedEquals m t.ready n && s.mode.uncheckedEquals m t.mode n &&
    s.level.uncheckedEquals m t.level n && s.count.uncheckedEquals m t.count n

end Status

end Packed
