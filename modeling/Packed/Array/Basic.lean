import Packed.Structure

namespace Packed

class Tiled (S : Type) where
  unitBits : Nat
  ok : S → Bool
  size : S → Nat
  location? : S → Option (Nat × Nat)
  part : S → (offset size : Nat) → S

instance : Tiled Buffer where
  unitBits := 8
  ok := Buffer.ok
  size := Buffer.size
  location? b := b.region.map fun r => (r.start, 0)
  part := Buffer.part

instance : Tiled BitStorage where
  unitBits := 1
  ok := BitStorage.ok
  size := BitStorage.size
  location? := BitStorage.location?
  part s offset size := .window (s.part offset size)

/-- What fields of an array have in common, and how one lies over its part of the storage. -/
structure ScalarType (S : Type) where
  kind : Kind
  width : Nat
  admits : kind.Admits width
  check : kind.Value → Bool
  bits : S → BitStorage

def ScalarType.field {S : Type} (t : ScalarType S) (s : S) : Field t.kind :=
  ⟨t.width, t.admits, t.check, t.bits s⟩

inductive ElementType (S : Type) where
  | scalar (type : ScalarType S)
  | array (element : ElementType S) (size : Nat) (size_pos : 0 < size)

inductive Datum where
  | scalar (kind : Kind) (value : kind.Value)
  | list (items : List Datum)

def Field.pair? {k l : Kind} (f : Field k) (g : Field l) : Option (Field k × Field k) :=
  if h : l = k then some (f, h ▸ g) else none

variable {S T : Type} [Tiled S] [Tiled T]

def tile (s : S) (size index : Nat) : S := Tiled.part s (saturate (index * size)) size

def tileCount (s : S) (size : Nat) : Nat := Tiled.size s / size

def tiles (s : S) (size : Nat) : List S := (List.range (tileCount s size)).map (tile s size)

/-- Whether a copy has to run from back to front: the target starts after the source, so that going
forward it would overwrite what it has yet to read. -/
def runsBackward (target : S) (source : T) : Bool :=
  match Tiled.location? target, Tiled.location? source with
  | some (a, i), some (b, j) => b < a || (b == a && j < i)
  | _, _ => false

def copyOrder (target : S) (source : T) (count : Nat) : List Nat :=
  if runsBackward target source then (List.range count).reverse else List.range count

namespace ElementType

def isAggregate : ElementType S → Bool
  | scalar _ => false
  | array _ _ _ => true

def isComplete : ElementType S → S → Bool
  | scalar t, s => (t.field s).isComplete
  | array _ n _, s => Tiled.ok s && Tiled.size s % n == 0

def ok : ElementType S → S → Memory → Bool
  | scalar t, s, m => (t.field s).ok m
  | array e n pos, s, m =>
      (array e n pos).isComplete s && (tiles s n).all fun s => e.ok s m

def read : ElementType S → S → Memory → Except Fault Datum
  | scalar t, s, m => ((t.field s).read m).map (.scalar t.kind)
  | array e n _, s, m => ((tiles s n).mapM fun s => e.read s m).map .list

def uncheckedRead : ElementType S → S → Memory → Datum
  | scalar t, s, m => .scalar t.kind ((t.field s).uncheckedRead m)
  | array e n _, s, m => .list ((tiles s n).map fun s => e.uncheckedRead s m)

def view : ElementType S → S → View
  | scalar t, s => (t.field s).view
  | array e n pos, s =>
      { View.sequence ((tiles s n).map e.view) with
        isComplete := fun _ => (array e n pos).isComplete s
        ok := (array e n pos).ok s }

def equals (m n : Memory) : ElementType S → S → ElementType T → T → Except Fault Bool
  | scalar t, s, scalar u, s' =>
      match (t.field s).pair? (u.field s') with
      | some (f, g) => f.equals m g n
      | none => .ok false
  | array e size _, s, array e' size' _, s' =>
      if tileCount s size = tileCount s' size' then
        ((tiles s size).zip (tiles s' size')).foldlM
          (fun equal (s, s') => if equal then equals m n e s e' s' else .ok false) true
      else .ok false
  | _, _, _, _ => .ok false

def uncheckedEquals (m n : Memory) : ElementType S → S → ElementType T → T → Bool
  | scalar t, s, scalar u, s' =>
      match (t.field s).pair? (u.field s') with
      | some (f, g) => f.uncheckedEquals m g n
      | none => false
  | array e size _, s, array e' size' _, s' =>
      tileCount s size == tileCount s' size' &&
        ((tiles s size).zip (tiles s' size')).all fun (s, s') => uncheckedEquals m n e s e' s'
  | _, _, _, _ => false

def tryCopy : ElementType S → S → ElementType T → T → Action Error Unit
  | scalar t, s, scalar u, s' => fun m =>
      match (t.field s).pair? (u.field s') with
      | some (f, g) =>
          match f.tryCopy g m with
          | .ok m => .ok () m
          | .error e => .error e m
      | none => .error .notRepresentable m
  | array e size _, s, array e' size' _, s' =>
      if tileCount s size ≠ tileCount s' size' then
        throw (.sizeMismatch (tileCount s' size') (tileCount s size))
      else
        (copyOrder s s' (tileCount s size)).forM fun i =>
          tryCopy e (tile s size i) e' (tile s' size' i)
  | _, _, _, _ => throw .notRepresentable

theorem tryCopy_scalar_eq (t : ScalarType S) (s : S) (u : ScalarType T) (s' : T) (m : Memory) :
    tryCopy (scalar t) s (scalar u) s' m =
      match (t.field s).pair? (u.field s') with
      | some (f, g) =>
          match f.tryCopy g m with
          | .ok m => .ok () m
          | .error e => .error e m
      | none => .error .notRepresentable m := rfl

theorem tryCopy_array_eq (e : ElementType S) {size : Nat} (pos : 0 < size) (s : S)
    (e' : ElementType T) {size' : Nat} (pos' : 0 < size') (s' : T) :
    tryCopy (array e size pos) s (array e' size' pos') s' =
      if tileCount s size ≠ tileCount s' size' then
        throw (.sizeMismatch (tileCount s' size') (tileCount s size))
      else
        (copyOrder s s' (tileCount s size)).forM fun i =>
          tryCopy e (tile s size i) e' (tile s' size' i) := rfl

def uncheckedCopy : ElementType S → S → ElementType T → T → Memory → Memory
  | scalar t, s, scalar u, s', m =>
      match (t.field s).pair? (u.field s') with
      | some (f, g) => f.uncheckedCopy g m
      | none => m
  | array e size _, s, array e' size' _, s', m =>
      (copyOrder s s' (min (tileCount s size) (tileCount s' size'))).foldl
        (fun m i => uncheckedCopy e (tile s size i) e' (tile s' size' i) m) m
  | _, _, _, _, m => m

end ElementType

/-- An array has nothing but its storage. An element is laid over its part when it is asked for, also
past the end, where little or nothing is left for it. -/
structure ArrayView (S : Type) where
  element : ElementType S
  stride : Nat
  stride_pos : 0 < stride
  storage : S

namespace ArrayView

variable (a : ArrayView S)

def type : ElementType S := .array a.element a.stride a.stride_pos

def size : Nat := Tiled.size a.storage

def count : Nat := tileCount a.storage a.stride

def slot (index : Nat) : S := tile a.storage a.stride index

def slot? (index : Nat) : Option S := if index < a.count then some (a.slot index) else none

def isComplete : Bool := a.type.isComplete a.storage

def ok (m : Memory) : Bool := a.type.ok a.storage m

def read (m : Memory) : Except Fault Datum := a.type.read a.storage m

def uncheckedRead (m : Memory) : Datum := a.type.uncheckedRead a.storage m

def view : View := a.type.view a.storage

def equals (m : Memory) (b : ArrayView T) (n : Memory) : Except Fault Bool :=
  ElementType.equals m n a.type a.storage b.type b.storage

def uncheckedEquals (m : Memory) (b : ArrayView T) (n : Memory) : Bool :=
  ElementType.uncheckedEquals m n a.type a.storage b.type b.storage

def tryCopy (b : ArrayView T) : Action Error Unit := a.type.tryCopy a.storage b.type b.storage

def copy (b : ArrayView T) : Action Fault Unit := fun m =>
  match a.tryCopy b m with
  | .ok _ m => .ok () m
  | .error e m => .error (.copyFailed e) m

def uncheckedCopy (b : ArrayView T) (m : Memory) : Memory :=
  a.type.uncheckedCopy a.storage b.type b.storage m

/-- Copies the bytes in one move. Only the lengths have to agree. -/
def tryCopyBytes (a b : ArrayView Buffer) (m : Memory) : Except Error Memory :=
  if a.size ≠ b.size then .error (.sizeMismatch b.size a.size)
  else a.storage.tryCopy b.storage b.size m

end ArrayView

end Packed
