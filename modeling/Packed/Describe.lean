import Packed.Array.Cursor
import Packed.Array.Basic

namespace Packed

def describeStruct (name : String) (fields : List (String × String)) : String :=
  name ++ " \x7b " ++ ", ".intercalate (fields.map fun (key, value) => key ++ ": " ++ value) ++
    " \x7d"

namespace Kind

def viewName : Kind → String
  | unsigned => "UIntView"
  | signed => "IntView"
  | decimal => "BcdView"
  | flag => "FlagView"
  | float _ => "FloatView"
  | named _ => "EnumView"

end Kind

def Field.describe {k : Kind} (f : Field k) (storage : String) : String :=
  describeStruct k.viewName <|
    (if k = .flag then [] else [("bits", toString f.width)]) ++ [("storage", storage)]

def Buffer.describe (b : Buffer) (m : Memory) : String :=
  let bytes := match b.region with
    | none => "None"
    | some r =>
        "Some([" ++ ", ".intercalate ((m.read r).map fun byte =>
          describeStruct "Cell" [("value", toString byte.toNat)]) ++ "])"
  describeStruct "ContiguousBuffer" [("bytes", bytes)]

def ByteOrder.describe : ByteOrder → String
  | little => "LittleEndian"
  | big => "BigEndian"
  | single => "NullByteOrder"

def Block.describe (b : Block) (m : Memory) : String :=
  describeStruct "BitBlock" [("buffer", b.buffer.describe m),
    ("_order", "PhantomData<bitview::byte_order::" ++ b.format.order.describe ++ ">")]

def Window.describe (w : Window) (block : String) : String :=
  describeStruct "OffsetBitBlock" [("block", block), ("offset", toString w.offset.toNat),
    ("size", toString w.size.toNat), ("valid", toString w.valid)]

def BitStorage.describe (base : String) (m : Memory) : BitStorage → String
  | block b => b.describe m
  | window w => w.describe base

def ArrayView.describe {S : Type} (a : ArrayView S) (storage : String) : String :=
  describeStruct "GenericArrayView" [("element_size", toString a.stride), ("storage", storage)]

def Cursor.describe (c : Cursor) : String :=
  describeStruct "ArrayIter" [("front", toString c.front), ("back", toString c.back)]

end Packed
