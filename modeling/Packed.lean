import Packed.ByteStore
import Packed.Describe
import Packed.Formula
import Packed.Frame.Basic
import Packed.Frame.Conditional
import Packed.Proofs.AccessPath
import Packed.Proofs.Block
import Packed.Proofs.Window
import Packed.Proofs.Bcd
import Packed.Proofs.Encoding
import Packed.Proofs.Field
import Packed.Proofs.Text.Numeral
import Packed.Proofs.Text.ScalarText
import Packed.Proofs.Structure
import Packed.Proofs.Sequence
import Packed.Proofs.Tiled
import Packed.Proofs.Array
import Packed.Proofs.Known
import Packed.Proofs.Frame.Partial
import Packed.Proofs.Frame.Transfer
import Packed.Proofs.UncheckedAccess
import Packed.Proofs.Footprint
import Packed.Proofs.Alignment
import Packed.Proofs.Buffer
import Packed.Proofs.FieldWrite
import Packed.Proofs.Narrowing
import Packed.Proofs.EnumField
import Packed.Proofs.Transfer
import Packed.Proofs.ArrayCopy
import Packed.Proofs.BitCopy
import Packed.Proofs.ByteCopy
import Packed.Proofs.Agreement
import Packed.Proofs.Reading
import Packed.Proofs.Formula
import Packed.Proofs.Mirror
import Packed.Proofs.Frame.OwnBytes
import Packed.Proofs.Float.Nearest
import Packed.Proofs.Float.Rounding
import Packed.Proofs.Text.Positional
import Packed.Proofs.Float.Hexadecimal
import Packed.Proofs.Float.Decimal
import Packed.Proofs.Float.Grammar
import Packed.Proofs.Float.Digits
import Packed.Proofs.Float.RoundTrip
import Packed.Proofs.Frame.Equality
import Packed.Proofs.Text.Rendering
import Packed.Proofs.Text.EnumUpdate
import Packed.Proofs.Text.FieldTransfer
import Packed.Proofs.Text.Utf8
import Packed.Proofs.Text.ByteReader
import Packed.Proofs.Text.Tokenizing
import Packed.Proofs.Ledger
import Packed.Proofs.Text.Entries
import Packed.Proofs.Text.ArrayUpdate
import Packed.Proofs.Frame.StatusUpdate
import Packed.Proofs.NestedWindow
import Packed.Proofs.GuardedAccess
import Packed.Proofs.PaddedAccess
import Packed.Proofs.SubBuffer
import Packed.Proofs.Cursor
import Packed.Proofs.PastEnd
import Packed.Proofs.Tiling
import Packed.Proofs.ByteMove
import Packed.Proofs.Modular
import Packed.Proofs.BcdField
import Packed.Proofs.FieldCopy
import Packed.Proofs.PartialCopy
import Packed.Proofs.Greatest
import Packed.Proofs.PathChoice
import Packed.Proofs.BufferCopy
import Packed.Proofs.EnumNames
import Packed.Proofs.TwosComplement
import Packed.Proofs.BcdCheck
