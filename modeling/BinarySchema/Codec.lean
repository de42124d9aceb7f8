import BinarySchema.Buffer
import BinarySchema.Error

/-!
# Scalar codecs

The ten encodings of a scalar in a buffer and their two byte orders.  Reading takes the bytes at a
position apart; writing refuses numbers that the encoding cannot hold and leaves the buffer alone
then.
-/

namespace BinarySchema

inductive IntegerWidth where
  | one
  | two
  | four
  | eight
  deriving DecidableEq, Repr

def IntegerWidth.bytes : IntegerWidth → Nat
  | .one => 1
  | .two => 2
  | .four => 4
  | .eight => 8

def IntegerWidth.bits (width : IntegerWidth) : Nat :=
  8 * width.bytes

inductive Encoding where
  | signed (width : IntegerWidth)
  | unsigned (width : IntegerWidth)
  | single
  | double
  deriving DecidableEq, Repr

namespace Encoding

def width : Encoding → Nat
  | .signed width => width.bytes
  | .unsigned width => width.bytes
  | .single => 4
  | .double => 8

def integerWidth? (size : UInt64) : Option IntegerWidth :=
  if size = 1 then some .one
  else if size = 2 then some .two
  else if size = 4 then some .four
  else if size = 8 then some .eight
  else none

/-- The encoding of a representation in so many bytes, if there is one. -/
def select? (representation : Representation) (size : UInt64) : Option Encoding :=
  match representation with
  | .integer => (integerWidth? size).map .signed
  | .unsigned => (integerWidth? size).map .unsigned
  | .floating => if size = 4 then some .single else if size = 8 then some .double else none

def label : Encoding → String
  | .signed width => "Int" ++ toString width.bits
  | .unsigned width => "UInt" ++ toString width.bits
  | .single => "Float"
  | .double => "Double"

/-- The numbers that fit a word of so many bits in two's complement. -/
def fitsSigned (bits : Nat) (value : Int) : Bool :=
  -(Nat.pow 2 (bits - 1) : Int) ≤ value && value < (Nat.pow 2 (bits - 1) : Int)

def fitsUnsigned (bits : Nat) (value : Int) : Bool :=
  0 ≤ value && value < (Nat.pow 2 bits : Int)

/-- Two's complement reading of a word of so many bits. -/
def signedOfWord (bits word : Nat) : Int :=
  if word < Nat.pow 2 (bits - 1) then word else word - (Nat.pow 2 bits : Int)

def decode (encoding : Encoding) (word : Nat) : Scalar :=
  match encoding with
  | .signed width => .int (Int64.ofInt (signedOfWord width.bits word))
  | .unsigned _ => .uint (UInt64.ofNat word)
  | .single => .float (.ofSingle (UInt32.ofNat word))
  | .double => .float ⟨UInt64.ofNat word⟩

/-- The word that stands for a scalar; floats are rounded, whole numbers have to fit. -/
def encode? (encoding : Encoding) (scalar : Scalar) : Option Nat :=
  match encoding with
  | .signed width =>
      match scalar.integer? with
      | some value =>
          if fitsSigned width.bits value then some (value % (Nat.pow 2 width.bits : Int)).toNat else none
      | none => none
  | .unsigned width =>
      match scalar.integer? with
      | some value => if fitsUnsigned width.bits value then some value.toNat else none
      | none => none
  | .single => some scalar.toBinary64.toSingle.toNat
  | .double => some scalar.toBinary64.bits.toNat

end Encoding

/-- Bytes in memory order from bytes with the least significant first, and the other way round. -/
def ByteOrder.arrange (order : ByteOrder) (bytes : List UInt8) : List UInt8 :=
  match order with
  | .little => bytes
  | .big => bytes.reverse

structure ScalarCodec where
  encoding : Encoding
  order : ByteOrder
  deriving DecidableEq, Repr

namespace ScalarCodec

def select? (representation : Representation) (size : UInt64) (order : ByteOrder) :
    Option ScalarCodec :=
  (Encoding.select? representation size).map fun encoding => ⟨encoding, order⟩

def width (codec : ScalarCodec) : Nat :=
  codec.encoding.width

/-- The byte order is part of the name unless there is only one byte. -/
def accessorName (codec : ScalarCodec) : String :=
  if codec.width = 1 then codec.encoding.label
  else match codec.order with
    | .little => codec.encoding.label ++ "LE"
    | .big => codec.encoding.label ++ "BE"

def fits (codec : ScalarCodec) (buffer : Buffer) (start : UInt64) : Bool :=
  start.toNat + codec.width ≤ buffer.size

def shortage (codec : ScalarCodec) (buffer : Buffer) (start : UInt64) : Error :=
  .bufferTooSmall start (UInt64.ofNat codec.width) buffer.size

def read (codec : ScalarCodec) (buffer : Buffer) (start : UInt64) : Except Error Scalar :=
  if codec.fits buffer start then
    let bytes := buffer.slice start.toNat codec.width
    .ok (codec.encoding.decode (wordOfBytes (codec.order.arrange bytes)))
  else .error (codec.shortage buffer start)

/-- The buffer with the scalar stored; `typeName` is for the message of a refusal. -/
def write (codec : ScalarCodec) (buffer : Buffer) (start : UInt64) (scalar : Scalar)
    (typeName : String) : Except Error Buffer :=
  if codec.fits buffer start then
    match codec.encoding.encode? scalar with
    | some word =>
        let bytes := codec.order.arrange (bytesOfWord codec.width word)
        .ok (buffer.overwrite start.toNat bytes)
    | none => .error (.valueOutOfRange typeName scalar)
  else .error (codec.shortage buffer start)

end ScalarCodec

end BinarySchema
