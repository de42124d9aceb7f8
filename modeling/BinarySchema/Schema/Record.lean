import BinarySchema.Scalar

/-!
# Type records

A schema is a list of type records.  A record names a type and says what it is made of; other
types are referred to by name only.
-/

namespace BinarySchema

/-- `alien` scalars have their home in a foreign component and are stored like `base` ones;
constants have no storage. -/
inductive Kind where
  | base
  | alien
  | struct
  | union
  | array
  | const
  deriving DecidableEq, Repr

namespace Kind

def label : Kind → String
  | .base => "base"
  | .alien => "alien"
  | .struct => "struct"
  | .union => "union"
  | .array => "array"
  | .const => "const"

def all : List Kind :=
  [.base, .alien, .struct, .union, .array, .const]

def ofLabel? (text : String) : Option Kind :=
  all.find? fun kind => kind.label == text

def isScalar : Kind → Bool
  | .base | .alien => true
  | _ => false

theorem ofLabel?_label (kind : Kind) : ofLabel? kind.label = some kind := by
  cases kind <;> decide

end Kind

inductive Representation where
  | integer
  | unsigned
  | floating
  deriving DecidableEq, Repr

namespace Representation

def label : Representation → String
  | .integer => "integer"
  | .unsigned => "unsigned"
  | .floating => "floating"

def all : List Representation :=
  [.integer, .unsigned, .floating]

def ofLabel? (text : String) : Option Representation :=
  all.find? fun representation => representation.label == text

theorem ofLabel?_label (representation : Representation) :
    ofLabel? representation.label = some representation := by
  cases representation <;> decide

end Representation

inductive ByteOrder where
  | little
  | big
  deriving DecidableEq, Repr

namespace ByteOrder

def label : ByteOrder → String
  | .little => "little"
  | .big => "big"

def all : List ByteOrder :=
  [.little, .big]

def ofLabel? (text : String) : Option ByteOrder :=
  all.find? fun order => order.label == text

theorem ofLabel?_label (order : ByteOrder) : ofLabel? order.label = some order := by
  cases order <;> decide

end ByteOrder

/-- A declared size: a byte count, or the word width of the target platform. -/
inductive DeclaredSize where
  | bytes (count : UInt64)
  | native
  deriving DecidableEq, Repr

def DeclaredSize.nativeLabel : String := "native"

structure Slot where
  name : String
  typeName : String
  deriving DecidableEq, Repr

/-- A type without a declared size has the size of its contents. -/
structure TypeRecord where
  name : String
  kind : Kind
  size : Option DeclaredSize := none
  representation : Option Representation := none
  order : ByteOrder := .little
  packed : Bool := false
  slots : List Slot := []
  element : Option String := none
  length : Option UInt64 := none
  value : Option Scalar := none
  deriving DecidableEq, Repr

namespace TypeRecord

def base (name : String) (size : UInt64) (representation : Representation) : TypeRecord :=
  { name, kind := .base, size := some (.bytes size), representation := some representation }

def alien (name : String) (size : UInt64) (representation : Representation) : TypeRecord :=
  { name, kind := .alien, size := some (.bytes size), representation := some representation }

def native (name : String) (representation : Representation) : TypeRecord :=
  { name, kind := .base, size := some .native, representation := some representation }

def struct (name : String) (slots : List Slot) : TypeRecord :=
  { name, kind := .struct, slots }

def union (name : String) (slots : List Slot) : TypeRecord :=
  { name, kind := .union, slots }

def array (name element : String) (length : Option UInt64) : TypeRecord :=
  { name, kind := .array, element := some element, length }

def const (name : String) (value : Scalar) : TypeRecord :=
  { name, kind := .const, value := some value }

def slot? (record : TypeRecord) (name : String) : Option Slot :=
  record.slots.find? fun slot => slot.name == name

def slotIndex? (record : TypeRecord) (name : String) : Option Nat :=
  record.slots.findIdx? fun slot => slot.name == name

/-- Records are equal when all their fields are, constants as `Scalar.equal` has it. -/
def equal (a b : TypeRecord) : Bool :=
  { a with value := none } == { b with value := none } &&
    match a.value, b.value with
    | none, none => true
    | some x, some y => x.equal y
    | _, _ => false

end TypeRecord

end BinarySchema
