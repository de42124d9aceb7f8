import BinarySchema.Json.Node
import BinarySchema.Json.Scalar
import BinarySchema.Schema.Record

/-!
# Type records as JSON

A schema document is an array of records.  A record is an object, or an array of its fields in the
order of `recordKeys`; keys without a meaning are passed over, and the others come at most once.
A label may also be written as an object with the label as its only key and `null` under it.
-/

namespace BinarySchema.Schema

open Json (Node Document)

def recordKeys : List String :=
  ["name", "kind", "size", "repr", "endian", "packed", "slots", "base", "length", "value"]

def slotKeys : List String :=
  ["name", "type"]

/-! ## Fields -/

def textOfNode? : Node → Option String
  | .string text => text
  | _ => none

def flagOfNode? : Node → Option Bool
  | .bool flag => some flag
  | _ => none

def labelOfNode? {α : Type} (ofLabel? : String → Option α) : Node → Option α
  | .string (some label) => ofLabel? label
  | .object [(some label, .null)] => ofLabel? label
  | _ => none

def wordOfNode? : Node → Option UInt64
  | .number (some (.integer value)) =>
      if 0 ≤ value ∧ value < UInt64.size then some (UInt64.ofNat value.toNat) else none
  | _ => none

def sizeOfNode? : Node → Option DeclaredSize
  | .string (some word) => if word = DeclaredSize.nativeLabel then some .native else none
  | node => (wordOfNode? node).map .bytes

def scalarOfNode? : Node → Option Scalar
  | .number (some number) => some number.toScalar
  | _ => none

def nullable? {α : Type} (read? : Node → Option α) : Node → Option (Option α)
  | .null => some none
  | node => (read? node).map some

/-! ## Entries -/

/-- Entries by key; a positional list takes its keys in order and may stop early. -/
def entriesOfNode? (keys : List String) : Node → Option (List (String × Node))
  | .object entries => entries.mapM fun (key, node) => key.map fun key => (key, node)
  | .array items => if items.length ≤ keys.length then some (keys.zip items) else none
  | _ => none

/-- Reads the entry of a key; none if it is there twice, `absent` if it is missing. -/
def field? {α : Type} (entries : List (String × Node)) (key : String) (read? : Node → Option α)
    (absent : Option α) : Option α :=
  match entries.filter fun entry => entry.1 == key with
  | [] => absent
  | [(_, node)] => read? node
  | _ => none

def slotOfNode? (node : Node) : Option Slot := do
  let entries ← entriesOfNode? slotKeys node
  let name ← field? entries "name" textOfNode? none
  let typeName ← field? entries "type" textOfNode? none
  pure ⟨name, typeName⟩

def slotsOfNode? : Node → Option (List Slot)
  | .array items => items.mapM slotOfNode?
  | _ => none

def recordOfNode? (node : Node) : Option TypeRecord := do
  let entries ← entriesOfNode? recordKeys node
  let name ← field? entries "name" textOfNode? none
  let kind ← field? entries "kind" (labelOfNode? Kind.ofLabel?) none
  let size ← field? entries "size" (nullable? sizeOfNode?) (some none)
  let representation ←
    field? entries "repr" (nullable? (labelOfNode? Representation.ofLabel?)) (some none)
  let order ← field? entries "endian" (labelOfNode? ByteOrder.ofLabel?) (some .little)
  let packed ← field? entries "packed" flagOfNode? (some false)
  let slots ← field? entries "slots" slotsOfNode? (some [])
  let element ← field? entries "base" (nullable? textOfNode?) (some none)
  let length ← field? entries "length" (nullable? wordOfNode?) (some none)
  let value ← field? entries "value" (nullable? scalarOfNode?) (some none)
  pure { name, kind, size, representation, order, packed, slots, element, length, value }

def recordsOfNode? : Node → Option (List TypeRecord)
  | .array items => items.mapM recordOfNode?
  | _ => none

def recordsOfJson? (text : String) : Option (List TypeRecord) :=
  (Node.ofText? text).bind recordsOfNode?

/-! ## Writing -/

def sizeDocument : DeclaredSize → Document
  | .bytes count => .ofNat count.toNat
  | .native => .string DeclaredSize.nativeLabel

def slotDocument (slot : Slot) : Document :=
  .object [("name", .string slot.name), ("type", .string slot.typeName)]

def entryOf {α : Type} (key : String) (write : α → Document) :
    Option α → List (String × Document)
  | some field => [(key, write field)]
  | none => []

/-- Absent fields and an empty list of slots are left out. -/
def recordDocument (record : TypeRecord) : Document :=
  .object (
    [("name", .string record.name), ("kind", .string record.kind.label)] ++
    entryOf "size" sizeDocument record.size ++
    entryOf "repr" (fun representation => .string representation.label) record.representation ++
    [("endian", .string record.order.label), ("packed", .bool record.packed)] ++
    entryOf "slots" (fun slots => .array (slots.map slotDocument))
      (if record.slots.isEmpty then none else some record.slots) ++
    entryOf "base" .string record.element ++
    entryOf "length" (fun length => .ofNat length.toNat) record.length ++
    entryOf "value" Scalar.toDocument record.value)

def recordsDocument (records : List TypeRecord) : Document :=
  .array (records.map recordDocument)

end BinarySchema.Schema
