import BinarySchema.Layout

/-!
# Values

A value belongs to a type record and has a place in a buffer.  Structs keep one entry per declared
slot, unset until assigned; a union keeps its active slot only; arrays keep their elements in
order.
-/

namespace BinarySchema

inductive Value where
  | scalar (record : TypeRecord) (offset : UInt64) (content : Option Scalar)
  | struct (record : TypeRecord) (offset : UInt64) (slots : List (Option Value))
  | union (record : TypeRecord) (offset : UInt64) (active : Option (String × Value))
  | array (record : TypeRecord) (offset : UInt64) (items : List Value)
  deriving Repr

/-- Takes from per-slot entries, for each slot in turn, the entry of the first slot of its name. -/
def TypeRecord.entriesByName {α : Type} (record : TypeRecord) (entries : List (Option α)) :
    List (String × Option α) :=
  record.slots.map fun slot =>
    (slot.name, (record.slotIndex? slot.name).bind fun index => entries[index]?.join)

namespace Value

def empty (record : TypeRecord) : Except Error Value :=
  match record.kind with
  | .base | .alien => .ok (.scalar record 0 none)
  | .struct => .ok (.struct record 0 (record.slots.map fun _ => none))
  | .union => .ok (.union record 0 none)
  | .array => .ok (.array record 0 [])
  | .const => .error (.unsupportedKind record.name .const .create)

def record : Value → TypeRecord
  | .scalar record _ _ => record
  | .struct record _ _ => record
  | .union record _ _ => record
  | .array record _ _ => record

def offset : Value → UInt64
  | .scalar _ offset _ => offset
  | .struct _ offset _ => offset
  | .union _ offset _ => offset
  | .array _ offset _ => offset

def scalar? : Value → Option Scalar
  | .scalar _ _ content => content
  | _ => none

/-- The content of a struct slot, or of the active union slot if it has that name. -/
def slot? (value : Value) (name : String) : Option Value :=
  match value with
  | .struct record _ slots =>
      match record.slotIndex? name with
      | some index => slots[index]?.join
      | none => none
  | .union _ _ (some (active, child)) => if active = name then some child else none
  | _ => none

def active? : Value → Option (String × Value)
  | .union _ _ active => active
  | _ => none

def items : Value → List Value
  | .array _ _ items => items
  | _ => []

mutual

/-- Equality of types, offsets and scalars throughout, with floats compared as numbers. -/
def equal : Value → Value → Bool
  | .scalar a o x, .scalar b p y =>
      a.equal b && o == p &&
        match x, y with
        | none, none => true
        | some x, some y => x.equal y
        | _, _ => false
  | .struct a o slots, .struct b p others => a.equal b && o == p && equalSlots slots others
  | .union a o none, .union b p none => a.equal b && o == p
  | .union a o (some (name, child)), .union b p (some (other, twin)) =>
      a.equal b && o == p && name == other && child.equal twin
  | .array a o items, .array b p others => a.equal b && o == p && equalItems items others
  | _, _ => false

def equalSlots : List (Option Value) → List (Option Value) → Bool
  | [], [] => true
  | none :: rest, none :: others => equalSlots rest others
  | some child :: rest, some twin :: others => child.equal twin && equalSlots rest others
  | _, _ => false

def equalItems : List Value → List Value → Bool
  | [], [] => true
  | item :: rest, twin :: others => item.equal twin && equalItems rest others
  | _, _ => false

end

end Value

def Context.create (context : Context) (name : String) : Except Error Value :=
  match context.require name with
  | .ok record => Value.empty record
  | .error failure => .error failure

/-! ## Changes -/

/-- What a change leaves behind and how it ended; one that fails may have done part of its work. -/
structure Update (α : Type) where
  left : α
  outcome : Except Error Unit

namespace Update

def done {α : Type} (left : α) : Update α :=
  ⟨left, .ok ()⟩

def failed {α : Type} (left : α) (failure : Error) : Update α :=
  ⟨left, .error failure⟩

def result {α : Type} (update : Update α) : Except Error α :=
  match update.outcome with
  | .ok () => .ok update.left
  | .error failure => .error failure

def within {α β : Type} (embed : α → β) (update : Update α) : Update β :=
  ⟨embed update.left, update.outcome⟩

/-- Goes on with `next` when the change ended well, else gives up with `rest` untouched. -/
def followedBy {α β : Type} (update : Update α) (rest : List β) (embed : α → β)
    (next : Unit → Update (List β)) : Update (List β) :=
  match update.outcome with
  | .ok () => (next ()).within (embed update.left :: ·)
  | .error failure => .failed (embed update.left :: rest) failure

end Update

end BinarySchema
