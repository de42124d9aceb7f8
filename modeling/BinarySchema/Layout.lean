import BinarySchema.Context

/-!
# Layout

Sizes and offsets of types.  Every field of a struct that is not packed starts at a multiple of its
own size; the fields of a union all start at its beginning; the elements of an array follow each
other without gaps.  All arithmetic on offsets is checked against the range of a 64-bit word.
-/

namespace BinarySchema

/-! ## Checked offsets -/

def addOffset (offset delta : UInt64) : Except Error UInt64 :=
  if offset.toNat + delta.toNat < UInt64.size then .ok (offset + delta)
  else .error (.offsetOverflow offset delta)

/-- The least multiple of `size` that is not below `offset`; size zero asks for nothing. -/
def alignOffset (offset size : UInt64) : Except Error UInt64 :=
  if size = 0 then .ok offset
  else
    let gap := (size - offset % size) % size
    if offset.toNat + gap.toNat < UInt64.size then .ok (offset + gap)
    else .error (.offsetOverflow offset size)

def elementOffset (offset : UInt64) (index : Nat) (stride : UInt64) : Except Error UInt64 :=
  if index * stride.toNat < UInt64.size then addOffset offset (UInt64.ofNat (index * stride.toNat))
  else .error (.offsetOverflow offset (UInt64.ofNat (UInt64.size - 1)))

/-! ## Slots -/

/-- Where a part lies, counted from the start of the whole. -/
structure Placement where
  offset : UInt64
  size : UInt64
  deriving DecidableEq, Repr

def placeSlots (packed : Bool) (sizeOf : String → Except Error UInt64) (start : UInt64) :
    List Slot → Except Error (List Placement)
  | [] => .ok []
  | slot :: rest => do
      let size ← sizeOf slot.typeName
      let offset ← if packed then pure start else alignOffset start size
      let stop ← addOffset offset size
      let placements ← placeSlots packed sizeOf stop rest
      pure (⟨offset, size⟩ :: placements)

def slotsEnd (placements : List Placement) : Except Error UInt64 :=
  match placements.getLast? with
  | some last => addOffset last.offset last.size
  | none => .ok 0

/-- The greatest size of the slots, none being zero. -/
def widestSlot (sizeOf : String → Except Error UInt64) (widest : UInt64) :
    List Slot → Except Error UInt64
  | [] => .ok widest
  | slot :: rest => do
      let size ← sizeOf slot.typeName
      widestSlot sizeOf (max widest size) rest

def TypeRecord.elementName (record : TypeRecord) : Except Error String :=
  match record.element with
  | some name => .ok name
  | none => .error (.missingArrayBase record.name)

namespace Context

/-! ## Sizes -/

/-- The size of a record whose parts may nest less than `budget` levels deep, itself included. -/
def sizeWithin (context : Context) : Nat → TypeRecord → Except Error UInt64
  | 0, record => .error (.depthExceeded context.limits.depth record.name)
  | budget + 1, record =>
      let sizeOf := fun name => do
        let part ← context.require name
        context.sizeWithin budget part
      match record.size, record.kind with
      | some (.bytes count), _ => .ok count
      | some .native, _ => .ok context.wordSize
      | none, .struct => do
          let placements ← placeSlots record.packed sizeOf 0 record.slots
          slotsEnd placements
      | none, .union => widestSlot sizeOf 0 record.slots
      | none, .array =>
          match record.length with
          | none => .ok 0
          | some length => do
              let name ← record.elementName
              let stride ← sizeOf name
              if length.toNat * stride.toNat < UInt64.size then pure (length * stride)
              else .error (.arrayTooLarge length context.limits.elements)
      | none, kind => .error (.unsupportedKind record.name kind .size)

/-- The size of the named type, nested in `depth` others. -/
def sizeAt (context : Context) (depth : Nat) (name : String) : Except Error UInt64 := do
  let record ← context.require name
  context.sizeWithin (context.limits.depth + 1 - depth) record

def sizeOf (context : Context) (name : String) : Except Error UInt64 :=
  context.sizeAt 0 name

def sizeOfRecord (context : Context) (record : TypeRecord) : Except Error UInt64 :=
  context.sizeWithin (context.limits.depth + 1) record

def slotPlacementsAt (context : Context) (depth : Nat) (record : TypeRecord) :
    Except Error (List Placement) :=
  placeSlots record.packed (context.sizeAt (depth + 1)) 0 record.slots

def slotPlacements (context : Context) (record : TypeRecord) : Except Error (List Placement) :=
  context.slotPlacementsAt 0 record

def elementType (context : Context) (record : TypeRecord) :
    Except Error (TypeRecord × UInt64) := do
  let name ← record.elementName
  let element ← context.require name
  let stride ← context.sizeOfRecord element
  pure (element, stride)

end Context

/-! ## Description of a type's parts -/

structure Field where
  name : String
  typeName : String
  offset : UInt64
  size : UInt64
  deriving DecidableEq, Repr

def elementLabel (index : Nat) : String :=
  "[" ++ String.ofList (Text.decimal index) ++ "]"

def elementField (typeName : String) (stride : UInt64) (index : Nat) : Except Error Field := do
  let offset ← elementOffset 0 index stride
  pure ⟨elementLabel index, typeName, offset, stride⟩

def structField (slot : Slot) (placement : Placement) : Field :=
  ⟨slot.name, slot.typeName, placement.offset, placement.size⟩

namespace Context

def unionField (context : Context) (slot : Slot) : Except Error Field := do
  let size ← context.sizeAt 1 slot.typeName
  pure ⟨slot.name, slot.typeName, 0, size⟩

/-- The slots or elements of a named type; a scalar has none. -/
def fields (context : Context) (name : String) : Except Error (List Field) := do
  let record ← context.require name
  match record.kind with
  | .struct => do
      let placements ← context.slotPlacements record
      pure (List.zipWith structField record.slots placements)
  | .union => record.slots.mapM context.unionField
  | .array => do
      let element ← record.elementName
      let stride ← context.sizeAt 1 element
      let length := record.length.getD 0
      if context.limits.elements < length then
        .error (.arrayTooLarge length context.limits.elements)
      else (List.range length.toNat).mapM (elementField element stride)
  | .base | .alien => pure []
  | .const => .error (.unsupportedKind record.name .const .layout)

end Context

end BinarySchema
