import BinarySchema.Value.Placement
import BinarySchema.Value.Write

/-!
# Reading values

A value is read scalar by scalar at the places that the layout gives.  Structs and arrays are
rebuilt from fresh parts; a union that has no active slot takes its first declared one.

Every descent needs one unit of fuel.  Schemas in which a type contains itself are stopped by the
size limit before a second descent, except where a type with a declared size comes back to itself or
a union does so through first slots alone.  A read that meets the same type at the same offset again
has no result for any amount of fuel.
-/

namespace BinarySchema.Value

def freshSlots (context : Context) :
    List Slot → List (Option Value) → Update (List (Option Value))
  | slot :: slots, old :: rest =>
      match context.create slot.typeName with
      | .ok fresh => (freshSlots context slots rest).within (some fresh :: ·)
      | .error failure => .failed (old :: rest) failure
  | [], rest => .done rest
  | _, [] => .done []

/-- Reads the slots in order as `step` reads one value. -/
def readSlots (step : Value → Option (Update Value)) :
    List (Option Value) → Option (Update (List (Option Value)))
  | [] => some (.done [])
  | none :: rest => do
      let others ← readSlots step rest
      pure (others.within (none :: ·))
  | some child :: rest => do
      let update ← step child
      match update.outcome with
      | .error failure => pure (.failed (some update.left :: rest) failure)
      | .ok () =>
          let others ← readSlots step rest
          pure (others.within (some update.left :: ·))

def freshElement (context : Context) (element : String) (offset stride : UInt64) (index : Nat) :
    Except Error Value := do
  let fresh ← context.create element
  let start ← elementOffset offset index stride
  (fresh.moveTo context start).result

/-- Reads `count` elements from number `index` on; an element that fails is not kept. -/
def readItems (step : Value → Option (Update Value)) (make : Nat → Except Error Value) :
    Nat → Nat → Option (Update (List Value))
  | 0, _ => some (.done [])
  | count + 1, index =>
      match make index with
      | .error failure => some (.failed [] failure)
      | .ok fresh => do
          let update ← step fresh
          match update.outcome with
          | .error failure => pure (.failed [] failure)
          | .ok () =>
              let others ← readItems step make count (index + 1)
              pure (others.within (update.left :: ·))

def readScalar (context : Context) (buffer : Buffer) (record : TypeRecord) (offset : UInt64) :
    Except Error Scalar :=
  match context.scalarCodec record with
  | .ok codec => codec.read buffer offset
  | .error failure => .error failure

def readLength (context : Context) (record : TypeRecord) : Except Error UInt64 :=
  match record.length with
  | none => .error (.unknownLength record.name)
  | some length =>
      if context.limits.elements < length then
        .error (.arrayTooLarge length context.limits.elements)
      else .ok length

/-- Fills a value from a buffer with at most `fuel` levels of descent. -/
def readWithin (context : Context) (buffer : Buffer) : Nat → Value → Option (Update Value)
  | 0, _ => none
  | _ + 1, .scalar record offset content =>
      match readScalar context buffer record offset with
      | .ok read => some (.done (.scalar record offset (some read)))
      | .error failure => some (.failed (.scalar record offset content) failure)
  | fuel + 1, .struct record offset slots =>
      let fresh := freshSlots context record.slots slots
      match fresh.outcome with
      | .error failure => some (.failed (.struct record offset fresh.left) failure)
      | .ok () =>
          let placed := (Value.struct record offset fresh.left).moveTo context offset
          match placed.outcome, placed.left with
          | .ok (), .struct _ _ parts => do
              let update ← readSlots (readWithin context buffer fuel) parts
              pure (update.within (.struct record offset))
          | _, _ => some placed
  | fuel + 1, .union record offset none =>
      match record.slots with
      | [] => some (.failed (.union record offset none) (.emptyUnion record.name))
      | first :: _ =>
          match context.create first.typeName with
          | .error failure => some (.failed (.union record offset none) failure)
          | .ok fresh =>
              let placed := fresh.moveTo context offset
              match placed.outcome with
              | .error failure =>
                  some (.failed (.union record offset (some (first.name, placed.left))) failure)
              | .ok () => do
                  let update ← readWithin context buffer fuel placed.left
                  pure (update.within fun child =>
                    .union record offset (some (first.name, child)))
  | fuel + 1, .union record offset (some (name, child)) => do
      let update ← readWithin context buffer fuel child
      pure (update.within fun child => .union record offset (some (name, child)))
  | fuel + 1, .array record offset items =>
      let plan : Except Error (UInt64 × String × UInt64) := do
        let length ← readLength context record
        let element ← record.elementName
        let stride ← context.sizeOf element
        pure (length, element, stride)
      match plan with
      | .error failure => some (.failed (.array record offset items) failure)
      | .ok (length, element, stride) => do
          let update ← readItems (readWithin context buffer fuel)
            (freshElement context element offset stride) length.toNat 0
          pure (update.within (.array record offset))

end Value

/-! ## Enough fuel -/

def TypeRecord.longestReference (record : TypeRecord) : Nat :=
  (record.slots.map fun slot => slot.typeName.length).foldl max
    (record.element.elim 0 String.length)

/-- Between two registered types on a path there are at most as many spelled ones as the name that
leads there has characters, and no registered type comes twice at one offset. -/
def Context.readFuel (context : Context) (record : TypeRecord) : Nat :=
  let longest := (context.registry.records.map TypeRecord.longestReference).foldl max
    record.longestReference
  (context.registry.size * UInt64.size + 2) * (longest + 2)

/-- How many active slots lie inside each other from a value on, and the type where they end. -/
def Value.activePath : Value → Nat × TypeRecord
  | .union _ _ (some (_, child)) =>
      let (steps, record) := child.activePath
      (steps + 1, record)
  | value => (0, value.record)

def Value.read (context : Context) (buffer : Buffer) (value : Value) : Option (Update Value) :=
  let (steps, record) := value.activePath
  value.readWithin context buffer (steps + context.readFuel record)

def Context.read (context : Context) (name : String) (buffer : Buffer) (offset : UInt64) :
    Option (Except Error Value) :=
  let fresh : Except Error Value := do
    let fresh ← context.create name
    (fresh.moveTo context offset).result
  match fresh with
  | .error failure => some (.error failure)
  | .ok value => do
      let update ← value.read context buffer
      pure update.result

end BinarySchema
