import BinarySchema.Value.Placement

/-!
# Making values from raw material

A scalar becomes a scalar value, named fields a struct or union, items an array.  An existing value
of exactly the wanted type is taken as it is; one of another type is taken apart and made anew.
-/

namespace BinarySchema

inductive Input where
  | scalar (content : Scalar)
  | fields (entries : List (String × Input))
  | items (elements : List Input)
  | value (value : Value)
  deriving Repr

def Input.shape : Input → Shape
  | .scalar _ => .scalar
  | .fields _ => .fields
  | .items _ => .items
  | .value existing => .value existing.record.kind

def Kind.shape : Kind → Shape
  | .base | .alien => .scalar
  | .struct | .union => .fields
  | .array => .items
  | .const => .nothing

namespace Value

def slotTarget (context : Context) (value : Value) (name : String) :
    Except Error (Nat × TypeRecord) :=
  let record := value.record
  match value with
  | .struct .. | .union .. =>
      match record.slotIndex? name, record.slot? name with
      | some index, some slot => do
          let slotType ← context.require slot.typeName
          pure (index, slotType)
      | _, _ => .error (.unknownSlot record.name name)
  | _ => .error (.unsupportedOperation record.name record.kind .setSlot)

def assignWith (context : Context) (name : String) (make : TypeRecord → Except Error Value)
    (value : Value) : Update Value :=
  match slotTarget context value name with
  | .error failure => .failed value failure
  | .ok (index, slotType) =>
      match make slotType with
      | .error failure => .failed value failure
      | .ok child => value.assign context name index child

/-- An array with what `make` gives for the element type at its end. -/
def pushWith (context : Context) (make : TypeRecord → Except Error Value) :
    Value → Except Error Value
  | .array record offset items => do
      let (element, stride) ← context.elementType record
      let child ← make element
      let start ← elementOffset offset items.length stride
      let placed ← (child.moveTo context start).result
      pure (.array record offset (items ++ [placed]))
  | value => .error (.unsupportedOperation value.record.name value.record.kind .push)

def mismatch (record : TypeRecord) (got : Shape) : Error :=
  .wrapMismatch record.name record.kind.shape got

mutual

def convert (context : Context) (record : TypeRecord) : Value → Except Error Value
  | .scalar other offset content =>
      if other.equal record then .ok (.scalar other offset content)
      else
        match empty record with
        | .error failure => .error failure
        | .ok (.scalar ..) => .ok (.scalar record 0 content)
        | .ok _ => .error (mismatch record (.value other.kind))
  | .struct other offset slots =>
      if other.equal record then .ok (.struct other offset slots)
      else
        match empty record with
        | .error failure => .error failure
        | .ok (.struct own start fresh) =>
            convertSlots context (.struct own start fresh) other.slots slots
        | .ok _ => .error (mismatch record (.value other.kind))
  | .union other offset none =>
      if other.equal record then .ok (.union other offset none)
      else
        match empty record with
        | .error failure => .error failure
        | .ok (.union own start fresh) => .ok (.union own start fresh)
        | .ok _ => .error (mismatch record (.value other.kind))
  | .union other offset (some (name, child)) =>
      if other.equal record then .ok (.union other offset (some (name, child)))
      else
        match empty record with
        | .error failure => .error failure
        | .ok (.union own start fresh) =>
            ((Value.union own start fresh).assignWith context name fun slotType =>
              convert context slotType child).result
        | .ok _ => .error (mismatch record (.value other.kind))
  | .array other offset items =>
      if other.equal record then .ok (.array other offset items)
      else
        match empty record with
        | .error failure => .error failure
        | .ok (.array own start fresh) => convertItems context (.array own start fresh) items
        | .ok _ => .error (mismatch record (.value other.kind))

/-- Assigns the set slots of a struct, by name, to `target`. -/
def convertSlots (context : Context) (target : Value) :
    List Slot → List (Option Value) → Except Error Value
  | slot :: slots, some child :: rest =>
      match (target.assignWith context slot.name fun slotType =>
        convert context slotType child).result with
      | .ok next => convertSlots context next slots rest
      | .error failure => .error failure
  | _ :: slots, none :: rest => convertSlots context target slots rest
  | [], _ => .ok target
  | _, [] => .ok target

def convertItems (context : Context) (target : Value) : List Value → Except Error Value
  | [] => .ok target
  | item :: rest =>
      match target.pushWith context fun element => convert context element item with
      | .ok next => convertItems context next rest
      | .error failure => .error failure

end

mutual

def wrap (context : Context) (record : TypeRecord) : Input → Except Error Value
  | .value existing => convert context record existing
  | .scalar content =>
      match empty record with
      | .error failure => .error failure
      | .ok (.scalar ..) => .ok (.scalar record 0 (some content))
      | .ok _ => .error (mismatch record .scalar)
  | .fields entries =>
      match empty record with
      | .error failure => .error failure
      | .ok (.struct own start fresh) => wrapFields context (.struct own start fresh) entries
      | .ok (.union own start fresh) => wrapFields context (.union own start fresh) entries
      | .ok _ => .error (mismatch record .fields)
  | .items elements =>
      match empty record with
      | .error failure => .error failure
      | .ok (.array own start fresh) => wrapItems context (.array own start fresh) elements
      | .ok _ => .error (mismatch record .items)

def wrapFields (context : Context) (target : Value) :
    List (String × Input) → Except Error Value
  | [] => .ok target
  | (name, input) :: rest =>
      match (target.assignWith context name fun slotType => wrap context slotType input).result with
      | .ok next => wrapFields context next rest
      | .error failure => .error failure

def wrapItems (context : Context) (target : Value) : List Input → Except Error Value
  | [] => .ok target
  | input :: rest =>
      match target.pushWith context fun element => wrap context element input with
      | .ok next => wrapItems context next rest
      | .error failure => .error failure

end

/-! ## Setters -/

/-- Replaces the contents; a failure leaves the value as it was. -/
def set (context : Context) (input : Input) (value : Value) : Update Value :=
  match wrap context value.record input with
  | .error failure => .failed value failure
  | .ok next =>
      match (next.moveTo context value.offset).result with
      | .ok placed => .done placed
      | .error failure => .failed value failure

/-- Assigns a struct slot or makes a union slot active. -/
def setSlot (context : Context) (name : String) (input : Input) (value : Value) : Update Value :=
  value.assignWith context name fun slotType => wrap context slotType input

/-- Appends an element; a failure leaves the array as it was. -/
def push (context : Context) (input : Input) (value : Value) : Update Value :=
  match value.pushWith context fun element => wrap context element input with
  | .ok next => .done next
  | .error failure => .failed value failure

end Value

end BinarySchema
