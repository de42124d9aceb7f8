import BinarySchema.Platform
import BinarySchema.Schema.Registry

/-!
# Contexts

All that the meaning of a type name depends on: the registered records, the target platform and
the limits on nesting and on the length of arrays that are read.
-/

namespace BinarySchema

structure Limits where
  depth : Nat := 32
  elements : UInt64 := 1048576
  deriving DecidableEq, Repr

structure Context where
  registry : Registry := {}
  platform : Platform := .arm
  limits : Limits := {}

namespace Context

def ofRecords (records : List TypeRecord) (platform : Platform) (limits : Limits) : Context :=
  ⟨Registry.empty.insertAll records, platform, limits⟩

def load (context : Context) (records : List TypeRecord) (discard : Bool) : Context :=
  { context with registry := context.registry.load records discard }

def wordSize (context : Context) : UInt64 :=
  context.platform.wordSize

def resolve? (context : Context) (name : String) : Option TypeRecord :=
  context.registry.resolve? name

def require (context : Context) (name : String) : Except Error TypeRecord :=
  match context.resolve? name with
  | some record => .ok record
  | none => .error (.unknownType name)

def constant (context : Context) (name : String) : Except Error Scalar :=
  match context.require name with
  | .error failure => .error failure
  | .ok record =>
      match record.kind, record.value with
      | .const, some value => .ok value
      | _, _ => .error (.missingConstValue name)

end Context

end BinarySchema
