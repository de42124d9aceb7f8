import BinarySchema.Json.Number

/-!
# JSON documents

The meaning of a JSON text: objects list their entries by key, each key once.
-/

namespace BinarySchema.Json

inductive Document where
  | null
  | bool (flag : Bool)
  | number (value : Number)
  | string (text : String)
  | array (items : List Document)
  | object (entries : List (String × Document))
  deriving Repr

/-- Puts an entry in its place, dropping one of the same key. -/
def insertEntry {α : Type} (key : String) (entry : α) : List (String × α) → List (String × α)
  | [] => [(key, entry)]
  | (other, old) :: rest =>
      if key < other then (key, entry) :: (other, old) :: rest
      else if key = other then (key, entry) :: rest
      else (other, old) :: insertEntry key entry rest

def sortEntries {α : Type} (entries : List (String × α)) : List (String × α) :=
  entries.foldl (fun sorted entry => insertEntry entry.1 entry.2 sorted) []

namespace Document

def ofEntries (entries : List (String × Document)) : Document :=
  .object (sortEntries entries)

/-- A number, or `null` for infinities and NaNs. -/
def ofFloat (value : Binary64) : Document :=
  if value.isFinite then .number (.float value) else .null

def ofNat (value : Nat) : Document :=
  .number (.integer value)

end Document

end BinarySchema.Json
