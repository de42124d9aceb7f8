import BinarySchema.Error

/-!
# Target platforms

A platform fixes the width of a word, which sizes pointers and `native` types.
-/

namespace BinarySchema

inductive Platform where
  | arm
  | js
  | x86_64
  deriving DecidableEq, Repr

namespace Platform

def wordSize : Platform → UInt64
  | .arm | .js => 4
  | .x86_64 => 8

def id : Platform → String
  | .arm => "ARM"
  | .js => "js"
  | .x86_64 => "x86_64"

def ofId (text : String) : Except Error Platform :=
  if text = "ARM" ∨ text = "arm" then .ok .arm
  else if text = "js" then .ok .js
  else if text = "x86_64" then .ok .x86_64
  else .error (.unknownPlatform text)

theorem ofId_id (platform : Platform) : ofId platform.id = .ok platform := by
  cases platform <;> rfl

end Platform

end BinarySchema
