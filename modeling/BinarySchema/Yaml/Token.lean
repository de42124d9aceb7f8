/-!
# YAML tokens

The marks and the pieces of content that a YAML text is made of.  Block structure that indentation
alone shows has tokens of its own.
-/

namespace BinarySchema.Yaml

inductive ScalarStyle where
  | plain
  | singleQuoted
  | doubleQuoted
  | literal
  | folded
  deriving DecidableEq, Repr

/-- Tags are byte strings, since escapes in them spell bytes. -/
abbrev TagText := List UInt8

inductive Token where
  | streamEnd
  | version (major minor : Nat)
  | tagHandle (handle : List Char) (expansion : TagText)
  | documentStart
  | documentEnd
  | blockSequenceStart
  | blockMappingStart
  | blockEnd
  | flowSequenceStart
  | flowSequenceEnd
  | flowMappingStart
  | flowMappingEnd
  | blockEntry
  | flowEntry
  | key
  | value
  | alias (name : List Char)
  | anchor (name : List Char)
  | tag (handle : List Char) (suffix : TagText)
  | scalar (text : List Char) (style : ScalarStyle)
  deriving DecidableEq, Repr

end BinarySchema.Yaml
