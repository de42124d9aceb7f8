import BinarySchema.Schema.Record
import BinarySchema.Yaml.Content
import BinarySchema.Yaml.Document

/-!
# Type records as YAML

A schema document is a sequence of mappings.  Fields are read by what they are for: names from any
scalar, labels from any scalar or a local tag, numbers and truth values from plain scalars.
-/

namespace BinarySchema.Schema

open Yaml (Content NumberedNode Properties ScalarStyle)

/-- Reading with a number of aliases that may still be followed. -/
abbrev YamlReader := StateT Nat Option

def follow (document : Yaml.Document) : NumberedNode → YamlReader NumberedNode
  | .alias number => do
      match ← get with
      | 0 => failure
      | jumps + 1 =>
          set jumps
          StateT.lift (document.target? number)
  | node => pure node

/-! ## Fields -/

def textOfYaml? (document : Yaml.Document) (node : NumberedNode) : YamlReader String := do
  match ← follow document node with
  | .scalar _ text _ => pure text
  | _ => failure

/-- A label is the scalar's text or its local tag; a tagged scalar has to be empty or null. -/
def labelOfYaml? {α : Type} (ofLabel? : String → Option α) (document : Yaml.Document)
    (node : NumberedNode) : YamlReader α := do
  match ← follow document node with
  | .scalar properties text style =>
      match Yaml.localTag? properties with
      | none => StateT.lift (ofLabel? text)
      | some label =>
          if style == .plain && (text.isEmpty || Yaml.isNull text) then
            StateT.lift (ofLabel? label)
          else failure
  | _ => failure

/-- Plain scalars, and literal ones that carry the standard tag. -/
def readsAs (tag : String) (properties : Properties) (style : ScalarStyle) : Bool :=
  style == .plain ||
    (style == .literal && properties.tag == some (Yaml.standardTag tag))

def flagOfYaml? (document : Yaml.Document) (node : NumberedNode) : YamlReader Bool := do
  match ← follow document node with
  | .scalar properties text style =>
      if readsAs "bool" properties style then StateT.lift (Yaml.flag? text) else failure
  | _ => failure

def wordOfYaml? (document : Yaml.Document) (node : NumberedNode) : YamlReader UInt64 := do
  match ← follow document node with
  | .scalar properties text style =>
      if readsAs "int" properties style then StateT.lift (Yaml.word? text.toList) else failure
  | _ => failure

def contentOfYaml? (document : Yaml.Document) (node : NumberedNode) : YamlReader Content := do
  match ← follow document node with
  | .scalar properties text style => StateT.lift (Yaml.scalarContent? properties text style)
  | _ => failure

def sizeOfContent? : Content → Option DeclaredSize
  | .natural count => some (.bytes count)
  | .negative count => if count = 0 then some (.bytes 0) else none
  | .text word => if word = DeclaredSize.nativeLabel then some .native else none
  | _ => none

def scalarOfContent? : Content → Option Scalar
  | .natural word => Scalar.ofInteger? word.toNat
  | .negative word => some (.int word)
  | .float number => some (.float number)
  | _ => none

def sizeOfYaml? (document : Yaml.Document) (node : NumberedNode) : YamlReader DeclaredSize := do
  StateT.lift (sizeOfContent? (← contentOfYaml? document node))

def scalarOfYaml? (document : Yaml.Document) (node : NumberedNode) : YamlReader Scalar := do
  StateT.lift (scalarOfContent? (← contentOfYaml? document node))

/-- Whether a plain scalar stands for nothing; none if its tag says null and its text does not. -/
def absence? (properties : Properties) (text : String) (style : ScalarStyle) : Option Bool :=
  if style ≠ .plain then some false
  else
    match properties.tag with
    | none => some (text.isEmpty || Yaml.isNull text)
    | some tag =>
        if tag ≠ Yaml.standardTag "null" then some false
        else if Yaml.isNull text then some true
        else none

def nullableYaml? {α : Type} (read? : Yaml.Document → NumberedNode → YamlReader α)
    (document : Yaml.Document) (node : NumberedNode) : YamlReader (Option α) := do
  let node ← follow document node
  match node with
  | .scalar properties text style =>
      if ← StateT.lift (absence? properties text style) then pure none
      else some <$> read? document node
  | _ => some <$> read? document node

/-! ## Collections -/

def isEmptyPlain (text : String) (style : ScalarStyle) : Bool :=
  text.isEmpty && style == .plain

/-- The items of a sequence; an empty plain scalar has none. -/
def itemsOfYaml? (document : Yaml.Document) (node : NumberedNode) :
    YamlReader (List NumberedNode) := do
  match ← follow document node with
  | .sequence _ items => pure items
  | .scalar _ text style => if isEmptyPlain text style then pure [] else failure
  | _ => failure

/-- The entries of a mapping by key; an empty plain scalar has none. -/
def entriesOfYaml? (document : Yaml.Document) (node : NumberedNode) :
    YamlReader (List (String × NumberedNode)) := do
  match ← follow document node with
  | .mapping _ entries =>
      entries.mapM fun (key, value) => do
        let key ← textOfYaml? document key
        pure (key, value)
  | .scalar _ text style => if isEmptyPlain text style then pure [] else failure
  | _ => failure

/-- Reads the entry of a key; fails if it is there twice, takes `absent` if it is missing. -/
def yamlField? {α : Type} (document : Yaml.Document) (entries : List (String × NumberedNode))
    (key : String) (read? : Yaml.Document → NumberedNode → YamlReader α) (absent : Option α) :
    YamlReader α :=
  match entries.filter fun entry => entry.1 == key with
  | [] => StateT.lift absent
  | [(_, node)] => read? document node
  | _ => failure

def slotOfYaml? (document : Yaml.Document) (node : NumberedNode) : YamlReader Slot := do
  let entries ← entriesOfYaml? document node
  let name ← yamlField? document entries "name" textOfYaml? none
  let typeName ← yamlField? document entries "type" textOfYaml? none
  pure ⟨name, typeName⟩

def slotsOfYaml? (document : Yaml.Document) (node : NumberedNode) : YamlReader (List Slot) := do
  (← itemsOfYaml? document node).mapM (slotOfYaml? document)

def recordOfYaml? (document : Yaml.Document) (node : NumberedNode) : YamlReader TypeRecord := do
  let entries ← entriesOfYaml? document node
  let name ← yamlField? document entries "name" textOfYaml? none
  let kind ← yamlField? document entries "kind" (labelOfYaml? Kind.ofLabel?) none
  let size ← yamlField? document entries "size" (nullableYaml? sizeOfYaml?) (some none)
  let representation ←
    yamlField? document entries "repr" (nullableYaml? (labelOfYaml? Representation.ofLabel?))
      (some none)
  let order ←
    yamlField? document entries "endian" (labelOfYaml? ByteOrder.ofLabel?) (some .little)
  let packed ← yamlField? document entries "packed" flagOfYaml? (some false)
  let slots ← yamlField? document entries "slots" slotsOfYaml? (some [])
  let element ← yamlField? document entries "base" (nullableYaml? textOfYaml?) (some none)
  let length ← yamlField? document entries "length" (nullableYaml? wordOfYaml?) (some none)
  let value ← yamlField? document entries "value" (nullableYaml? scalarOfYaml?) (some none)
  pure { name, kind, size, representation, order, packed, slots, element, length, value }

def recordsOfYaml? (text : String) : Option (List TypeRecord) := do
  let document ← Yaml.Document.ofText? text
  match document.root with
  | none => pure []
  | some root =>
      let (records, _) ← (do
        (← itemsOfYaml? document root).mapM (recordOfYaml? document) :
          YamlReader (List TypeRecord)).run document.jumpLimit
      pure records

end BinarySchema.Schema
