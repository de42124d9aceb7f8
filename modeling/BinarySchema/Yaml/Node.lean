import BinarySchema.Yaml.Tokens

/-!
# Nodes

The tree that a token sequence spells: scalars, sequences, mappings, and aliases that point to
anchored nodes.  Missing keys, values and items are empty plain scalars.
-/

namespace BinarySchema.Yaml

structure Properties where
  anchor : Option (List Char) := none
  tag : Option TagText := none
  deriving DecidableEq, Repr

/-- A tree whose aliases are of type `α`: names at first, then the numbers of their anchors. -/
inductive Node (α : Type) where
  | alias (target : α)
  | scalar (properties : Properties) (text : String) (style : ScalarStyle)
  | sequence (properties : Properties) (items : List (Node α))
  | mapping (properties : Properties) (entries : List (Node α × Node α))

abbrev NamedNode := Node (List Char)

def Node.missing {α : Type} : Node α :=
  .scalar {} "" .plain

/-! ## Properties -/

abbrev TagHandles := List (List Char × TagText)

def standardHandles : TagHandles :=
  [(['!'], asciiBytes ['!']), (['!', '!'], asciiBytes "tag:yaml.org,2002:".toList)]

/-- A tag written out has no handle; any other one has to be declared. -/
def expandTag? (handles : TagHandles) (handle : List Char) (suffix : TagText) : Option TagText :=
  if handle.isEmpty then some suffix
  else (handles.lookup handle).map (· ++ suffix)

/-- The anchor and the tag in front of a node, in either order. -/
def readProperties (handles : TagHandles) : List Token → Option (Properties × List Token)
  | .anchor name :: .tag handle suffix :: rest =>
      (expandTag? handles handle suffix).map fun tag => (⟨some name, some tag⟩, rest)
  | .tag handle suffix :: .anchor name :: rest =>
      (expandTag? handles handle suffix).map fun tag => (⟨some name, some tag⟩, rest)
  | .anchor name :: rest => some (⟨some name, none⟩, rest)
  | .tag handle suffix :: rest =>
      (expandTag? handles handle suffix).map fun tag => (⟨none, some tag⟩, rest)
  | tokens => some ({}, tokens)

/-- The tag `!` leaves the kind of a scalar open. -/
def scalarProperties (properties : Properties) : Properties :=
  if properties.tag = some (asciiBytes ['!']) then { properties with tag := none } else properties

/-! ## Grammar -/

/-- What may stand for a missing node before the next token. -/
inductive Place where
  | blockItem
  | indentlessItem
  | blockMapping
  | flowSequence
  | flowMapping
  deriving DecidableEq, Repr

def Place.closedBy : Place → Token → Bool
  | .blockItem, .blockEntry | .blockItem, .blockEnd => true
  | .indentlessItem, .blockEntry | .indentlessItem, .key | .indentlessItem, .value
  | .indentlessItem, .blockEnd => true
  | .blockMapping, .key | .blockMapping, .value | .blockMapping, .blockEnd => true
  | .flowSequence, .flowEntry | .flowSequence, .flowSequenceEnd => true
  | .flowMapping, .flowEntry | .flowMapping, .flowMappingEnd => true
  | _, _ => false

def Place.isBlock : Place → Bool
  | .blockItem | .indentlessItem | .blockMapping => true
  | .flowSequence | .flowMapping => false

mutual

/-- Reads a node; in a block mapping its value may be a sequence of the same indentation. -/
def readNode (handles : TagHandles) (place : Place) :
    Nat → List Token → Option (NamedNode × List Token)
  | 0, _ => none
  | _ + 1, .alias name :: rest => some (.alias name, rest)
  | fuel + 1, tokens =>
      match readProperties handles tokens with
      | none => none
      | some (properties, tokens) =>
          match tokens with
          | .blockEntry :: rest =>
              if place = .blockMapping then
                (readIndentless handles fuel (.blockEntry :: rest)).map fun (items, rest) =>
                  (.sequence properties items, rest)
              else emptyNode properties tokens
          | .scalar text style :: rest =>
              some (.scalar (scalarProperties properties) (String.ofList text) style, rest)
          | .flowSequenceStart :: rest =>
              (readFlowItems handles true fuel rest).map fun (items, rest) =>
                (.sequence properties items, rest)
          | .flowMappingStart :: rest =>
              (readFlowEntries handles true fuel rest).map fun (entries, rest) =>
                (.mapping properties entries, rest)
          | .blockSequenceStart :: rest =>
              if place.isBlock then
                (readBlockItems handles fuel rest).map fun (items, rest) =>
                  (.sequence properties items, rest)
              else emptyNode properties tokens
          | .blockMappingStart :: rest =>
              if place.isBlock then
                (readBlockEntries handles fuel rest).map fun (entries, rest) =>
                  (.mapping properties entries, rest)
              else emptyNode properties tokens
          | _ => emptyNode properties tokens

def emptyNode (properties : Properties) (tokens : List Token) : Option (NamedNode × List Token) :=
  if properties.anchor.isSome || properties.tag.isSome then
    some (.scalar properties "" .plain, tokens)
  else none

def readPlace (handles : TagHandles) (place : Place) :
    Nat → List Token → Option (NamedNode × List Token)
  | 0, _ => none
  | fuel + 1, tokens =>
      match tokens with
      | [] => none
      | token :: rest =>
          if place.closedBy token then some (.missing, token :: rest)
          else readNode handles place fuel (token :: rest)

def readBlockItems (handles : TagHandles) :
    Nat → List Token → Option (List NamedNode × List Token)
  | 0, _ => none
  | fuel + 1, .blockEntry :: rest =>
      match readPlace handles .blockItem fuel rest with
      | none => none
      | some (item, rest) =>
          (readBlockItems handles fuel rest).map fun (items, rest) => (item :: items, rest)
  | _ + 1, .blockEnd :: rest => some ([], rest)
  | _, _ => none

/-- A sequence at the indentation of its mapping ends with its last item. -/
def readIndentless (handles : TagHandles) :
    Nat → List Token → Option (List NamedNode × List Token)
  | 0, _ => none
  | fuel + 1, .blockEntry :: rest =>
      match readPlace handles .indentlessItem fuel rest with
      | none => none
      | some (item, rest) =>
          (readIndentless handles fuel rest).map fun (items, rest) => (item :: items, rest)
  | _ + 1, tokens => some ([], tokens)

def readBlockEntries (handles : TagHandles) :
    Nat → List Token → Option (List (NamedNode × NamedNode) × List Token)
  | 0, _ => none
  | fuel + 1, .key :: rest =>
      match readPlace handles .blockMapping fuel rest with
      | none => none
      | some (key, rest) =>
          match readBlockValue handles fuel rest with
          | none => none
          | some (value, rest) =>
              (readBlockEntries handles fuel rest).map fun (entries, rest) =>
                ((key, value) :: entries, rest)
  | _ + 1, .blockEnd :: rest => some ([], rest)
  | _, _ => none

def readBlockValue (handles : TagHandles) :
    Nat → List Token → Option (NamedNode × List Token)
  | 0, _ => none
  | fuel + 1, .value :: rest => readPlace handles .blockMapping fuel rest
  | _ + 1, tokens => some (.missing, tokens)

/-- Items are separated by commas; one that opens with a key is a mapping of one entry. -/
def readFlowItems (handles : TagHandles) (first : Bool) :
    Nat → List Token → Option (List NamedNode × List Token)
  | 0, _ => none
  | _ + 1, .flowSequenceEnd :: rest => some ([], rest)
  | fuel + 1, tokens =>
      match if first then some tokens else afterComma? tokens with
      | none => none
      | some (.flowSequenceEnd :: rest) => some ([], rest)
      | some (.key :: rest) =>
          match readFlowPair handles fuel rest with
          | none => none
          | some (item, rest) =>
              (readFlowItems handles false fuel rest).map fun (items, rest) =>
                (item :: items, rest)
      | some tokens =>
          match readNode handles .flowSequence fuel tokens with
          | none => none
          | some (item, rest) =>
              (readFlowItems handles false fuel rest).map fun (items, rest) =>
                (item :: items, rest)

def afterComma? : List Token → Option (List Token)
  | .flowEntry :: rest => some rest
  | _ => none

/-- A mapping of one entry inside a flow sequence.  A key that is missing takes the token that
closes its place with it. -/
def readFlowPair (handles : TagHandles) : Nat → List Token → Option (NamedNode × List Token)
  | 0, _ => none
  | fuel + 1, tokens =>
      let key : Option (NamedNode × List Token) := match tokens with
        | .value :: rest | .flowEntry :: rest | .flowSequenceEnd :: rest =>
            some (.missing, rest)
        | _ => readNode handles .flowSequence fuel tokens
      match key with
      | none => none
      | some (key, .value :: rest) =>
          (readPlace handles .flowSequence fuel rest).map fun (value, rest) =>
            (.mapping {} [(key, value)], rest)
      | some (key, rest) => some (.mapping {} [(key, .missing)], rest)

def readFlowEntries (handles : TagHandles) (first : Bool) :
    Nat → List Token → Option (List (NamedNode × NamedNode) × List Token)
  | 0, _ => none
  | _ + 1, .flowMappingEnd :: rest => some ([], rest)
  | fuel + 1, tokens =>
      match if first then some tokens else afterComma? tokens with
      | none => none
      | some (.flowMappingEnd :: rest) => some ([], rest)
      | some (.key :: rest) =>
          match readFlowKey handles fuel rest with
          | none => none
          | some (key, rest) =>
              match readFlowValue handles fuel rest with
              | none => none
              | some (value, rest) =>
                  (readFlowEntries handles false fuel rest).map fun (entries, rest) =>
                    ((key, value) :: entries, rest)
      | some tokens =>
          match readNode handles .flowMapping fuel tokens with
          | none => none
          | some (key, rest) =>
              (readFlowEntries handles false fuel rest).map fun (entries, rest) =>
                ((key, .missing) :: entries, rest)

def readFlowKey (handles : TagHandles) : Nat → List Token → Option (NamedNode × List Token)
  | 0, _ => none
  | _ + 1, .value :: rest => some (.missing, .value :: rest)
  | fuel + 1, tokens => readPlace handles .flowMapping fuel tokens

def readFlowValue (handles : TagHandles) : Nat → List Token → Option (NamedNode × List Token)
  | 0, _ => none
  | fuel + 1, .value :: rest => readPlace handles .flowMapping fuel rest
  | _ + 1, tokens => some (.missing, tokens)

end

/-! ## Documents -/

/-- Reads directives; a version is given at most once and is 1.1 or 1.2, a handle at most once. -/
def readDirectives (version : Bool) (handles : TagHandles) :
    List Token → Option (TagHandles × List Token)
  | .version major minor :: rest =>
      if version ∨ major ≠ 1 ∨ (minor ≠ 1 ∧ minor ≠ 2) then none
      else readDirectives true handles rest
  | .tagHandle handle expansion :: rest =>
      if (handles.lookup handle).isSome then none
      else readDirectives version (handles ++ [(handle, expansion)]) rest
  | tokens => some (handles, tokens)

def endsDocument : Token → Bool
  | .version .. | .tagHandle .. | .documentStart | .documentEnd | .streamEnd => true
  | _ => false

/-- Each token needs at most two steps of fuel. -/
def grammarFuel (tokens : List Token) : Nat :=
  4 * tokens.length + 4

/-- The root of the only document; none inside if the stream is empty. -/
def readRoot (tokens : List Token) : Option (Option NamedNode × List Token) :=
  match tokens with
  | [.streamEnd] => some (none, tokens)
  | .version .. :: _ | .tagHandle .. :: _ | .documentStart :: _ =>
      match readDirectives false [] tokens with
      | some (handles, .documentStart :: rest) =>
          if rest.head?.any endsDocument then some (some .missing, rest)
          else
            (readNode (handles ++ standardHandles) .blockItem (grammarFuel rest) rest).map
              fun (node, rest) => (some node, rest)
      | _ => none
  | _ =>
      (readNode standardHandles .blockItem (grammarFuel tokens) tokens).map
        fun (node, rest) => (some node, rest)

def onlyStreamEnd (tokens : List Token) : Bool :=
  tokens.dropWhile (· == .documentEnd) == [.streamEnd]

def NamedNode.ofText? (text : String) : Option (Option NamedNode) := do
  let tokens ← tokens? text
  let (root, rest) ← readRoot tokens
  if onlyStreamEnd rest then some root else none

end BinarySchema.Yaml
