import BinarySchema.Yaml.Node

/-!
# Documents

A document numbers its anchors and replaces the names in aliases by those numbers.  An anchor gets
the number of names in use when it is met, so giving a name a second time may repeat a number; the
anchor met last holds it.
-/

namespace BinarySchema.Yaml

abbrev NumberedNode := Node Nat

/-- An anchored node with its number and its place in the order of the text. -/
structure Target where
  number : Nat
  position : Nat
  node : NumberedNode

structure Numbering where
  numbers : List (List Char × Nat) := []
  position : Nat := 0
  targets : List Target := []

namespace Numbering

def advance (state : Numbering) : Numbering :=
  { state with position := state.position + 1 }

def define (state : Numbering) (properties : Properties) : Option Nat × Numbering :=
  match properties.anchor with
  | none => (none, state)
  | some name =>
      let number := state.numbers.length
      let others := state.numbers.filter fun entry => entry.1 ≠ name
      (some number, { state with numbers := (name, number) :: others })

def record (state : Numbering) (number : Option Nat) (position : Nat) (node : NumberedNode) :
    Numbering :=
  match number with
  | none => state
  | some number => { state with targets := ⟨number, position, node⟩ :: state.targets }

end Numbering

mutual

/-- Numbers the anchors of a tree; none if an alias comes before any anchor of its name. -/
def numberNode (state : Numbering) : NamedNode → Option (NumberedNode × Numbering)
  | .alias name =>
      (state.numbers.lookup name).map fun number => (.alias number, state.advance)
  | .scalar properties text style =>
      let (number, next) := state.define properties
      let node : NumberedNode := .scalar properties text style
      some (node, next.advance.record number state.position node)
  | .sequence properties items =>
      let (number, next) := state.define properties
      match numberItems next.advance items with
      | none => none
      | some (items, next) =>
          let node : NumberedNode := .sequence properties items
          some (node, next.advance.record number state.position node)
  | .mapping properties entries =>
      let (number, next) := state.define properties
      match numberEntries next.advance entries with
      | none => none
      | some (entries, next) =>
          let node : NumberedNode := .mapping properties entries
          some (node, next.advance.record number state.position node)

def numberItems (state : Numbering) : List NamedNode → Option (List NumberedNode × Numbering)
  | [] => some ([], state)
  | item :: rest =>
      match numberNode state item with
      | none => none
      | some (item, next) =>
          (numberItems next rest).map fun (items, last) => (item :: items, last)

def numberEntries (state : Numbering) :
    List (NamedNode × NamedNode) → Option (List (NumberedNode × NumberedNode) × Numbering)
  | [] => some ([], state)
  | (key, value) :: rest =>
      match numberNode state key with
      | none => none
      | some (key, next) =>
          match numberNode next value with
          | none => none
          | some (value, next) =>
              (numberEntries next rest).map fun (entries, last) => ((key, value) :: entries, last)

end

/-- A numbered tree with its anchored nodes; `size` counts the openings and closings of nodes. -/
structure Document where
  root : Option NumberedNode
  targets : List Target
  size : Nat

namespace Document

def ofText? (text : String) : Option Document := do
  let root ← NamedNode.ofText? text
  match root with
  | none => pure ⟨none, [], 1⟩
  | some node =>
      let (node, state) ← numberNode {} node
      pure ⟨some node, state.targets, state.position⟩

/-- Of the anchors with a number, the one met last. -/
def target? (document : Document) (number : Nat) : Option NumberedNode :=
  (document.targets.foldl (fun found target =>
    if target.number ≠ number then found
    else match found with
      | none => some target
      | some other => if other.position < target.position then some target else some other)
    (none : Option Target)).map Target.node

/-- How many times aliases may be followed. -/
def jumpLimit (document : Document) : Nat :=
  100 * document.size

end Document

end BinarySchema.Yaml
