import BinarySchema.Proofs.Layout.Reach

/-!
# Values as trees

The parts of a value, induction over them, properties that hold at every node, and the scalars at
the leaves in the order in which they are written.
-/

namespace BinarySchema.Value

@[elab_as_elim]
theorem induction {motive : Value → Prop}
    (scalar : ∀ record offset content, motive (.scalar record offset content))
    (struct : ∀ record offset slots, (∀ child, some child ∈ slots → motive child) →
      motive (.struct record offset slots))
    (unset : ∀ record offset, motive (.union record offset none))
    (active : ∀ record offset name child, motive child →
      motive (.union record offset (some (name, child))))
    (array : ∀ record offset items, (∀ item ∈ items, motive item) →
      motive (.array record offset items)) :
    ∀ value, motive value
  | .scalar record offset content => scalar record offset content
  | .struct record offset slots =>
      struct record offset slots fun child _ => induction scalar struct unset active array child
  | .union record offset none => unset record offset
  | .union record offset (some (name, child)) =>
      active record offset name child (induction scalar struct unset active array child)
  | .array record offset items =>
      array record offset items fun item _ => induction scalar struct unset active array item
termination_by value => value
decreasing_by
  all_goals try decreasing_tactic
  have hlt : sizeOf (some child) < sizeOf slots := List.sizeOf_lt_of_mem ‹_›
  simp only [Option.some.sizeOf_spec] at hlt
  simp only [Value.struct.sizeOf_spec]
  omega

def children : Value → List Value
  | .scalar .. => []
  | .struct _ _ slots => slots.filterMap id
  | .union _ _ none => []
  | .union _ _ (some (_, child)) => [child]
  | .array _ _ items => items

variable {record : TypeRecord} {offset : UInt64}

@[simp] theorem children_scalar (content : Option Scalar) :
    (scalar record offset content).children = [] := rfl

@[simp] theorem mem_children_struct {slots : List (Option Value)} {child : Value} :
    child ∈ (struct record offset slots).children ↔ some child ∈ slots := by
  simp [children]

theorem getElem?_ne_of_childless {slots : List (Option Value)}
    (h : (struct record offset slots).children = []) (index : Nat) (child : Value) :
    slots[index]? ≠ some (some child) := by
  intro hchild
  have hmem : child ∈ (struct record offset slots).children :=
    mem_children_struct.mpr (List.mem_of_getElem? hchild)
  rw [h] at hmem
  contradiction

@[simp] theorem children_unset : (union record offset none).children = [] := rfl

@[simp] theorem children_active (name : String) (child : Value) :
    (union record offset (some (name, child))).children = [child] := rfl

@[simp] theorem children_array (items : List Value) :
    (array record offset items).children = items := rfl

/-- A property holds of a value and of everything inside it. -/
inductive Everywhere (P : Value → Prop) : Value → Prop
  | node {value : Value} (here : P value) (inside : ∀ child ∈ value.children, Everywhere P child) :
      Everywhere P value

namespace Everywhere

variable {P Q : Value → Prop} {value : Value}

theorem here (h : Everywhere P value) : P value := by
  cases h
  assumption

theorem inside (h : Everywhere P value) : ∀ child ∈ value.children, Everywhere P child := by
  cases h
  assumption

theorem imp (himp : ∀ value, P value → Q value) (h : Everywhere P value) :
    Everywhere Q value := by
  induction h with
  | node here _ ih => exact .node (himp _ here) ih

theorem and (hp : Everywhere P value) (hq : Everywhere Q value) :
    Everywhere (fun value => P value ∧ Q value) value := by
  induction hp with
  | node here _ ih =>
      exact .node ⟨here, hq.here⟩ fun child hmem => ih child hmem (hq.inside child hmem)

end Everywhere

/-- A value is found inside another, or is the other. -/
def PartOf (part value : Value) : Prop :=
  Relation.ReflTransGen (fun whole child => child ∈ children whole) value part

/-- What goes from values to their children goes to all their parts. -/
theorem PartOf.inherit {P : Value → Prop} {part value : Value} (h : part.PartOf value)
    (hinside : ∀ whole child : Value, P whole → child ∈ whole.children → P child)
    (hvalue : P value) : P part := by
  induction h with
  | refl => exact hvalue
  | tail _ hmem ih => exact hinside _ _ ih hmem

/-! ## Leaves -/

structure Leaf where
  record : TypeRecord
  offset : UInt64
  content : Option Scalar

mutual

def leaves : Value → List Leaf
  | .scalar record offset content => [⟨record, offset, content⟩]
  | .struct _ _ slots => slotLeaves slots
  | .union _ _ none => []
  | .union _ _ (some (_, child)) => leaves child
  | .array _ _ items => itemLeaves items

def slotLeaves : List (Option Value) → List Leaf
  | [] => []
  | none :: rest => slotLeaves rest
  | some child :: rest => leaves child ++ slotLeaves rest

def itemLeaves : List Value → List Leaf
  | [] => []
  | item :: rest => leaves item ++ itemLeaves rest

end

theorem itemLeaves_eq (items : List Value) : itemLeaves items = items.flatMap leaves := by
  induction items with
  | nil => rfl
  | cons item rest ih => simp [itemLeaves, ih]

theorem slotLeaves_eq (slots : List (Option Value)) :
    slotLeaves slots = (slots.filterMap id).flatMap leaves := by
  induction slots with
  | nil => rfl
  | cons entry rest ih => cases entry <;> simp [slotLeaves, ih]

theorem leaves_eq_flatMap {value : Value}
    (hcomposite : ∀ record offset content, value ≠ .scalar record offset content) :
    value.leaves = value.children.flatMap leaves := by
  match value with
  | .scalar record offset content => exact absurd rfl (hcomposite record offset content)
  | .struct record offset slots => simp [leaves, children, slotLeaves_eq]
  | .union record offset none => rfl
  | .union record offset (some (name, child)) => simp [leaves, children]
  | .array record offset items => simp [leaves, children, itemLeaves_eq]

theorem leaves_subset {value child : Value} (h : child ∈ value.children) :
    child.leaves ⊆ value.leaves := by
  have hcomposite : ∀ record offset content, value ≠ .scalar record offset content := by
    rintro record offset content rfl
    cases h
  rw [leaves_eq_flatMap hcomposite]
  exact fun leaf hleaf => List.mem_flatMap.mpr ⟨child, h, hleaf⟩

theorem leaves_struct_map_some (record : TypeRecord) (offset : UInt64) (children : List Value) :
    (Value.struct record offset (children.map some)).leaves = children.flatMap leaves := by
  simp [leaves, slotLeaves_eq]

theorem leaves_array (record : TypeRecord) (offset : UInt64) (items : List Value) :
    (Value.array record offset items).leaves = items.flatMap leaves :=
  itemLeaves_eq items

/-! ### A frame with all its parts set -/

def frameValue (offset : UInt64) : Value :=
  let level := fun index : UInt64 => Value.scalar (.base "level" 4 .floating)
    (offset + 8 + 4 * index) (some (.float (.ofSingle 0x01010101)))
  .struct (.struct "frame" [⟨"tag", "word"⟩, ⟨"body", "choice"⟩, ⟨"levels", "level[2]"⟩]) offset
    [some (.scalar { TypeRecord.base "word" 2 .unsigned with order := .big } offset
      (some (.uint 257))),
    some (.union (.union "choice" [⟨"small", "byte"⟩, ⟨"large", "word"⟩]) (offset + 2)
      (some ("small", .scalar (.base "byte" 1 .unsigned) (offset + 2) (some (.uint 1))))),
    some (.array (.array "level[2]" "level" (some 2)) (offset + 8) [level 0, level 1])]

/-- The parts of the parts of a frame are scalars. -/
theorem everywhere_frameValue {P : Value → Prop} {offset : UInt64} (hframe : P (frameValue offset))
    (hparts : ∀ child ∈ (frameValue offset).children, P child)
    (hleaves : ∀ leaf ∈ (frameValue offset).leaves,
      P (.scalar leaf.record leaf.offset leaf.content)) :
    (frameValue offset).Everywhere P := by
  refine .node hframe fun child hchild => .node (hparts child hchild) fun part hpart => ?_
  have hleaf : ∃ leaf ∈ (frameValue offset).leaves,
      part = .scalar leaf.record leaf.offset leaf.content := by
    simp only [frameValue, mem_children_struct, List.mem_cons, Option.some.injEq,
      List.not_mem_nil, or_false] at hchild
    rcases hchild with rfl | rfl | rfl <;>
      simp_all [frameValue, leaves, slotLeaves, itemLeaves]
  obtain ⟨leaf, hmem, rfl⟩ := hleaf
  exact .node (hleaves leaf hmem) (by simp)

end BinarySchema.Value
