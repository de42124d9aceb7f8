import BinarySchema.Proofs.Value.Tree
import BinarySchema.Value.Placement

/-!
# Moving values

Three properties of the nodes of a value: its shape fits its type, its parts have the types that the
context resolves, and its parts lie where the layout of the type puts them.  A move changes offsets
only, so it keeps the first two; a move that ends well establishes the third for the whole tree.
-/

namespace BinarySchema.Value

/-! ## Properties of nodes -/

/-- The value has the form of its type: entries for the declared slots, an active slot that is
declared. -/
def ShapedHere : Value → Prop
  | .scalar record _ _ => record.kind.isScalar = true
  | .struct record _ slots => record.kind = .struct ∧ slots.length = record.slots.length
  | .union record _ none => record.kind = .union
  | .union record _ (some (name, _)) =>
      record.kind = .union ∧ ∃ slot, record.slot? name = some slot
  | .array record _ _ => record.kind = .array

def OfType (context : Context) (name : String) (value : Value) : Prop :=
  ∃ record, context.resolve? name = some record ∧ value.record.Same record

/-- The parts of the value have the types that its slots or its elements ask for. -/
def TypedHere (context : Context) : Value → Prop
  | .scalar .. => True
  | .struct record _ slots => ∀ (index : Nat) (child : Value), slots[index]? = some (some child) →
      ∃ slot, record.slots[index]? = some slot ∧ child.OfType context slot.typeName
  | .union _ _ none => True
  | .union record _ (some (name, child)) =>
      ∃ slot, record.slot? name = some slot ∧ child.OfType context slot.typeName
  | .array record _ items => ∀ item ∈ items,
      ∃ name, record.element = some name ∧ item.OfType context name

/-- The parts of the value lie where the layout of its type puts them. -/
def PlacedHere (context : Context) : Value → Prop
  | .scalar .. => True
  | .struct record offset slots =>
      ∀ (index : Nat) (child : Value), slots[index]? = some (some child) →
        ∃ (placements : List Placement) (placement : Placement),
          context.slotPlacements record = .ok placements ∧ placements[index]? = some placement ∧
          child.offset.toNat = offset.toNat + placement.offset.toNat
  | .union _ _ none => True
  | .union _ offset (some (_, child)) => child.offset = offset
  | .array record offset items => ∀ (index : Nat) (item : Value), items[index]? = some item →
      ∃ (name : String) (stride : UInt64), record.element = some name ∧ context.sizeOf name = .ok stride ∧
        item.offset.toNat = offset.toNat + index * stride.toNat

abbrev Shaped (value : Value) : Prop :=
  value.Everywhere ShapedHere

abbrev WellTyped (context : Context) (value : Value) : Prop :=
  value.Everywhere (TypedHere context)

abbrev CorrectlyPlaced (context : Context) (value : Value) : Prop :=
  value.Everywhere (PlacedHere context)

/-! ## Values without their places -/

mutual

def unplaced : Value → Value
  | .scalar record _ content => .scalar record 0 content
  | .struct record _ slots => .struct record 0 (unplacedSlots slots)
  | .union record _ none => .union record 0 none
  | .union record _ (some (name, child)) => .union record 0 (some (name, unplaced child))
  | .array record _ items => .array record 0 (unplacedItems items)

def unplacedSlots : List (Option Value) → List (Option Value)
  | [] => []
  | none :: rest => none :: unplacedSlots rest
  | some child :: rest => some (unplaced child) :: unplacedSlots rest

def unplacedItems : List Value → List Value
  | [] => []
  | item :: rest => unplaced item :: unplacedItems rest

end

theorem unplacedSlots_eq_map (slots : List (Option Value)) :
    unplacedSlots slots = slots.map (·.map unplaced) := by
  induction slots with
  | nil => rfl
  | cons entry rest ih => cases entry <;> simp [unplacedSlots, ih]

theorem unplacedItems_eq_map (items : List Value) :
    unplacedItems items = items.map unplaced := by
  induction items with
  | nil => rfl
  | cons item rest ih => simp [unplacedItems, ih]

/-- Which slots are set does not depend on places. -/
theorem forall_unplacedSlots_iff {P : Nat → Prop} {slots : List (Option Value)} :
    (∀ (index : Nat) (child : Value),
      (unplacedSlots slots)[index]? = some (some child) → P index) ↔
      ∀ (index : Nat) (child : Value), slots[index]? = some (some child) → P index := by
  simp only [unplacedSlots_eq_map, List.getElem?_map, Option.map_eq_some_iff]
  constructor
  · intro h index child hchild
    exact h index child.unplaced ⟨_, hchild, child, rfl, rfl⟩
  · rintro h index _ ⟨_, hchild, child, rfl, rfl⟩
    exact h index child hchild

@[simp] theorem record_unplaced (value : Value) : value.unplaced.record = value.record := by
  match value with
  | .scalar .. | .struct .. | .union _ _ none | .union _ _ (some _) | .array .. => rfl

@[simp] theorem children_unplaced (value : Value) :
    value.unplaced.children = value.children.map unplaced := by
  match value with
  | .scalar .. | .union _ _ none | .union _ _ (some _) => rfl
  | .array _ _ items => simp [unplaced, children, unplacedItems_eq_map]
  | .struct _ _ slots =>
      simp only [unplaced, children, unplacedSlots_eq_map, List.filterMap_map, List.map_filterMap]
      rfl

theorem shapedHere_unplaced {value : Value} : value.unplaced.ShapedHere ↔ value.ShapedHere := by
  match value with
  | .scalar .. | .union _ _ none | .union _ _ (some _) | .array .. => rfl
  | .struct .. => simp [unplaced, ShapedHere, unplacedSlots_eq_map]

theorem ofType_unplaced {context : Context} {name : String} {value : Value} :
    value.unplaced.OfType context name ↔ value.OfType context name := by
  simp [OfType]

theorem typedHere_unplaced {context : Context} {value : Value} :
    value.unplaced.TypedHere context ↔ value.TypedHere context := by
  match value with
  | .scalar .. | .union _ _ none => rfl
  | .union _ _ (some _) => simp [unplaced, TypedHere, ofType_unplaced]
  | .array .. => simp [unplaced, TypedHere, unplacedItems_eq_map, ofType_unplaced]
  | .struct record offset slots =>
      simp only [unplaced, TypedHere, unplacedSlots_eq_map, List.getElem?_map,
        Option.map_eq_some_iff]
      constructor
      · intro h index child hchild
        simpa [ofType_unplaced] using h index child.unplaced ⟨_, hchild, child, rfl, rfl⟩
      · rintro h index _ ⟨_, hchild, child, rfl, rfl⟩
        simpa [ofType_unplaced] using h index child hchild

/-- A property of nodes that does not look at offsets holds throughout both of two values that
differ in offsets only. -/
theorem everywhere_of_unplaced_eq {P : Value → Prop}
    (hP : ∀ value : Value, P value.unplaced ↔ P value) {before after : Value}
    (h : after.unplaced = before.unplaced) (hbefore : before.Everywhere P) :
    after.Everywhere P := by
  induction hbefore generalizing after with
  | @node before here _ ih =>
      refine .node ((hP after).mp (h ▸ (hP before).mpr here)) fun child hmem => ?_
      have hchildren : after.children.map unplaced = before.children.map unplaced := by
        rw [← children_unplaced, ← children_unplaced, h]
      obtain ⟨twin, htwin, heq⟩ := List.mem_map.mp (hchildren ▸ List.mem_map_of_mem hmem)
      exact ih twin htwin heq.symm

/-! ### What differs in places only -/

section

variable {value : Value} {record : TypeRecord} {place : UInt64}

theorem exists_of_unplaced_scalar {content : Option Scalar}
    (h : value.unplaced = (Value.scalar record place content).unplaced) :
    ∃ offset, value = .scalar record offset content := by
  match value with
  | .scalar own offset stored =>
      simp only [unplaced, Value.scalar.injEq, true_and] at h
      obtain ⟨rfl, rfl⟩ := h
      exact ⟨offset, rfl⟩
  | .struct .. | .union _ _ none | .union _ _ (some _) | .array .. => simp [unplaced] at h

theorem exists_of_unplaced_struct {slots : List (Option Value)}
    (h : value.unplaced = (Value.struct record place slots).unplaced) :
    ∃ offset own, value = .struct record offset own ∧
      own.map (·.map unplaced) = slots.map (·.map unplaced) := by
  match value with
  | .struct other offset own =>
      simp only [unplaced, Value.struct.injEq, true_and, unplacedSlots_eq_map] at h
      obtain ⟨rfl, hslots⟩ := h
      exact ⟨offset, own, rfl, hslots⟩
  | .scalar .. | .union _ _ none | .union _ _ (some _) | .array .. => simp [unplaced] at h

theorem exists_of_unplaced_active {name : String} {child : Value}
    (h : value.unplaced = (Value.union record place (some (name, child))).unplaced) :
    ∃ offset part, value = .union record offset (some (name, part)) ∧
      part.unplaced = child.unplaced := by
  match value with
  | .union other offset (some (active, part)) =>
      simp only [unplaced, Value.union.injEq, true_and, Option.some.injEq, Prod.mk.injEq] at h
      obtain ⟨rfl, rfl, hpart⟩ := h
      exact ⟨offset, part, rfl, hpart⟩
  | .scalar .. | .union _ _ none | .struct .. | .array .. => simp [unplaced] at h

theorem exists_of_unplaced_array {items : List Value}
    (h : value.unplaced = (Value.array record place items).unplaced) :
    ∃ offset own, value = .array record offset own ∧ own.map unplaced = items.map unplaced := by
  match value with
  | .array other offset own =>
      simp only [unplaced, Value.array.injEq, true_and, unplacedItems_eq_map] at h
      obtain ⟨rfl, hitems⟩ := h
      exact ⟨offset, own, rfl, hitems⟩
  | .scalar .. | .union _ _ none | .union _ _ (some _) | .struct .. => simp [unplaced] at h

theorem getElem?_of_unplaced {own slots : List (Option Value)} {index : Nat} {part : Value}
    (hsame : own.map (·.map unplaced) = slots.map (·.map unplaced))
    (hpart : own[index]? = some (some part)) :
    ∃ old, slots[index]? = some (some old) ∧ part.unplaced = old.unplaced := by
  have hentry := congrArg (·[index]?) hsame
  simp only [List.getElem?_map, hpart, Option.map_some] at hentry
  obtain ⟨entry, hentry, htwin⟩ := Option.map_eq_some_iff.mp hentry.symm
  obtain ⟨old, rfl, hplaces⟩ := Option.map_eq_some_iff.mp htwin
  exact ⟨old, hentry, hplaces.symm⟩

end

/-! ## What a move leaves -/

variable {context : Context}

@[simp] theorem offset_moveTo (context : Context) (value : Value) (offset : UInt64) :
    (value.moveTo context offset).left.offset = offset := by
  match value with
  | .scalar .. | .union _ _ none | .union _ _ (some _) | .array _ _ [] => rfl
  | .struct .. => unfold moveTo; split <;> rfl
  | .array _ _ (_ :: _) =>
      unfold moveTo
      split
      · rfl
      · split <;> rfl

private theorem unplaced_moveSlots {slots : List (Option Value)} (offset : UInt64)
    (placements : List Placement)
    (ih : ∀ child, some child ∈ slots → ∀ start,
      (child.moveTo context start).left.unplaced = child.unplaced) :
    unplacedSlots (moveSlots context offset placements slots).left = unplacedSlots slots := by
  induction slots generalizing placements with
  | nil => cases placements <;> rfl
  | cons entry rest ihrest =>
      have ihrest := fun placements => ihrest placements fun child hmem => ih child (.tail _ hmem)
      cases placements with
      | nil => rfl
      | cons placement placements =>
          cases entry with
          | none => simp [moveSlots, unplacedSlots, ihrest]
          | some child =>
              unfold moveSlots
              split
              · unfold Update.followedBy
                split
                · simp [unplacedSlots, ihrest, ih child (.head _)]
                · simp [unplacedSlots, ih child (.head _)]
              · rfl

private theorem unplaced_moveItems {items : List Value} (offset stride : UInt64) (index : Nat)
    (ih : ∀ item ∈ items, ∀ start,
      (item.moveTo context start).left.unplaced = item.unplaced) :
    unplacedItems (moveItems context offset stride index items).left = unplacedItems items := by
  induction items generalizing index with
  | nil => rfl
  | cons item rest ihrest =>
      have ihrest := fun index => ihrest index fun child hmem => ih child (.tail _ hmem)
      unfold moveItems
      split
      · unfold Update.followedBy
        split
        · simp [unplacedItems, ihrest, ih item (.head _)]
        · simp [unplacedItems, ih item (.head _)]
      · rfl

/-- A move changes offsets only, also when it fails midway. -/
theorem unplaced_moveTo (value : Value) (offset : UInt64) :
    (value.moveTo context offset).left.unplaced = value.unplaced := by
  induction value using Value.induction generalizing offset with
  | scalar | unset => rfl
  | active record own name child ih => simp [moveTo, unplaced, ih]
  | struct record own slots ih =>
      unfold moveTo
      split
      · simp [unplaced, unplaced_moveSlots offset _ ih]
      · rfl
  | array record own items ih =>
      cases items with
      | nil => rfl
      | cons item rest =>
          unfold moveTo
          split
          · rfl
          · split
            · simp [unplaced, unplaced_moveItems offset _ 0 ih]
            · rfl

@[simp] theorem record_moveTo (context : Context) (value : Value) (offset : UInt64) :
    (value.moveTo context offset).left.record = value.record := by
  rw [← record_unplaced, unplaced_moveTo, record_unplaced]

theorem Shaped.moveTo {value : Value} (h : value.Shaped) (context : Context) (offset : UInt64) :
    (value.moveTo context offset).left.Shaped :=
  everywhere_of_unplaced_eq (fun _ => shapedHere_unplaced) (unplaced_moveTo value offset) h

theorem WellTyped.moveTo {resolver : Context} {value : Value} (h : value.WellTyped resolver)
    (context : Context) (offset : UInt64) : (value.moveTo context offset).left.WellTyped resolver :=
  everywhere_of_unplaced_eq (fun _ => typedHere_unplaced) (unplaced_moveTo value offset) h

/-! ## Moves from anywhere -/

private theorem result_moveSlots_unplaced {slots : List (Option Value)} (offset : UInt64)
    {placements : List Placement} (hlength : slots.length = placements.length)
    (ih : ∀ child, some child ∈ slots → ∀ start,
      (child.unplaced.moveTo context start).result = (child.moveTo context start).result) :
    (moveSlots context offset placements (unplacedSlots slots)).result =
      (moveSlots context offset placements slots).result := by
  induction slots generalizing placements with
  | nil => rfl
  | cons entry rest ihrest =>
      obtain ⟨placement, placements, rfl⟩ := List.exists_cons_of_length_eq_add_one hlength.symm
      simp only [List.length_cons, Nat.add_right_cancel_iff] at hlength
      have ihrest := ihrest hlength fun child hmem => ih child (.tail _ hmem)
      cases entry with
      | none => simp only [unplacedSlots, moveSlots, Update.result_within, ihrest]
      | some child =>
          simp only [unplacedSlots, moveSlots]
          split
          · simp only [Update.result_followedBy, ih child (.head _), ihrest]
          · rfl

private theorem result_moveItems_unplaced {items : List Value} (offset stride : UInt64)
    (index : Nat)
    (ih : ∀ item ∈ items, ∀ start,
      (item.unplaced.moveTo context start).result = (item.moveTo context start).result) :
    (moveItems context offset stride index (unplacedItems items)).result =
      (moveItems context offset stride index items).result := by
  induction items generalizing index with
  | nil => rfl
  | cons item rest ihrest =>
      have ihrest := fun index => ihrest index fun child hmem => ih child (.tail _ hmem)
      simp only [unplacedItems, moveItems]
      split
      · simp only [Update.result_followedBy, ih item (.head _), ihrest]
      · rfl

/-- Where a value and its parts lay before makes no difference to a move. -/
theorem result_moveTo_unplaced {value : Value} (hshaped : value.Shaped) (offset : UInt64) :
    (value.unplaced.moveTo context offset).result = (value.moveTo context offset).result := by
  induction value using Value.induction generalizing offset with
  | scalar | unset => rfl
  | active record own name child ih =>
      simp only [unplaced, moveTo, Update.result_within, ih (hshaped.inside child (by simp))]
  | struct record own slots ih =>
      simp only [unplaced, moveTo]
      split
      · rename_i placements hplacements
        have hlength : slots.length = placements.length :=
          hshaped.here.2.trans (Context.length_slotPlacements hplacements).symm
        rw [Update.result_within, Update.result_within,
          result_moveSlots_unplaced offset hlength fun child hmem =>
            ih child hmem (hshaped.inside child (mem_children_struct.mpr hmem))]
      · rfl
  | array record own items ih =>
      cases items with
      | nil => rfl
      | cons item rest =>
          have hitems := fun stride => result_moveItems_unplaced offset stride 0 fun child hmem =>
            ih child hmem (hshaped.inside child hmem)
          simp only [unplacedItems] at hitems
          simp only [unplaced, unplacedItems, moveTo]
          split
          · rfl
          · split
            · rw [Update.result_within, Update.result_within, hitems]
            · rfl

theorem result_moveTo_congr {before after : Value} (hshaped : before.Shaped)
    (h : after.unplaced = before.unplaced) (offset : UInt64) :
    (after.moveTo context offset).result = (before.moveTo context offset).result := by
  have hafter : after.Shaped := everywhere_of_unplaced_eq (fun _ => shapedHere_unplaced) h hshaped
  rw [← result_moveTo_unplaced hafter, h, result_moveTo_unplaced hshaped]

/-! ## Moves that end well -/

theorem moveTo_struct_eq_done_iff {record : TypeRecord} {own offset : UInt64}
    {slots : List (Option Value)} {after : Value} :
    (Value.struct record own slots).moveTo context offset = .done after ↔
      ∃ placements moved, context.slotPlacements record = .ok placements ∧
        moveSlots context offset placements slots = .done moved ∧
        after = .struct record offset moved := by
  unfold Value.moveTo
  split
  · rename_i placements hplacements
    simp [Update.within_eq_done_iff, hplacements]
  · rename_i failure hplacements
    simp [hplacements]

theorem moveTo_active_eq_done_iff {record : TypeRecord} {own offset : UInt64} {name : String}
    {child after : Value} :
    (Value.union record own (some (name, child))).moveTo context offset = .done after ↔
      ∃ moved, child.moveTo context offset = .done moved ∧
        after = .union record offset (some (name, moved)) := by
  simp [Value.moveTo, Update.within_eq_done_iff]

theorem moveTo_array_eq_done_iff {record : TypeRecord} {own offset : UInt64} {first : Value}
    {rest : List Value} {after : Value} :
    (Value.array record own (first :: rest)).moveTo context offset = .done after ↔
      ∃ name stride moved, record.element = some name ∧ context.sizeOf name = .ok stride ∧
        moveItems context offset stride 0 (first :: rest) = .done moved ∧
        after = .array record offset moved := by
  unfold Value.moveTo
  split
  · rename_i failure helement
    simp only [Update.failed_ne_done, false_iff]
    rintro ⟨name, stride, moved, hname, -⟩
    rw [← Context.elementName_eq_ok_iff, helement] at hname
    contradiction
  · rename_i name helement
    rw [Context.elementName_eq_ok_iff] at helement
    split
    · rename_i stride hstride
      simp [Update.within_eq_done_iff, helement, hstride]
    · rename_i failure hstride
      simp [helement, hstride]

/-- Every slot content after a move of the slots is what was there, moved to the slot's place. -/
theorem getElem?_moveSlots {offset : UInt64} {placements : List Placement}
    {slots moved : List (Option Value)} (hlength : slots.length = placements.length)
    (h : moveSlots context offset placements slots = .done moved) {index : Nat} {after : Value}
    (hafter : moved[index]? = some (some after)) :
    ∃ child placement start, slots[index]? = some (some child) ∧
      placements[index]? = some placement ∧ addOffset offset placement.offset = .ok start ∧
      child.moveTo context start = .done after := by
  induction slots generalizing placements moved index with
  | nil =>
      cases placements <;> cases h <;> simp at hafter
  | cons entry rest ih =>
      obtain ⟨placement, placements, rfl⟩ := List.exists_cons_of_length_eq_add_one hlength.symm
      simp only [List.length_cons, Nat.add_right_cancel_iff] at hlength
      cases entry with
      | none =>
          obtain ⟨others, hothers, rfl⟩ := Update.within_eq_done_iff.mp h
          cases index with
          | zero => simp at hafter
          | succ index => exact ih hlength hothers hafter
      | some child =>
          unfold moveSlots at h
          split at h
          · rename_i start hstart
            obtain ⟨first, others, hfirst, hothers, rfl⟩ := Update.followedBy_eq_done_iff.mp h
            cases index with
            | zero =>
                cases hafter
                exact ⟨child, placement, start, rfl, rfl, hstart, hfirst⟩
            | succ index => exact ih hlength hothers hafter
          · exact absurd h (Update.failed_ne_done _ _ _)

theorem getElem?_moveItems {offset stride : UInt64} {number : Nat} {items moved : List Value}
    (h : moveItems context offset stride number items = .done moved) {index : Nat} {after : Value}
    (hafter : moved[index]? = some after) :
    ∃ item start, items[index]? = some item ∧
      elementOffset offset (number + index) stride = .ok start ∧
      item.moveTo context start = .done after := by
  induction items generalizing number moved index with
  | nil =>
      cases h
      simp at hafter
  | cons item rest ih =>
      unfold moveItems at h
      split at h
      · rename_i start hstart
        obtain ⟨first, others, hfirst, hothers, rfl⟩ := Update.followedBy_eq_done_iff.mp h
        cases index with
        | zero =>
            cases hafter
            exact ⟨item, start, rfl, hstart, hfirst⟩
        | succ index =>
            obtain ⟨twin, place, htwin, hplace, hmove⟩ := ih hothers hafter
            exact ⟨twin, place, htwin, by rwa [← Nat.add_assoc, Nat.add_right_comm], hmove⟩
      · exact absurd h (Update.failed_ne_done _ _ _)

theorem offset_of_moveTo {value after : Value} {offset : UInt64}
    (h : value.moveTo context offset = .done after) : after.offset = offset := by
  have hoffset := offset_moveTo context value offset
  rwa [h] at hoffset

theorem record_of_moveTo {value after : Value} {offset : UInt64}
    (h : value.moveTo context offset = .done after) : after.record = value.record := by
  have hrecord := record_moveTo context value offset
  rwa [h] at hrecord

theorem unplaced_of_moveTo {value after : Value} {offset : UInt64}
    (h : value.moveTo context offset = .done after) : after.unplaced = value.unplaced := by
  have hunplaced := @unplaced_moveTo context value offset
  rwa [h] at hunplaced

/-- A move that ends well places the whole tree, wherever its parts lay before. -/
theorem correctlyPlaced_of_moveTo {value after : Value} {offset : UInt64} (hshaped : value.Shaped)
    (h : value.moveTo context offset = .done after) : after.CorrectlyPlaced context := by
  induction value using Value.induction generalizing offset after with
  | scalar | unset =>
      cases h
      exact .node trivial (by simp)
  | active record own name child ih =>
      obtain ⟨moved, hmoved, rfl⟩ := moveTo_active_eq_done_iff.mp h
      refine .node (offset_of_moveTo hmoved) ?_
      simpa using ih (hshaped.inside child (by simp)) hmoved
  | struct record own slots ih =>
      obtain ⟨placements, moved, hplacements, hmoved, rfl⟩ := moveTo_struct_eq_done_iff.mp h
      have hlength : slots.length = placements.length := by
        rw [Context.length_slotPlacements hplacements]
        exact hshaped.here.2
      refine .node ?_ ?_
      · intro index after hafter
        obtain ⟨child, placement, start, -, hplacement, hstart, hmove⟩ :=
          getElem?_moveSlots hlength hmoved hafter
        refine ⟨placements, placement, hplacements, hplacement, ?_⟩
        rw [offset_of_moveTo hmove]
        exact addOffset_eq_ok_iff.mp hstart
      · intro after hmem
        obtain ⟨index, hafter⟩ := List.getElem?_of_mem (mem_children_struct.mp hmem)
        obtain ⟨child, placement, start, hchild, -, -, hmove⟩ :=
          getElem?_moveSlots hlength hmoved hafter
        have hmem := List.mem_of_getElem? hchild
        exact ih child hmem (hshaped.inside child (mem_children_struct.mpr hmem)) hmove
  | array record own items ih =>
      cases items with
      | nil =>
          cases h
          exact .node (by simp [PlacedHere]) (by simp)
      | cons first rest =>
          obtain ⟨name, stride, moved, helement, hstride, hmoved, rfl⟩ :=
            moveTo_array_eq_done_iff.mp h
          refine .node ?_ ?_
          · intro index after hafter
            obtain ⟨item, start, -, hstart, hmove⟩ := getElem?_moveItems hmoved hafter
            refine ⟨name, stride, helement, hstride, ?_⟩
            rw [offset_of_moveTo hmove, ← Nat.zero_add index]
            exact elementOffset_eq_ok_iff.mp hstart
          · intro after hmem
            obtain ⟨index, hafter⟩ := List.getElem?_of_mem hmem
            obtain ⟨item, start, hitem, -, hmove⟩ := getElem?_moveItems hmoved hafter
            have hmem := List.mem_of_getElem? hitem
            exact ih item hmem (hshaped.inside item hmem) hmove

end BinarySchema.Value
