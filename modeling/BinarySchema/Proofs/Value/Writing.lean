import BinarySchema.Proofs.Codec
import BinarySchema.Proofs.Value.Move

/-!
# Writing values

A value can be written when nothing in it is missing; then the writing of it is the writing of its
leaves one after the other.
-/

namespace BinarySchema

namespace Value

variable {context : Context} {buffer written : Buffer}

/-! ## Complete values -/

/-- Every slot is set, the union has an active slot, the array has its declared length. -/
def CompleteHere : Value → Prop
  | .scalar .. => True
  | .struct _ _ slots => none ∉ slots
  | .union _ _ active => active.isSome = true
  | .array record _ items => ∀ length ∈ record.length, items.length = length.toNat

abbrev Complete (value : Value) : Prop :=
  value.Everywhere CompleteHere

theorem complete_iff {value : Value} :
    value.Complete ↔ value.CompleteHere ∧ ∀ child ∈ value.children, child.Complete :=
  ⟨fun h => ⟨h.here, h.inside⟩, fun h => .node h.1 h.2⟩

theorem exists_map_some {slots : List (Option Value)} (h : none ∉ slots) :
    ∃ parts : List Value, slots = parts.map some := by
  induction slots with
  | nil => exact ⟨[], rfl⟩
  | cons entry rest ih =>
      obtain ⟨parts, rfl⟩ := ih fun hmem => h (.tail _ hmem)
      cases entry with
      | none => exact absurd (.head _) h
      | some part => exact ⟨part :: parts, rfl⟩

/-! ## Writing leaves -/

def Leaf.Writes (context : Context) (leaf : Leaf) (before after : Buffer) : Prop :=
  ∃ codec content word, context.scalarCodec leaf.record = .ok codec ∧
    leaf.content = some content ∧ codec.fits before leaf.offset = true ∧
    codec.encoding.encode? content = some word ∧
    after = before.overwrite leaf.offset.toNat (codec.bytesOf word)

inductive WritesAll (context : Context) : List Leaf → Buffer → Buffer → Prop
  | nil {buffer : Buffer} : WritesAll context [] buffer buffer
  | cons {leaf : Leaf} {rest : List Leaf} {before middle after : Buffer}
      (hleaf : leaf.Writes context before middle) (hrest : WritesAll context rest middle after) :
      WritesAll context (leaf :: rest) before after

theorem writesAll_append {front back : List Leaf} {before after : Buffer} :
    WritesAll context (front ++ back) before after ↔
      ∃ middle, WritesAll context front before middle ∧ WritesAll context back middle after := by
  induction front generalizing before with
  | nil =>
      constructor
      · intro h
        exact ⟨before, .nil, h⟩
      · rintro ⟨middle, ⟨⟩, hback⟩
        exact hback
  | cons leaf rest ih =>
      constructor
      · intro h
        cases h with
        | cons hleaf hrest =>
            obtain ⟨middle, hfront, hback⟩ := ih.mp hrest
            exact ⟨middle, .cons hleaf hfront, hback⟩
      · rintro ⟨middle, hfront, hback⟩
        cases hfront with
        | cons hleaf hrest => exact .cons hleaf (ih.mpr ⟨middle, hrest, hback⟩)

/-! ## Values as their leaves -/

private theorem writeScalar_eq_done_iff {record : TypeRecord} {offset : UInt64} {content : Scalar} :
    writeScalar context record offset content buffer = .done written ↔
      Leaf.Writes context ⟨record, offset, some content⟩ buffer written := by
  unfold writeScalar Leaf.Writes
  cases hcodec : context.scalarCodec record with
  | error failure => simp
  | ok codec =>
      dsimp only
      cases hwrite : codec.write buffer offset content record.name with
      | error failure =>
          simp only [Update.failed_ne_done, false_iff]
          rintro ⟨other, stored, word, hother, hstored, hfits, hword, rfl⟩
          cases hother
          cases hstored
          rw [ScalarCodec.write_eq_ok_iff.mpr ⟨hfits, word, hword, rfl⟩] at hwrite
          contradiction
      | ok after =>
          obtain ⟨hfits, word, hword, rfl⟩ := ScalarCodec.write_eq_ok_iff.mp hwrite
          constructor
          · intro h
            cases h
            exact ⟨codec, content, word, rfl, rfl, hfits, hword, rfl⟩
          · rintro ⟨other, stored, found, hother, hstored, -, hfound, rfl⟩
            cases hother
            cases hstored
            cases hword.symm.trans hfound
            rfl

private theorem writeSlots_cons_eq_done_iff {typeName : String} {slot : Slot} {slots : List Slot}
    {child : Value} {rest : List (Option Value)} :
    writeSlots context typeName buffer (slot :: slots) (some child :: rest) = .done written ↔
      ∃ middle, child.write context buffer = .done middle ∧
        writeSlots context typeName middle slots rest = .done written := by
  rw [writeSlots]
  generalize child.write context buffer = first
  obtain ⟨left, outcome⟩ := first
  cases outcome <;> simp [Update.done]

private theorem writeItems_cons_eq_done_iff {item : Value} {rest : List Value} :
    writeItems context buffer (item :: rest) = .done written ↔
      ∃ middle, item.write context buffer = .done middle ∧
        writeItems context middle rest = .done written := by
  rw [writeItems]
  generalize item.write context buffer = first
  obtain ⟨left, outcome⟩ := first
  cases outcome <;> simp [Update.done]

private theorem writeSlots_eq_done_iff {typeName : String} {slots : List Slot}
    {entries : List (Option Value)} (hlength : entries.length = slots.length)
    (ih : ∀ child, some child ∈ entries → ∀ before after,
      child.write context before = .done after ↔
        child.Complete ∧ WritesAll context child.leaves before after) :
    writeSlots context typeName buffer slots entries = .done written ↔
      none ∉ entries ∧ (∀ child, some child ∈ entries → child.Complete) ∧
        WritesAll context (slotLeaves entries) buffer written := by
  induction entries generalizing buffer slots with
  | nil =>
      cases List.length_eq_zero_iff.mp hlength.symm
      simp only [writeSlots, slotLeaves, List.not_mem_nil, not_false_eq_true, false_implies,
        implies_true, true_and]
      constructor
      · rintro ⟨⟩
        exact .nil
      · rintro ⟨⟩
        rfl
  | cons entry rest ihrest =>
      obtain ⟨slot, slots, rfl⟩ := List.exists_cons_of_length_eq_add_one hlength.symm
      simp only [List.length_cons, Nat.add_right_cancel_iff] at hlength
      cases entry with
      | none => simp [writeSlots]
      | some child =>
          have hrest := fun before => @ihrest before slots hlength
            fun other hmem => ih other (.tail _ hmem)
          simp only [writeSlots_cons_eq_done_iff, slotLeaves, writesAll_append,
            ih child (.head _), hrest, List.mem_cons, reduceCtorEq, false_or, Option.some.injEq,
            forall_eq_or_imp]
          constructor
          · rintro ⟨middle, ⟨hchild, hfirst⟩, hset, hcomplete, hothers⟩
            exact ⟨hset, ⟨hchild, hcomplete⟩, middle, hfirst, hothers⟩
          · rintro ⟨hset, ⟨hchild, hcomplete⟩, middle, hfirst, hothers⟩
            exact ⟨middle, ⟨hchild, hfirst⟩, hset, hcomplete, hothers⟩

private theorem writeItems_eq_done_iff {items : List Value}
    (ih : ∀ item ∈ items, ∀ before after,
      item.write context before = .done after ↔
        item.Complete ∧ WritesAll context item.leaves before after) :
    writeItems context buffer items = .done written ↔
      (∀ item ∈ items, item.Complete) ∧ WritesAll context (itemLeaves items) buffer written := by
  induction items generalizing buffer with
  | nil =>
      simp only [writeItems, itemLeaves, List.not_mem_nil, false_implies, implies_true, true_and]
      constructor
      · rintro ⟨⟩
        exact .nil
      · rintro ⟨⟩
        rfl
  | cons item rest ihrest =>
      have hrest := fun before => @ihrest before fun other hmem => ih other (.tail _ hmem)
      simp only [writeItems_cons_eq_done_iff, itemLeaves, writesAll_append, ih item (.head _), hrest,
        List.mem_cons, forall_eq_or_imp]
      constructor
      · rintro ⟨middle, ⟨hitem, hfirst⟩, hcomplete, hothers⟩
        exact ⟨⟨hitem, hcomplete⟩, middle, hfirst, hothers⟩
      · rintro ⟨⟨hitem, hcomplete⟩, middle, hfirst, hothers⟩
        exact ⟨middle, ⟨hitem, hfirst⟩, hcomplete, hothers⟩

/-- A write succeeds when the value is complete and its leaves can be written in order. -/
theorem write_eq_done_iff {value : Value} (hshaped : value.Shaped) :
    value.write context buffer = .done written ↔
      value.Complete ∧ WritesAll context value.leaves buffer written := by
  induction value using Value.induction generalizing buffer written with
  | scalar record offset content =>
      have hcomplete : (Value.scalar record offset content).Complete := .node trivial (by simp)
      have hleaves : WritesAll context [⟨record, offset, content⟩] buffer written ↔
          Leaf.Writes context ⟨record, offset, content⟩ buffer written := by
        constructor
        · rintro (_ | ⟨hleaf, ⟨⟩⟩)
          exact hleaf
        · exact fun hleaf => .cons hleaf .nil
      simp only [leaves, hleaves, hcomplete, true_and]
      cases content with
      | none => simp [write, Leaf.Writes]
      | some content => simp only [write, writeScalar_eq_done_iff]
  | unset record offset =>
      rw [complete_iff]
      simp [write, CompleteHere]
  | active record offset name child ih =>
      rw [complete_iff]
      simp only [write, leaves, CompleteHere, Option.isSome_some, children_active,
        List.mem_singleton, forall_eq, true_and]
      exact ih (hshaped.inside child (by simp))
  | struct record offset slots ih =>
      rw [complete_iff]
      simp only [write, leaves, CompleteHere, mem_children_struct, and_assoc]
      exact writeSlots_eq_done_iff hshaped.here.2 fun child hmem _ _ =>
        ih child hmem (hshaped.inside child (mem_children_struct.mpr hmem))
  | array record offset items ih =>
      have hitems : writeItems context buffer items = .done written ↔
          (∀ item ∈ items, item.Complete) ∧
            WritesAll context (itemLeaves items) buffer written :=
        writeItems_eq_done_iff fun item hmem _ _ => ih item hmem (hshaped.inside item hmem)
      rw [complete_iff]
      simp only [write, leaves, CompleteHere, children_array, and_assoc]
      cases record.length with
      | none => simp [hitems]
      | some length =>
          by_cases hlength : length.toNat = items.length
          · simp [hitems, hlength]
          · simp [hlength, Ne.symm hlength]

end Value

end BinarySchema
