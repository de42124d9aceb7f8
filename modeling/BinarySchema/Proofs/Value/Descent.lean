import Mathlib.Data.List.OfFn
import BinarySchema.Proofs.Value.Reading

/-!
# Descending into fresh values

A read of a named type starts from a blank value and makes blank values for its parts.  Once those
are known to exist, one level of reading is the reading of the parts.
-/

namespace BinarySchema.Value

variable {context : Context} {buffer : Buffer}

/-! ## Blank values -/

/-- The value of a type at an offset before anything is assigned. -/
def blank (record : TypeRecord) (offset : UInt64) : Value :=
  match record.kind with
  | .struct => .struct record offset (record.slots.map fun _ => none)
  | .union => .union record offset none
  | .array => .array record offset []
  | .base | .alien | .const => .scalar record offset none

@[simp] theorem record_blank (record : TypeRecord) (offset : UInt64) :
    (blank record offset).record = record := by
  unfold blank
  cases record.kind <;> rfl

@[simp] theorem offset_blank (record : TypeRecord) (offset : UInt64) :
    (blank record offset).offset = offset := by
  unfold blank
  cases record.kind <;> rfl

theorem active?_blank (record : TypeRecord) (offset : UInt64) :
    (blank record offset).active? = none := by
  unfold blank
  cases record.kind <;> rfl

theorem shapedHere_blank {record : TypeRecord} (hkind : record.kind ≠ .const) (offset : UInt64) :
    (blank record offset).ShapedHere := by
  unfold blank
  cases hrecord : record.kind <;> simp_all [ShapedHere, Kind.isScalar]

theorem blank_of_isScalar {record : TypeRecord} {offset : UInt64}
    (h : record.kind.isScalar = true) : blank record offset = .scalar record offset none := by
  unfold blank
  cases hkind : record.kind <;> simp_all [Kind.isScalar]

private theorem moveSlots_unset (offset : UInt64) (placements : List Placement)
    (slots : List Slot) :
    moveSlots context offset placements (slots.map fun _ => none) =
      .done (slots.map fun _ => none) := by
  induction slots generalizing placements with
  | nil => cases placements <;> rfl
  | cons slot rest ih =>
      cases placements with
      | nil => rfl
      | cons placement placements =>
          simp only [List.map_cons, moveSlots, ih]
          rfl

theorem FreshPart.eq_blank {name : String} {start : UInt64} {part : Value}
    (h : FreshPart context name start part) :
    ∃ record, context.resolve? name = some record ∧ record.kind ≠ .const ∧
      part = blank record start := by
  obtain ⟨fresh, hfresh, hmove⟩ := h
  obtain ⟨record, hresolve, hempty⟩ := create_eq_ok_iff.mp hfresh
  refine ⟨record, hresolve, ?_⟩
  unfold empty at hempty
  split at hempty <;> rename_i hkind
  · cases hempty
    cases hmove
    exact ⟨by simp [hkind], by simp [blank, hkind]⟩
  · cases hempty
    cases hmove
    exact ⟨by simp [hkind], by simp [blank, hkind]⟩
  · cases hempty
    obtain ⟨placements, moved, -, hmoved, rfl⟩ := moveTo_struct_eq_done_iff.mp hmove
    rw [moveSlots_unset] at hmoved
    cases hmoved
    exact ⟨by simp [hkind], by simp [blank, hkind]⟩
  · cases hempty
    cases hmove
    exact ⟨by simp [hkind], by simp [blank, hkind]⟩
  · cases hempty
    cases hmove
    exact ⟨by simp [hkind], by simp [blank, hkind]⟩
  · contradiction

/-- A type that values have, and whose slots have places if it is a struct, has a blank value at
every offset. -/
theorem freshPart_blank {name : String} {record : TypeRecord}
    (hresolve : context.resolve? name = some record) (hkind : record.kind ≠ .const)
    (hlayout : record.kind = .struct → ∃ placements, context.slotPlacements record = .ok placements)
    (start : UInt64) : FreshPart context name start (blank record start) := by
  have hfresh : ∀ {fresh}, empty record = .ok fresh → context.create name = .ok fresh :=
    fun hempty => create_eq_ok_iff.mpr ⟨record, hresolve, hempty⟩
  cases hrecord : record.kind with
  | const => exact absurd hrecord hkind
  | base | alien | union | array =>
      exact ⟨_, hfresh (by rw [empty, hrecord]), by simp [blank, hrecord, moveTo]⟩
  | struct =>
      obtain ⟨placements, hplacements⟩ := hlayout hrecord
      refine ⟨_, hfresh (by rw [empty, hrecord]), ?_⟩
      exact moveTo_struct_eq_done_iff.mpr
        ⟨placements, _, hplacements, moveSlots_unset start placements record.slots,
          by simp [blank, hrecord]⟩

/-- What can be made at one offset can be made at every other. -/
theorem FreshPart.blank_at {name : String} {start : UInt64} {part : Value}
    (h : FreshPart context name start part) (place : UInt64) :
    ∃ record, context.resolve? name = some record ∧ part = blank record start ∧
      FreshPart context name place (blank record place) := by
  obtain ⟨record, hresolve, hkind, hblank⟩ := h.eq_blank
  refine ⟨record, hresolve, hblank, freshPart_blank hresolve hkind (fun hstruct => ?_) place⟩
  obtain ⟨fresh, hfresh, hmove⟩ := h
  obtain ⟨found, hfound, hempty⟩ := create_eq_ok_iff.mp hfresh
  cases hresolve.symm.trans hfound
  rw [empty, hstruct] at hempty
  cases hempty
  obtain ⟨placements, -, hplacements, -⟩ := moveTo_struct_eq_done_iff.mp hmove
  exact ⟨placements, hplacements⟩

theorem freshPart_of_sized {name : String} {record : TypeRecord} {size : UInt64}
    (hresolve : context.resolve? name = some record) (hkind : record.kind ≠ .const)
    (hcontents : record.SizedByContents) (hsize : context.sizeOf name = .ok size)
    (start : UInt64) : FreshPart context name start (blank record start) := by
  refine freshPart_blank hresolve hkind (fun hstruct => ?_) start
  obtain ⟨other, hother, hrecord⟩ := Context.sizeOf_eq_ok_iff.mp hsize
  cases hresolve.symm.trans hother
  have hnone := hcontents (by simp [hstruct, Kind.isComposite])
  obtain ⟨placements, hplacements, -⟩ := Context.placements_of_sizeOfRecord hstruct hnone hrecord
  exact ⟨placements, hplacements⟩

/-! ## One level of reading -/

theorem exists_list_of_forall {α : Type} {R : Nat → α → Prop} {count : Nat}
    (h : ∀ index < count, ∃ a, R index a) :
    ∃ list : List α, list.length = count ∧ ∀ index a, list[index]? = some a → R index a := by
  choose choice hchoice using fun index : Fin count => h index index.isLt
  refine ⟨List.ofFn choice, List.length_ofFn, fun index a ha => ?_⟩
  obtain ⟨hlt, rfl⟩ := List.getElem?_eq_some_iff.mp ha
  rw [List.getElem_ofFn]
  exact hchoice ⟨index, _⟩

theorem exists_slotParts {record : TypeRecord} {placements : List Placement}
    (hplacements : context.slotPlacements record = .ok placements) (offset : UInt64)
    (h : ∀ (index : Nat) (slot : Slot) (placement : Placement), record.slots[index]? = some slot →
      placements[index]? = some placement →
      ∃ start part, addOffset offset placement.offset = .ok start ∧
        FreshPart context slot.typeName start part) :
    ∃ parts, SlotParts context record offset placements parts := by
  have hpart : ∀ index < record.slots.length, ∃ part slot placement start,
      record.slots[index]? = some slot ∧ placements[index]? = some placement ∧
      addOffset offset placement.offset = .ok start ∧
      FreshPart context slot.typeName start part := by
    intro index hindex
    have hslot := List.getElem?_eq_getElem hindex
    have hplacement := List.getElem?_eq_getElem
      (Context.length_slotPlacements hplacements ▸ hindex)
    obtain ⟨start, part, hstart, hpart⟩ := h index _ _ hslot hplacement
    exact ⟨part, _, _, start, hslot, hplacement, hstart, hpart⟩
  obtain ⟨parts, hlength, hparts⟩ := exists_list_of_forall hpart
  exact ⟨parts, hplacements, hlength, hparts⟩

private theorem freshSlots_moveSlots {offset : UInt64} {slots : List Slot}
    {entries : List (Option Value)} {placements : List Placement} {parts : List Value}
    (hentries : entries.length = slots.length) (hplacements : placements.length = slots.length)
    (hparts : parts.length = slots.length)
    (hfresh : ∀ (index : Nat) (part : Value), parts[index]? = some part →
      ∃ slot placement start, slots[index]? = some slot ∧ placements[index]? = some placement ∧
        addOffset offset placement.offset = .ok start ∧
        FreshPart context slot.typeName start part) :
    ∃ created, freshSlots context slots entries = .done created ∧
      moveSlots context offset placements created = .done (parts.map some) := by
  induction slots generalizing entries placements parts with
  | nil =>
      cases List.length_eq_zero_iff.mp hentries
      cases List.length_eq_zero_iff.mp hplacements
      cases List.length_eq_zero_iff.mp hparts
      exact ⟨[], rfl, rfl⟩
  | cons slot slots ih =>
      obtain ⟨old, entries, rfl⟩ := List.exists_cons_of_length_eq_add_one hentries
      obtain ⟨placement, placements, rfl⟩ := List.exists_cons_of_length_eq_add_one hplacements
      obtain ⟨part, parts, rfl⟩ := List.exists_cons_of_length_eq_add_one hparts
      simp only [List.length_cons, Nat.add_right_cancel_iff] at hentries hplacements hparts
      obtain ⟨_, _, start, ⟨⟩, ⟨⟩, hstart, fresh, hcreate, hmove⟩ := hfresh 0 part rfl
      obtain ⟨created, hcreated, hmoved⟩ := ih hentries hplacements hparts
        fun index => hfresh (index + 1)
      refine ⟨some fresh :: created, ?_, ?_⟩
      · simp only [freshSlots, hcreate, hcreated]
        rfl
      · simp only [moveSlots, hstart]
        exact Update.followedBy_eq_done_iff.mpr ⟨part, parts.map some, hmove, hmoved, rfl⟩

variable {record : TypeRecord} {offset : UInt64} {fuel : Nat}

theorem readWithin_struct {slots : List (Option Value)} {placements : List Placement}
    {parts : List Value} (hlength : slots.length = record.slots.length)
    (hparts : SlotParts context record offset placements parts) :
    readWithin context buffer (fuel + 1) (.struct record offset slots) =
      (readSlots (readWithin context buffer fuel) (parts.map some)).map
        (Update.within (.struct record offset)) := by
  obtain ⟨created, hcreated, hmoved⟩ := freshSlots_moveSlots hlength
    (Context.length_slotPlacements hparts.placements_eq) hparts.length_eq hparts.fresh
  have hplaced : (Value.struct record offset created).moveTo context offset =
      .done (.struct record offset (parts.map some)) :=
    moveTo_struct_eq_done_iff.mpr ⟨placements, _, hparts.placements_eq, hmoved, rfl⟩
  simp only [readWithin, hcreated, Update.outcome_done, Update.left_done, hplaced]
  cases readSlots (readWithin context buffer fuel) (parts.map some) <;> rfl

theorem readWithin_first {slot : Slot} {rest : List Slot} {part : Value}
    (hslots : record.slots = slot :: rest)
    (hpart : FreshPart context slot.typeName offset part) :
    readWithin context buffer (fuel + 1) (.union record offset none) =
      (readWithin context buffer fuel part).map
        (Update.within fun child => .union record offset (some (slot.name, child))) := by
  obtain ⟨fresh, hfresh, hmove⟩ := hpart
  simp only [readWithin, hslots, hfresh, hmove, Update.outcome_done, Update.left_done]
  cases readWithin context buffer fuel part <;> rfl

theorem readWithin_array {items : List Value} {length stride : UInt64} {name : String}
    (hlength : readLength context record = .ok length) (helement : record.element = some name)
    (hstride : context.sizeOf name = .ok stride) :
    readWithin context buffer (fuel + 1) (.array record offset items) =
      (readItems (readWithin context buffer fuel) (freshElement context name offset stride)
        length.toNat 0).map (Update.within (.array record offset)) := by
  have hname : record.elementName = .ok name := Context.elementName_eq_ok_iff.mpr helement
  simp only [readWithin, hlength, hname, hstride, ok_bind, pure, Except.pure]
  cases readItems (readWithin context buffer fuel) (freshElement context name offset stride)
    length.toNat 0 <;> rfl

theorem readSlots_of_forall₂ {step : Value → Option (Update Value)} {parts children : List Value}
    (h : List.Forall₂ (fun part child => step part = some (.done child)) parts children) :
    readSlots step (parts.map some) = some (.done (children.map some)) := by
  induction h with
  | nil => rfl
  | cons hhead _ ih =>
      simp only [List.map_cons, readSlots, hhead, ih]
      rfl

theorem readItems_of_forall₂ {step : Value → Option (Update Value)}
    {make : Nat → Except Error Value} {parts children : List Value} (number : Nat)
    (hmake : ∀ index part, parts[index]? = some part → make (number + index) = .ok part)
    (h : List.Forall₂ (fun part child => step part = some (.done child)) parts children) :
    readItems step make parts.length number = some (.done children) := by
  induction h generalizing number with
  | nil => rfl
  | @cons part child parts children hhead _ ih =>
      have hfirst : make number = .ok part := hmake 0 part rfl
      have hrest := ih (number + 1) fun index other hother => by
        rw [Nat.add_right_comm]
        exact hmake (index + 1) other hother
      simp only [List.length_cons, readItems, hfirst, hhead, hrest]
      rfl

/-- One level of a read ends well if the next level does on fresh parts. -/
theorem readWithin_of_readStep {value after : Value} (hshaped : value.ShapedHere)
    (h : ReadStep context buffer
      (fun part child => readWithin context buffer fuel part = some (.done child)) value after) :
    readWithin context buffer (fuel + 1) value = some (.done after) := by
  cases h with
  | scalar hread => simp only [readWithin, hread]
  | struct hparts hread =>
      rw [readWithin_struct hshaped.2 hparts, readSlots_of_forall₂ hread]
      rfl
  | first hslots hfresh hread =>
      rw [readWithin_first hslots hfresh, hread]
      rfl
  | active hread =>
      simp only [readWithin, hread]
      rfl
  | array hlength helement hstride hcount hfresh hread =>
      have hitems := readItems_of_forall₂ 0 (fun index part hpart => by
        rw [Nat.zero_add]
        exact freshElement_eq_ok_iff.mpr (hfresh index part hpart)) hread
      rw [readWithin_array hlength helement hstride, ← hcount, hitems]
      rfl

/-! ## Reads of named types -/

theorem activePath_blank (record : TypeRecord) (offset : UInt64) :
    (blank record offset).activePath = (0, record) := by
  unfold blank
  cases record.kind <;> rfl

theorem FreshPart.read_eq {name : String} {part : Value}
    (h : FreshPart context name offset part) (buffer : Buffer) :
    context.read name buffer offset = (part.read context buffer).map Update.result := by
  obtain ⟨fresh, hfresh, hmove⟩ := h
  simp only [Context.read, hfresh, ok_bind, hmove, Update.result_done]
  cases part.read context buffer <;> rfl

theorem read_eq_of_freshPart_blank {name : String}
    (h : FreshPart context name offset (blank record offset)) (buffer : Buffer) :
    context.read name buffer offset =
      (readWithin context buffer (context.readFuel record) (blank record offset)).map
        Update.result := by
  rw [h.read_eq, Value.read, activePath_blank]
  simp only [Nat.zero_add]

end BinarySchema.Value
