import BinarySchema.Proofs.Value.Document
import BinarySchema.Proofs.Value.Parallel

/-!
# Conforming material

Raw material conforms to a type when its form is that of the type at every depth.  The material from
which a value of a sized type can be made is exactly the material that conforms: a mismatch at any
depth is an error, and the size of the type is room enough for every move on the way.
-/

namespace BinarySchema

namespace Context

/-- The type of the first slot of a name. -/
def slotType? (context : Context) (record : TypeRecord) (name : String) : Option TypeRecord :=
  (record.slot? name).bind fun slot => context.resolve? slot.typeName

def elementType? (context : Context) (record : TypeRecord) : Option TypeRecord :=
  record.element.bind context.resolve?

variable {context : Context} {record part : TypeRecord}

theorem slotType?_eq_some_iff {name : String} :
    context.slotType? record name = some part ↔
      ∃ slot, record.slot? name = some slot ∧ context.resolve? slot.typeName = some part := by
  simp [slotType?, Option.bind_eq_some_iff]

theorem elementType?_eq_some_iff :
    context.elementType? record = some part ↔
      ∃ name, record.element = some name ∧ context.resolve? name = some part := by
  simp [elementType?, Option.bind_eq_some_iff]

end Context

namespace Input

variable {context : Context} {record : TypeRecord}

mutual

/-- A scalar for a scalar type, entries for declared slots and items for an array, all of them
conforming to their own types. -/
def Conforms (context : Context) (record : TypeRecord) : Input → Prop
  | .scalar _ => record.kind.shape = .scalar
  | .fields entries => record.kind.shape = .fields ∧ FieldsConform context record entries
  | .items elements => record.kind.shape = .items ∧ ItemsConform context record elements
  | .value _ => False

def FieldsConform (context : Context) (record : TypeRecord) : List (String × Input) → Prop
  | [] => True
  | (name, input) :: rest =>
      (∃ part ∈ context.slotType? record name, Conforms context part input) ∧
        FieldsConform context record rest

def ItemsConform (context : Context) (record : TypeRecord) : List Input → Prop
  | [] => True
  | input :: rest =>
      (∃ part ∈ context.elementType? record, Conforms context part input) ∧
        ItemsConform context record rest

end

mutual

/-- No list of items for an array is longer than the array. -/
def WithinLengths (context : Context) (record : TypeRecord) : Input → Prop
  | .scalar _ => True
  | .fields entries => record.kind.shape = .fields → FieldsWithinLengths context record entries
  | .items elements => record.kind.shape = .items →
      (∀ length ∈ record.length, elements.length ≤ length.toNat) ∧
        ItemsWithinLengths context record elements
  | .value _ => True

def FieldsWithinLengths (context : Context) (record : TypeRecord) : List (String × Input) → Prop
  | [] => True
  | (name, input) :: rest =>
      (∀ part ∈ context.slotType? record name, WithinLengths context part input) ∧
        FieldsWithinLengths context record rest

def ItemsWithinLengths (context : Context) (record : TypeRecord) : List Input → Prop
  | [] => True
  | input :: rest =>
      (∀ part ∈ context.elementType? record, WithinLengths context part input) ∧
        ItemsWithinLengths context record rest

end

end Input

theorem Kind.shape_eq_scalar_iff {kind : Kind} : kind.shape = .scalar ↔ kind.isScalar = true := by
  cases kind <;> decide

theorem Kind.shape_eq_fields_iff {kind : Kind} :
    kind.shape = .fields ↔ kind = .struct ∨ kind = .union := by
  cases kind <;> decide

theorem Kind.shape_eq_items_iff {kind : Kind} : kind.shape = .items ↔ kind = .array := by
  cases kind <;> decide

namespace Value

variable {context : Context} {record : TypeRecord}

/-! ## A mismatch at any depth is an error -/

private theorem conforms_of_wrapFields {target made : Value} {entries : List (String × Input)}
    (hentries : ∀ name input, (name, input) ∈ entries → ∀ part made,
      wrap context part input = .ok made → input.Conforms context part)
    (h : wrapFields context target entries = .ok made) :
    Input.FieldsConform context target.record entries := by
  induction entries generalizing target with
  | nil => trivial
  | cons entry rest ih =>
      obtain ⟨name, input⟩ := entry
      obtain ⟨next, hnext, h⟩ := wrapFields_cons_eq_ok_iff.mp h
      obtain ⟨index, part, child, htarget, hchild, hassign⟩ :=
        result_assignWith_eq_ok_iff.mp hnext
      obtain ⟨slot, -, hslot, -, hresolve⟩ := slotTarget_eq_ok htarget
      have hpart := Context.slotType?_eq_some_iff.mpr ⟨slot, hslot, hresolve⟩
      have hrest := ih (fun name input hmem => hentries name input (.tail _ hmem)) h
      rw [record_of_assign hassign] at hrest
      exact ⟨⟨part, hpart, hentries name input (.head _) part child hchild⟩, hrest⟩

private theorem conforms_of_wrapItems {target made : Value} {elements : List Input}
    (helements : ∀ input ∈ elements, ∀ part made,
      wrap context part input = .ok made → input.Conforms context part)
    (h : wrapItems context target elements = .ok made) :
    Input.ItemsConform context target.record elements := by
  induction elements generalizing target with
  | nil => trivial
  | cons input rest ih =>
      obtain ⟨next, hnext, h⟩ := wrapItems_cons_eq_ok_iff.mp h
      obtain ⟨record, offset, items, part, stride, child, start, placed, rfl, htype, hchild, -, -,
        rfl⟩ := pushWith_eq_ok hnext
      obtain ⟨name, helement, hresolve, -⟩ := elementType_eq_ok_iff.mp htype
      have hpart := Context.elementType?_eq_some_iff.mpr ⟨name, helement, hresolve⟩
      have hrest := ih (fun input hmem => helements input (.tail _ hmem)) h
      exact ⟨⟨part, hpart, helements input (.head _) part child hchild⟩, hrest⟩

/-- Raw material from which a value of some type can be made conforms to the type. -/
theorem conforms_of_wrap {input : Input} {made : Value} (hraw : input.embedded = [])
    (h : wrap context record input = .ok made) : input.Conforms context record := by
  induction input using Input.induction generalizing record made with
  | value existing => simp [Input.embedded] at hraw
  | scalar content => exact Kind.shape_eq_scalar_iff.mpr (isScalar_of_wrap h)
  | fields entries ih =>
      have hentries : ∀ name input, (name, input) ∈ entries → ∀ part made,
          wrap context part input = .ok made → input.Conforms context part := by
        intro name input hmem part made hmade
        exact ih name input hmem
          (List.eq_nil_of_subset_nil (hraw ▸ Input.embedded_subset_fields hmem)) hmade
      have hkind := kind_of_wrap_fields h
      refine ⟨Kind.shape_eq_fields_iff.mpr hkind, ?_⟩
      rcases hkind with hkind | hkind
      · rw [wrap_struct hkind] at h
        exact conforms_of_wrapFields hentries h
      · rw [wrap_union hkind] at h
        exact conforms_of_wrapFields hentries h
  | items elements ih =>
      have helements : ∀ input ∈ elements, ∀ part made,
          wrap context part input = .ok made → input.Conforms context part := by
        intro input hmem part made hmade
        exact ih input hmem
          (List.eq_nil_of_subset_nil (hraw ▸ Input.embedded_subset_items hmem)) hmade
      have hkind := kind_of_wrap_items h
      rw [wrap_array hkind] at h
      exact ⟨Kind.shape_eq_items_iff.mpr hkind, conforms_of_wrapItems helements h⟩

/-! ## Room for every move -/

def WithinLengthHere : Value → Prop
  | .array record _ items => ∀ length ∈ record.length, items.length ≤ length.toNat
  | _ => True

theorem withinLengthHere_unplaced {value : Value} :
    value.unplaced.WithinLengthHere ↔ value.WithinLengthHere := by
  match value with
  | .scalar .. | .struct .. | .union _ _ none | .union _ _ (some _) => rfl
  | .array .. => simp [unplaced, WithinLengthHere, unplacedItems_eq_map]

/-- What has the shape and the types of its record and no array that is too long. -/
structure Fitting (context : Context) (value : Value) : Prop where
  shaped : value.Shaped
  typed : value.WellTyped context
  lengths : value.Everywhere WithinLengthHere

namespace Fitting

theorem inside {value child : Value} (h : value.Fitting context) (hmem : child ∈ value.children) :
    child.Fitting context :=
  ⟨h.shaped.inside child hmem, h.typed.inside child hmem, h.lengths.inside child hmem⟩

theorem moveTo {value after : Value} {offset : UInt64} (h : value.Fitting context)
    (hmove : value.moveTo context offset = .done after) : after.Fitting context :=
  have hplaces := unplaced_of_moveTo hmove
  ⟨everywhere_of_unplaced_eq (fun _ => shapedHere_unplaced) hplaces h.shaped,
    everywhere_of_unplaced_eq (fun _ => typedHere_unplaced) hplaces h.typed,
    everywhere_of_unplaced_eq (fun _ => withinLengthHere_unplaced) hplaces h.lengths⟩

theorem put {value child : Value} {name : String} {index : Nat} {slotType : TypeRecord}
    (h : value.Fitting context) (htarget : value.slotTarget context name = .ok (index, slotType))
    (hchild : child.Fitting context) (hsame : child.record.Same slotType) :
    (value.put name index child).Fitting context := by
  refine ⟨shaped_put htarget h.shaped hchild.shaped,
    wellTyped_put htarget h.typed hchild.typed hsame,
    everywhere_put htarget ?_ h.lengths hchild.lengths⟩
  cases value with
  | scalar | array => contradiction
  | struct | union => trivial

theorem append {offset : UInt64} {items : List Value} {item : Value} {name : String}
    (h : (Value.array record offset items).Fitting context) (hitem : item.Fitting context)
    (helement : record.element = some name) (htype : item.OfType context name)
    (hlength : ∀ length ∈ record.length, items.length < length.toNat) :
    (Value.array record offset (items ++ [item])).Fitting context := by
  have hinside : ∀ part ∈ items ++ [item], part.Fitting context := by
    intro part hpart
    rcases List.mem_append.mp hpart with hmem | hmem
    · exact h.inside hmem
    · exact List.mem_singleton.mp hmem ▸ hitem
  refine ⟨shaped_append h.shaped hitem.shaped,
    .node ?_ fun part hpart => (hinside part hpart).typed,
    .node ?_ fun part hpart => (hinside part hpart).lengths⟩
  · intro part hpart
    rcases List.mem_append.mp hpart with hmem | hmem
    · exact h.typed.here part hmem
    · exact ⟨name, helement, List.mem_singleton.mp hmem ▸ htype⟩
  · intro length hdeclared
    rw [List.length_append, List.length_singleton]
    exact hlength length hdeclared

end Fitting

theorem fitting_of_childless {value : Value} (hshaped : value.Shaped) (h : value.children = []) :
    value.Fitting context := by
  refine ⟨hshaped, (sound_of_childless hshaped h).typed, .node ?_ (by simp [h])⟩
  match value with
  | .scalar .. | .struct .. | .union .. => trivial
  | .array record offset items =>
      obtain rfl : items = [] := h
      exact fun _ _ => Nat.zero_le _

/-- The parts of a value with a size have theirs. -/
theorem OfType.sizedThroughout {part : Value} {name : String} {size width : UInt64}
    (htype : part.OfType context name) (hsized : context.SizedThroughout record size)
    (hmem : name ∈ record.references) (hwidth : context.sizeOf name = .ok width) :
    context.SizedThroughout part.record width := by
  obtain ⟨found, hfound, hsame⟩ := htype
  exact (hsized.reference hmem hwidth hfound).of_same hsame

/-- A part of what has room has room itself. -/
theorem exists_addOffset_of_room {offset size : UInt64} {placement : Placement}
    (hstop : placement.stop ≤ size.toNat) (hroom : offset.toNat + size.toNat < UInt64.size) :
    ∃ start, addOffset offset placement.offset = .ok start ∧
      start.toNat + placement.size.toNat < UInt64.size := by
  rw [Placement.stop] at hstop
  have hlt : offset.toNat + placement.offset.toNat < UInt64.size := by omega
  have hstart := addOffset_of_lt hlt
  exact ⟨_, hstart, by rw [addOffset_eq_ok_iff.mp hstart]; omega⟩

theorem exists_elementOffset_of_room {offset stride : UInt64} {index count : Nat}
    (hindex : index < count) (hroom : offset.toNat + count * stride.toNat < UInt64.size) :
    ∃ start, elementOffset offset index stride = .ok start ∧
      start.toNat + stride.toNat < UInt64.size := by
  have hle : (index + 1) * stride.toNat ≤ count * stride.toNat := Nat.mul_le_mul_right _ hindex
  rw [Nat.succ_mul] at hle
  have hstart : (UInt64.ofNat (offset.toNat + index * stride.toNat)).toNat =
      offset.toNat + index * stride.toNat := UInt64.toNat_ofNat_of_lt' (by omega)
  exact ⟨_, elementOffset_eq_ok_iff.mpr hstart, by omega⟩

/-- A value can be moved to wherever its type has room. -/
theorem exists_moveTo {value : Value} {size : UInt64} (h : value.Fitting context)
    (hsized : context.SizedThroughout value.record size) (offset : UInt64)
    (hroom : offset.toNat + size.toNat < UInt64.size) :
    ∃ after, value.moveTo context offset = .done after := by
  induction value using Value.induction generalizing size offset with
  | scalar | unset => exact ⟨_, rfl⟩
  | active own place name child ih =>
      obtain ⟨hkind, -⟩ := h.shaped.here
      obtain ⟨slot, hslot, htype⟩ := h.typed.here
      have hmem : slot ∈ own.slots := List.mem_of_find?_eq_some hslot
      obtain ⟨width, hwidth, hle⟩ := hsized.slot_of_union hkind hmem
      have hchild := htype.sizedThroughout hsized
        (TypeRecord.typeName_mem_references (.inr hkind) hmem) hwidth
      obtain ⟨moved, hmoved⟩ := ih (h.inside (by simp)) hchild offset (by omega)
      exact ⟨_, moveTo_active_eq_done_iff.mpr ⟨moved, hmoved, rfl⟩⟩
  | struct own place slots ih =>
      obtain ⟨hkind, hlength⟩ := h.shaped.here
      obtain ⟨placements, hplacements, hstops⟩ := hsized.placements hkind
      have hcount : slots.length = placements.length :=
        hlength.trans (Context.length_slotPlacements hplacements).symm
      obtain ⟨moved, hmoved, -⟩ : ∃ moved,
          moveSlots context offset placements slots = .done moved ∧
            List.Forall₂ (fun _ entry => ∀ after, entry = some after → True) slots moved := by
        refine exists_moveSlots rfl hcount fun index _ child placement _ hchild hplacement => ?_
        obtain ⟨slot, hslot, htype⟩ := h.typed.here index child hchild
        have hmem := List.mem_of_getElem? hchild
        have hwidth := Context.slotPlacements_size hplacements hslot hplacement
        have hpart := htype.sizedThroughout hsized
          (TypeRecord.typeName_mem_references (.inl hkind) (List.mem_of_getElem? hslot)) hwidth
        obtain ⟨start, hstart, hfits⟩ :=
          exists_addOffset_of_room (hstops placement (List.mem_of_getElem? hplacement)) hroom
        obtain ⟨after, hafter⟩ :=
          ih child hmem (h.inside (mem_children_struct.mpr hmem)) hpart start hfits
        exact ⟨start, after, hstart, hafter, trivial⟩
      exact ⟨_, moveTo_struct_eq_done_iff.mpr ⟨placements, moved, hplacements, hmoved, rfl⟩⟩
  | array own place items ih =>
      cases items with
      | nil => exact ⟨_, rfl⟩
      | cons first rest =>
          have hkind : own.kind = .array := h.shaped.here
          obtain ⟨length, name, stride, hlength, helement, hstride, hsize⟩ := hsized.element hkind
          have hcount : (first :: rest).length ≤ length.toNat := h.lengths.here length hlength
          obtain ⟨moved, hmoved, -⟩ : ∃ moved,
              moveItems context offset stride 0 (first :: rest) = .done moved ∧
                List.Forall₂ (fun _ _ => True) (first :: rest) moved := by
            refine exists_moveItems rfl fun index _ item _ hitem => ?_
            have hmem := List.mem_of_getElem? hitem
            obtain ⟨other, hother, htype⟩ := h.typed.here item hmem
            cases helement.symm.trans hother
            have hpart := htype.sizedThroughout hsized
              (TypeRecord.element_mem_references hkind helement) hstride
            have hindex : 0 + index < length.toNat := by
              have := (List.getElem?_eq_some_iff.mp hitem).1
              omega
            obtain ⟨start, hstart, hfits⟩ := exists_elementOffset_of_room hindex (hsize ▸ hroom)
            obtain ⟨after, hafter⟩ := ih item hmem (h.inside hmem) hpart start hfits
            exact ⟨start, after, hstart, hafter, trivial⟩
          exact ⟨_, moveTo_array_eq_done_iff.mpr
            ⟨name, stride, moved, helement, hstride, hmoved, rfl⟩⟩

/-! ## Making values from conforming material -/

/-- The material makes a value of each sized type that it conforms to. -/
def MakesFitting (context : Context) (input : Input) : Prop :=
  ∀ (record : TypeRecord) (size : UInt64), context.SizedThroughout record size →
    input.Conforms context record → input.WithinLengths context record →
    ∃ made, wrap context record input = .ok made ∧ made.Fitting context ∧ made.record = record

private theorem exists_assignWith {target : Value} {size : UInt64} {name : String} {input : Input}
    {part : TypeRecord} (htarget : target.Fitting context)
    (hsized : context.SizedThroughout target.record size) (hstart : target.offset = 0)
    (hkind : target.record.kind = .struct ∨ target.record.kind = .union)
    (hpart : context.slotType? target.record name = some part) (hmakes : MakesFitting context input)
    (hconforms : input.Conforms context part) (hlengths : input.WithinLengths context part) :
    ∃ next, (target.assignWith context name fun slotType =>
        wrap context slotType input).result = .ok next ∧ next.Fitting context ∧
      next.record = target.record ∧ next.offset = 0 := by
  obtain ⟨slot, hslot, hresolve⟩ := Context.slotType?_eq_some_iff.mp hpart
  have hmem : slot ∈ target.record.slots := List.mem_of_find?_eq_some hslot
  obtain ⟨width, hwidth⟩ := hsized.slot hkind hmem
  have hsizedPart :=
    hsized.reference (TypeRecord.typeName_mem_references hkind hmem) hwidth hresolve
  obtain ⟨child, hchild, hfitting, hrecord⟩ := hmakes part width hsizedPart hconforms hlengths
  obtain ⟨index, hslotTarget⟩ := exists_slotTarget htarget.shaped.here hkind hslot hresolve
  have hput := htarget.put hslotTarget hfitting (.inl hrecord)
  have hsame : (target.put name index child).record = target.record := by
    cases target <;> rfl
  -- an assignment moves the whole target again, and a sized type has room at zero
  obtain ⟨next, hnext⟩ := exists_moveTo hput (hsame ▸ hsized) 0 (by simpa using size.toNat_lt)
  have hassign : target.assign context name index child = .done next := by
    rw [assign_eq_moveTo_put hslotTarget, hstart]
    exact hnext
  exact ⟨next, result_assignWith_eq_ok_iff.mpr ⟨index, part, child, hslotTarget, hchild, hassign⟩,
    hput.moveTo hnext, record_of_assign hassign, offset_of_moveTo hnext⟩

private theorem exists_madeFields {target : Value} {size : UInt64}
    {entries : List (String × Input)} (htarget : target.Fitting context)
    (hsized : context.SizedThroughout target.record size) (hstart : target.offset = 0)
    (hkind : target.record.kind = .struct ∨ target.record.kind = .union)
    (hmakes : ∀ name input, (name, input) ∈ entries → MakesFitting context input)
    (hconforms : Input.FieldsConform context target.record entries)
    (hlengths : Input.FieldsWithinLengths context target.record entries) :
    ∃ made, wrapFields context target entries = .ok made ∧ made.Fitting context ∧
      made.record = target.record := by
  induction entries generalizing target with
  | nil => exact ⟨target, rfl, htarget, rfl⟩
  | cons entry rest ih =>
      obtain ⟨name, input⟩ := entry
      obtain ⟨⟨part, hpart, hinput⟩, hconforms⟩ := hconforms
      obtain ⟨hwithin, hlengths⟩ := hlengths
      obtain ⟨next, hnext, hfitting, hrecord, hoffset⟩ := exists_assignWith htarget hsized hstart
        hkind hpart (hmakes name input (.head _)) hinput (hwithin part hpart)
      rw [← hrecord] at hsized hkind hconforms hlengths
      obtain ⟨made, hmade, hall, hsame⟩ := ih hfitting hsized hoffset hkind
        (fun name input hmem => hmakes name input (.tail _ hmem)) hconforms hlengths
      exact ⟨made, wrapFields_cons_eq_ok_iff.mpr ⟨next, hnext, hmade⟩, hall,
        hsame.trans hrecord⟩

private theorem exists_madeItems {own : TypeRecord} {size length : UInt64}
    {items : List Value} {elements : List Input}
    (htarget : (Value.array own 0 items).Fitting context)
    (hsized : context.SizedThroughout own size) (hlength : own.length = some length)
    (hroom : items.length + elements.length ≤ length.toNat)
    (hmakes : ∀ input ∈ elements, MakesFitting context input)
    (hconforms : Input.ItemsConform context own elements)
    (hlengths : Input.ItemsWithinLengths context own elements) :
    ∃ made, wrapItems context (.array own 0 items) elements = .ok made ∧ made.Fitting context ∧
      made.record = own := by
  induction elements generalizing items with
  | nil => exact ⟨_, rfl, htarget, rfl⟩
  | cons input rest ih =>
      obtain ⟨⟨part, hpart, hinput⟩, hconforms⟩ := hconforms
      obtain ⟨hwithin, hlengths⟩ := hlengths
      have hkind : own.kind = .array := htarget.shaped.here
      obtain ⟨name, helement, hresolve⟩ := Context.elementType?_eq_some_iff.mp hpart
      obtain ⟨count, found, stride, hcount, hfound, hstride, hsize⟩ := hsized.element hkind
      cases helement.symm.trans hfound
      cases hlength.symm.trans hcount
      have hsizedPart := hsized.reference (TypeRecord.element_mem_references hkind helement)
        hstride hresolve
      obtain ⟨child, hchild, hfitting, hrecord⟩ :=
        hmakes input (.head _) part stride hsizedPart hinput (hwithin part hpart)
      rw [List.length_cons] at hroom
      have hlimit : (0 : UInt64).toNat + length.toNat * stride.toNat < UInt64.size := by
        rw [← hsize, UInt64.toNat_zero, Nat.zero_add]
        exact size.toNat_lt
      have hindex : items.length < length.toNat := by omega
      obtain ⟨start, hstart, hfits⟩ := exists_elementOffset_of_room hindex hlimit
      obtain ⟨placed, hplaced⟩ := exists_moveTo hfitting (hrecord ▸ hsizedPart) start hfits
      have helementType : context.elementType own = .ok (part, stride) :=
        elementType_eq_ok_iff.mpr ⟨name, helement, hresolve, hsizedPart.size⟩
      have hpush : ((Value.array own 0 items).pushWith context fun element =>
          wrap context element input) = .ok (.array own 0 (items ++ [placed])) :=
        pushWith_array_eq_ok_iff.mpr
          ⟨part, stride, child, start, placed, helementType, hchild, hstart, hplaced, rfl⟩
      have htype : placed.OfType context name :=
        ⟨part, hresolve, .inl ((record_of_moveTo hplaced).trans hrecord)⟩
      have hnext : (Value.array own 0 (items ++ [placed])).Fitting context := by
        refine htarget.append (hfitting.moveTo hplaced) helement htype fun declared hdeclared => ?_
        cases hlength.symm.trans hdeclared
        exact hindex
      have hcount : (items ++ [placed]).length + rest.length ≤ length.toNat := by
        rw [List.length_append, List.length_singleton]
        omega
      obtain ⟨made, hmade, hall⟩ := ih hnext hcount
        (fun input hmem => hmakes input (.tail _ hmem)) hconforms hlengths
      exact ⟨made, wrapItems_cons_eq_ok_iff.mpr ⟨_, hpush, hmade⟩, hall⟩

theorem makesFitting (input : Input) : MakesFitting context input := by
  induction input using Input.induction with
  | value existing => exact fun _ _ _ hconforms => hconforms.elim
  | scalar content =>
      intro record size hsized hconforms hlengths
      have hkind : record.kind.isScalar = true := Kind.shape_eq_scalar_iff.mp hconforms
      exact ⟨_, wrap_scalar hkind content, fitting_of_childless (.node hkind (by simp)) rfl, rfl⟩
  | fields entries ih =>
      intro record size hsized hconforms hlengths
      obtain ⟨hshape, hconforms⟩ := hconforms
      have hkind := Kind.shape_eq_fields_iff.mp hshape
      rcases id hkind with hstruct | hunion
      · rw [wrap_struct hstruct]
        have hempty : (Value.struct record 0 (record.slots.map fun _ => none)).Fitting context :=
          fitting_of_childless (.node ⟨hstruct, by simp⟩ (by simp)) (by simp [children])
        exact exists_madeFields hempty hsized rfl hkind ih hconforms (hlengths hshape)
      · rw [wrap_union hunion]
        have hempty : (Value.union record 0 none).Fitting context :=
          fitting_of_childless (.node hunion (by simp)) rfl
        exact exists_madeFields hempty hsized rfl hkind ih hconforms (hlengths hshape)
  | items elements ih =>
      intro record size hsized hconforms hlengths
      obtain ⟨hshape, hconforms⟩ := hconforms
      obtain ⟨hcount, hlengths⟩ := hlengths hshape
      have hkind := Kind.shape_eq_items_iff.mp hshape
      obtain ⟨length, -, -, hlength, -⟩ := hsized.element hkind
      rw [wrap_array hkind]
      have hempty : (Value.array record 0 []).Fitting context :=
        fitting_of_childless (.node hkind (by simp)) rfl
      exact exists_madeItems hempty hsized hlength (by simpa using hcount length hlength) ih
        hconforms hlengths

/-- Raw material makes a value of a sized type if and only if it conforms to the type, as long as no
array is given more items than it declares. -/
theorem exists_wrap_iff_conforms {size : UInt64} {input : Input}
    (hsized : context.SizedThroughout record size) (hraw : input.embedded = [])
    (hlengths : input.WithinLengths context record) :
    (∃ made, wrap context record input = .ok made) ↔ input.Conforms context record := by
  constructor
  · rintro ⟨made, hmade⟩
    exact conforms_of_wrap hraw hmade
  · intro hconforms
    obtain ⟨made, hmade, -⟩ := makesFitting input record size hsized hconforms hlengths
    exact ⟨made, hmade⟩

theorem exists_wrap_iff_conforms_frame :
    frameContext.SizedThroughout (frameValue 0).record 16 ∧ Session.frameMaterial.embedded = [] ∧
      Session.frameMaterial.WithinLengths frameContext (frameValue 0).record ∧
      ((∃ made, wrap frameContext (frameValue 0).record Session.frameMaterial = .ok made) ↔
        Session.frameMaterial.Conforms frameContext (frameValue 0).record) := by
  have hsized : frameContext.SizedThroughout (frameValue 0).record 16 := by
    refine ⟨rfl, by decide, fun name hname => ?_⟩
    exact (throughout_frame (P := TypeRecord.Closed) (by decide) (by decide)).reference rfl hname
  have hlengths : Session.frameMaterial.WithinLengths frameContext (frameValue 0).record := by
    intro _
    refine ⟨fun part hpart => trivial, fun part hpart => ?_, fun part hpart => ?_, trivial⟩
    · cases hpart
      exact fun _ => ⟨fun _ _ => trivial, trivial⟩
    · cases hpart
      refine fun _ => ⟨fun length hlength => ?_, fun _ _ => trivial, fun _ _ => trivial, trivial⟩
      cases hlength
      decide
  exact ⟨hsized, rfl, hlengths, exists_wrap_iff_conforms hsized rfl hlengths⟩

end Value

end BinarySchema
