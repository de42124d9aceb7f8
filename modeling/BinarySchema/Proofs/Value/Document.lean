import BinarySchema.Proofs.Json.Document
import BinarySchema.Proofs.Value.Make
import BinarySchema.Value.Document

/-!
# Material from documents

The material that a document stands for has the form of the document and embeds no value, so what is
made from it starts at zero.
-/

namespace BinarySchema

open Json (Document)

namespace Input

/-! ## The parts of a document -/

theorem listOf_eq_ok_iff {parts : List Document} {inputs : List Input} :
    listOf parts = .ok inputs ↔
      List.Forall₂ (fun part input => ofDocument part = .ok input) parts inputs := by
  induction parts generalizing inputs with
  | nil => simp [listOf, eq_comm]
  | cons part rest ih =>
      simp only [listOf, bind_eq_ok_iff, ih, pure, Except.pure, Except.ok.injEq,
        List.forall₂_cons_left_iff]
      constructor
      · rintro ⟨input, hinput, others, hothers, rfl⟩
        exact ⟨input, others, hinput, hothers, rfl⟩
      · rintro ⟨input, others, hinput, hothers, rfl⟩
        exact ⟨input, hinput, others, hothers, rfl⟩

theorem fieldsOf_eq_ok_iff {parts : List (String × Document)} {inputs : List (String × Input)} :
    fieldsOf parts = .ok inputs ↔
      List.Forall₂ (fun part input => part.1 = input.1 ∧ ofDocument part.2 = .ok input.2)
        parts inputs := by
  induction parts generalizing inputs with
  | nil => simp [fieldsOf, eq_comm]
  | cons part rest ih =>
      obtain ⟨name, document⟩ := part
      simp only [fieldsOf, bind_eq_ok_iff, ih, pure, Except.pure, Except.ok.injEq,
        List.forall₂_cons_left_iff]
      constructor
      · rintro ⟨input, hinput, others, hothers, rfl⟩
        exact ⟨(name, input), others, ⟨rfl, hinput⟩, hothers, rfl⟩
      · rintro ⟨⟨_, input⟩, others, ⟨rfl, hinput⟩, hothers, rfl⟩
        exact ⟨input, hinput, others, hothers, rfl⟩

theorem ofDocument_array_eq_ok_iff {parts : List Document} {input : Input} :
    ofDocument (.array parts) = .ok input ↔
      ∃ inputs, List.Forall₂ (fun part input => ofDocument part = .ok input) parts inputs ∧
        input = .items inputs := by
  simp only [← listOf_eq_ok_iff]
  rw [ofDocument]
  cases listOf parts <;> simp [eq_comm]

theorem ofDocument_object_eq_ok_iff {parts : List (String × Document)} {input : Input} :
    ofDocument (.object parts) = .ok input ↔
      ∃ inputs, List.Forall₂ (fun part input => part.1 = input.1 ∧ ofDocument part.2 = .ok input.2)
        parts inputs ∧ input = .fields inputs := by
  simp only [← fieldsOf_eq_ok_iff]
  rw [ofDocument]
  cases fieldsOf parts <;> simp [eq_comm]

/-! ## No values in it -/

theorem embeddedFields_eq (entries : List (String × Input)) :
    embeddedFields entries = entries.flatMap fun entry => entry.2.embedded := by
  induction entries with
  | nil => rfl
  | cons entry rest ih => simp [embeddedFields, ih]

theorem embeddedItems_eq (elements : List Input) :
    embeddedItems elements = elements.flatMap embedded := by
  induction elements with
  | nil => rfl
  | cons input rest ih => simp [embeddedItems, ih]

theorem embedded_of_ofDocument {document : Document} {input : Input}
    (h : ofDocument document = .ok input) : input.embedded = [] := by
  induction document using Document.induction generalizing input with
  | null | string => contradiction
  | bool | number =>
      cases h
      rfl
  | array parts ih =>
      obtain ⟨inputs, hinputs, rfl⟩ := ofDocument_array_eq_ok_iff.mp h
      rw [embedded, embeddedItems_eq, List.flatMap_eq_nil_iff]
      intro input hmem
      obtain ⟨part, hpart, hinput⟩ := exists_of_mem_forall₂ hinputs hmem
      exact ih part hpart hinput
  | object parts ih =>
      obtain ⟨inputs, hinputs, rfl⟩ := ofDocument_object_eq_ok_iff.mp h
      rw [embedded, embeddedFields_eq, List.flatMap_eq_nil_iff]
      intro input hmem
      obtain ⟨⟨name, document⟩, hpart, -, hinput⟩ := exists_of_mem_forall₂ hinputs hmem
      exact ih name document hpart hinput

end Input

namespace Value

variable {context : Context}

/-! ## Material of the right form -/

section

variable {record : TypeRecord}

theorem wrap_scalar (hkind : record.kind.isScalar = true) (content : Scalar) :
    wrap context record (.scalar content) = .ok (.scalar record 0 (some content)) := by
  cases hother : record.kind <;> simp_all [wrap, empty, Kind.isScalar]

theorem wrap_struct (hkind : record.kind = .struct) (entries : List (String × Input)) :
    wrap context record (.fields entries) =
      wrapFields context (.struct record 0 (record.slots.map fun _ => none)) entries := by
  simp only [wrap, empty, hkind]

theorem wrap_union (hkind : record.kind = .union) (entries : List (String × Input)) :
    wrap context record (.fields entries) =
      wrapFields context (.union record 0 none) entries := by
  simp only [wrap, empty, hkind]

theorem wrap_array (hkind : record.kind = .array) (elements : List Input) :
    wrap context record (.items elements) =
      wrapItems context (.array record 0 []) elements := by
  simp only [wrap, empty, hkind]

theorem isScalar_of_wrap {content : Scalar} {made : Value}
    (h : wrap context record (.scalar content) = .ok made) : record.kind.isScalar = true := by
  cases hkind : record.kind <;> simp_all [wrap, empty, Kind.isScalar]

theorem kind_of_wrap_fields {entries : List (String × Input)} {made : Value}
    (h : wrap context record (.fields entries) = .ok made) :
    record.kind = .struct ∨ record.kind = .union := by
  cases hkind : record.kind <;> simp_all [wrap, empty]

theorem kind_of_wrap_items {elements : List Input} {made : Value}
    (h : wrap context record (.items elements) = .ok made) : record.kind = .array := by
  cases hkind : record.kind <;> simp_all [wrap, empty]

end

/-! ## Where the made value starts -/

theorem offset_of_assign {value child next : Value} {name : String} {index : Nat}
    (h : value.assign context name index child = .done next) : next.offset = value.offset := by
  cases value with
  | scalar => exact absurd h (Update.failed_ne_done _ _ _)
  | array => exact absurd h (Update.failed_ne_done _ _ _)
  | struct record offset slots => exact offset_of_moveTo h
  | union record offset _ => exact offset_of_moveTo h

theorem offset_of_empty {record : TypeRecord} {value : Value} (h : empty record = .ok value) :
    value.offset = 0 := by
  unfold empty at h
  split at h <;> first | contradiction | (cases h; rfl)

private theorem offset_of_wrapFields {target made : Value} {entries : List (String × Input)}
    (h : wrapFields context target entries = .ok made) : made.offset = target.offset := by
  induction entries generalizing target with
  | nil =>
      cases h
      rfl
  | cons entry rest ih =>
      obtain ⟨name, input⟩ := entry
      obtain ⟨next, hnext, h⟩ := wrapFields_cons_eq_ok_iff.mp h
      obtain ⟨index, slotType, child, -, -, hassign⟩ := result_assignWith_eq_ok_iff.mp hnext
      exact (ih h).trans (offset_of_assign hassign)

private theorem offset_of_wrapItems {target made : Value} {elements : List Input}
    (h : wrapItems context target elements = .ok made) : made.offset = target.offset := by
  induction elements generalizing target with
  | nil =>
      cases h
      rfl
  | cons input rest ih =>
      obtain ⟨next, hnext, h⟩ := wrapItems_cons_eq_ok_iff.mp h
      obtain ⟨record, offset, items, element, stride, child, start, placed, rfl, -, -, -, -, rfl⟩ :=
        pushWith_eq_ok hnext
      exact (ih h).trans rfl

/-- Raw material makes a value that starts at zero. -/
theorem offset_of_wrap {record : TypeRecord} {input : Input} {made : Value}
    (hraw : input.embedded = []) (h : wrap context record input = .ok made) : made.offset = 0 := by
  cases input with
  | value existing => simp [Input.embedded] at hraw
  | scalar content =>
      unfold wrap at h
      split at h
      · contradiction
      · cases h
        rfl
      · contradiction
  | fields entries =>
      unfold wrap at h
      split at h
      · contradiction
      · rename_i hempty
        exact (offset_of_wrapFields h).trans (offset_of_empty hempty)
      · rename_i hempty
        exact (offset_of_wrapFields h).trans (offset_of_empty hempty)
      · contradiction
  | items elements =>
      unfold wrap at h
      split at h
      · contradiction
      · rename_i hempty
        exact (offset_of_wrapItems h).trans (offset_of_empty hempty)
      · contradiction

end Value

end BinarySchema
