import BinarySchema.Proofs.Json.Scalar
import BinarySchema.Schema.JsonRecord

/-!
# Written records read back

The fields of a record are written under keys of their own, those that are absent not at all.  So
each of them is found again by its key, and records come back as they were except for constants,
which become what a document makes of a scalar.
-/

namespace BinarySchema

open Json (Node Document)

namespace Json.Document

theorem nodes_eq_map (items : List Document) : nodes items = items.map toNode := by
  induction items with
  | nil => rfl
  | cons item rest ih => rw [nodes, ih, List.map_cons]

theorem entryNodes_eq_map (entries : List (String × Document)) :
    entryNodes entries = entries.map fun entry => (some entry.1, entry.2.toNode) := by
  induction entries with
  | nil => rfl
  | cons entry rest ih => rw [entryNodes, ih, List.map_cons]

end Json.Document

/-- A record as it is read back after it was written. -/
def TypeRecord.reread (record : TypeRecord) : TypeRecord :=
  { record with value := record.value.bind Scalar.reread? }

namespace Schema

variable {α : Type}

theorem mapM_nodes {write : α → Document} {read? : Node → Option α} {back : α → α}
    (h : ∀ a, read? (write a).toNode = some (back a)) (items : List α) :
    (Document.nodes (items.map write)).mapM read? = some (items.map back) := by
  rw [Document.nodes_eq_map, List.map_map]
  induction items with
  | nil => rfl
  | cons item rest ih =>
      rw [List.map_cons, List.mapM_cons, ih, Function.comp_apply, h]
      rfl

/-! ## Fields by key -/

/-- The entries of an object, from all its fields with those that are absent. -/
def present (fields : List (String × Option Document)) : List (String × Document) :=
  fields.flatMap fun field => entryOf field.1 id field.2

theorem entryOf_map (key : String) (write : α → Document) (field : Option α) :
    entryOf key id (field.map write) = entryOf key write field := by
  cases field <;> rfl

def nodeEntries (entries : List (String × Document)) : List (String × Node) :=
  entries.map fun entry => (entry.1, entry.2.toNode)

theorem nodeEntries_append (entries others : List (String × Document)) :
    nodeEntries (entries ++ others) = nodeEntries entries ++ nodeEntries others :=
  List.map_append

theorem entriesOfNode?_object (keys : List String) (entries : List (String × Document)) :
    entriesOfNode? keys (Document.object entries).toNode = some (nodeEntries entries) := by
  rw [Document.toNode, Document.entryNodes_eq_map, entriesOfNode?]
  induction entries with
  | nil => rfl
  | cons entry rest ih =>
      rw [List.map_cons, List.mapM_cons, ih]
      rfl

section

variable {fields : List (String × Option Document)} {key : String} {field : Option Document}

theorem filter_entryOf (key : String) (field : Option Document) :
    (nodeEntries (entryOf key id field)).filter (fun entry => entry.1 == key) =
      (field.map fun document => (key, document.toNode)).toList := by
  cases field with
  | none => rfl
  | some document => simp [nodeEntries, entryOf]

theorem filter_entryOf_of_ne {other : String} (hne : other ≠ key) :
    (nodeEntries (entryOf other id field)).filter (fun entry => entry.1 == key) = [] := by
  cases field with
  | none => rfl
  | some document => simp [nodeEntries, entryOf, hne]

theorem filter_present_of_not_mem (hkey : key ∉ fields.map Prod.fst) :
    (nodeEntries (present fields)).filter (fun entry => entry.1 == key) = [] := by
  induction fields with
  | nil => rfl
  | cons head rest ih =>
      obtain ⟨hhead, hrest⟩ := List.ne_and_not_mem_of_not_mem_cons hkey
      rw [present, List.flatMap_cons, nodeEntries_append, List.filter_append,
        filter_entryOf_of_ne (Ne.symm hhead)]
      exact ih hrest

theorem filter_present (hkeys : (fields.map Prod.fst).Nodup) (hfield : (key, field) ∈ fields) :
    (nodeEntries (present fields)).filter (fun entry => entry.1 == key) =
      (field.map fun document => (key, document.toNode)).toList := by
  induction fields with
  | nil => contradiction
  | cons head rest ih =>
      obtain ⟨hhead, hrest⟩ := List.nodup_cons.mp hkeys
      rw [present, List.flatMap_cons, nodeEntries_append, List.filter_append]
      rcases List.mem_cons.mp hfield with rfl | hmem
      · rw [filter_entryOf, ← present, filter_present_of_not_mem hhead, List.append_nil]
      · have hne : head.1 ≠ key := fun heq => hhead (heq ▸ List.mem_map_of_mem hmem)
        rw [filter_entryOf_of_ne hne]
        exact ih hrest hmem

/-- A field is found by its key, or missed if it is absent. -/
theorem field?_present (hkeys : (fields.map Prod.fst).Nodup) (hfield : (key, field) ∈ fields)
    (read? : Node → Option α) (absent : Option α) :
    field? (nodeEntries (present fields)) key read? absent =
      field.elim absent fun document => read? document.toNode := by
  rw [field?, filter_present hkeys hfield]
  cases field <;> rfl

end

/-! ## Fields of records -/

theorem nullable?_of_eq_some {read? : Node → Option α} {node : Node} {a : α}
    (hnull : read? .null = none) (h : read? node = some a) :
    nullable? read? node = some (some a) := by
  cases node with
  | null => simp [hnull] at h
  | bool | number | string | array | object => simp [nullable?, h]

/-- An optional field comes back as far as each of its values does. -/
theorem elim_nullable? {write : α → Document} {read? : Node → Option α} {back : α → Option α}
    (h : ∀ a, nullable? read? (write a).toNode = some (back a)) (field : Option α) :
    (field.map write).elim (some none) (fun document => nullable? read? document.toNode) =
      some (field.bind back) := by
  cases field with
  | none => rfl
  | some a => exact h a

theorem elim_nullable?_self {write : α → Document} {read? : Node → Option α}
    (hnull : read? .null = none) (h : ∀ a, read? (write a).toNode = some a) (field : Option α) :
    (field.map write).elim (some none) (fun document => nullable? read? document.toNode) =
      some field := by
  rw [elim_nullable? (fun a => nullable?_of_eq_some hnull (h a)), Option.bind_fun_some]

theorem wordOfNode?_ofNat (word : UInt64) :
    wordOfNode? (Document.ofNat word.toNat).toNode = some word := by
  have hfits : (0 : Int) ≤ word.toNat ∧ (word.toNat : Int) < UInt64.size :=
    ⟨Int.natCast_nonneg _, by exact_mod_cast word.toNat_lt⟩
  rw [Document.ofNat, Document.toNode, wordOfNode?, if_pos hfits]
  simp

theorem sizeOfNode?_sizeDocument (size : DeclaredSize) :
    sizeOfNode? (sizeDocument size).toNode = some size := by
  cases size with
  | native => rfl
  | bytes count =>
      have hword := wordOfNode?_ofNat count
      rw [sizeDocument]
      rw [Document.ofNat, Document.toNode] at hword ⊢
      rw [sizeOfNode?, hword]
      · rfl
      · simp

theorem nullable?_scalarOfNode? (scalar : Scalar) :
    nullable? scalarOfNode? scalar.toDocument.toNode = some scalar.reread? := by
  cases hfinite : scalar.isFinite with
  | false =>
      rw [Scalar.toDocument_of_not_isFinite hfinite, Scalar.reread?, hfinite]
      rfl
  | true =>
      obtain ⟨number, hdocument, hnumber⟩ := Scalar.exists_number_of_isFinite hfinite
      rw [hdocument, Scalar.reread?, if_pos hfinite, ← hnumber]
      rfl

theorem slotOfNode?_slotDocument (slot : Slot) :
    slotOfNode? (slotDocument slot).toNode = some slot := by
  let fields : List (String × Option Document) :=
    [("name", some (.string slot.name)), ("type", some (.string slot.typeName))]
  have hkeys : (fields.map Prod.fst).Nodup := by simp [fields]
  have hentries : entriesOfNode? slotKeys (slotDocument slot).toNode =
      some (nodeEntries (present fields)) := entriesOfNode?_object _ _
  have hname := field?_present hkeys (.head _) textOfNode? none
  have htype := field?_present hkeys (.tail _ (.head _)) textOfNode? none
  simp only [slotOfNode?, hentries, hname, htype, Option.bind_eq_bind, Option.bind_some]
  rfl

/-- The fields of a record by key, some of them absent. -/
def recordFields (record : TypeRecord) : List (String × Option Document) :=
  [("name", some (.string record.name)), ("kind", some (.string record.kind.label)),
    ("size", record.size.map sizeDocument),
    ("repr", record.representation.map fun representation => .string representation.label),
    ("endian", some (.string record.order.label)), ("packed", some (.bool record.packed)),
    ("slots", (if record.slots.isEmpty then none else some record.slots).map fun slots =>
      .array (slots.map slotDocument)),
    ("base", record.element.map .string),
    ("length", record.length.map fun length => .ofNat length.toNat),
    ("value", record.value.map Scalar.toDocument)]

theorem recordDocument_eq_present (record : TypeRecord) :
    recordDocument record = .object (present (recordFields record)) := by
  simp only [recordDocument, present, recordFields, List.flatMap_cons, List.flatMap_nil,
    entryOf_map, List.append_assoc, List.append_nil]
  rfl

theorem elim_slots (slots : List Slot) :
    ((if slots.isEmpty then none else some slots).map fun slots =>
        Document.array (slots.map slotDocument)).elim (some [])
      (fun document => slotsOfNode? document.toNode) = some slots := by
  cases slots with
  | nil => rfl
  | cons slot rest =>
      refine (mapM_nodes ?_ (slot :: rest)).trans (congrArg some (List.map_id _))
      exact slotOfNode?_slotDocument

theorem field?_recordFields (record : TypeRecord) (index : Nat) {key : String}
    {field : Option Document} (hfield : (recordFields record)[index]? = some (key, field))
    (read? : Node → Option α) (absent : Option α) :
    field? (nodeEntries (present (recordFields record))) key read? absent =
      field.elim absent fun document => read? document.toNode := by
  have hkeys : ((recordFields record).map Prod.fst).Nodup := by
    change recordKeys.Nodup
    decide
  exact field?_present hkeys (List.mem_of_getElem? hfield) read? absent

theorem recordOfNode?_recordDocument (record : TypeRecord) :
    recordOfNode? (recordDocument record).toNode = some record.reread := by
  let entries := nodeEntries (present (recordFields record))
  have hentries : entriesOfNode? recordKeys (recordDocument record).toNode = some entries := by
    rw [recordDocument_eq_present, entriesOfNode?_object]
  have hname : field? entries "name" textOfNode? none = some record.name :=
    field?_recordFields record 0 rfl _ _
  have hkind : field? entries "kind" (labelOfNode? Kind.ofLabel?) none = some record.kind :=
    (field?_recordFields record 1 rfl _ _).trans record.kind.ofLabel?_label
  have hsize : field? entries "size" (nullable? sizeOfNode?) (some none) = some record.size :=
    (field?_recordFields record 2 rfl _ _).trans (elim_nullable?_self rfl sizeOfNode?_sizeDocument _)
  have hrepresentation : field? entries "repr" (nullable? (labelOfNode? Representation.ofLabel?))
      (some none) = some record.representation :=
    (field?_recordFields record 3 rfl _ _).trans
      (elim_nullable?_self rfl Representation.ofLabel?_label _)
  have horder : field? entries "endian" (labelOfNode? ByteOrder.ofLabel?) (some .little) =
      some record.order :=
    (field?_recordFields record 4 rfl _ _).trans record.order.ofLabel?_label
  have hpacked : field? entries "packed" flagOfNode? (some false) = some record.packed :=
    field?_recordFields record 5 rfl _ _
  have hslots : field? entries "slots" slotsOfNode? (some []) = some record.slots :=
    (field?_recordFields record 6 rfl _ _).trans (elim_slots record.slots)
  have helement : field? entries "base" (nullable? textOfNode?) (some none) =
      some record.element :=
    (field?_recordFields record 7 rfl _ _).trans (elim_nullable?_self rfl (fun _ => rfl) _)
  have hlength : field? entries "length" (nullable? wordOfNode?) (some none) =
      some record.length :=
    (field?_recordFields record 8 rfl _ _).trans (elim_nullable?_self rfl wordOfNode?_ofNat _)
  have hvalue : field? entries "value" (nullable? scalarOfNode?) (some none) =
      some (record.value.bind Scalar.reread?) :=
    (field?_recordFields record 9 rfl _ _).trans (elim_nullable? nullable?_scalarOfNode? _)
  simp only [recordOfNode?, hentries, hname, hkind, hsize, hrepresentation, horder, hpacked,
    hslots, helement, hlength, hvalue, Option.bind_eq_bind, Option.bind_some]
  rfl

/-- Written records are read back in order, each as it was but for its constant. -/
theorem recordsOfNode?_recordsDocument (records : List TypeRecord) :
    recordsOfNode? (recordsDocument records).toNode = some (records.map TypeRecord.reread) := by
  rw [recordsDocument, Document.toNode, recordsOfNode?]
  exact mapM_nodes recordOfNode?_recordDocument records

end Schema

end BinarySchema
