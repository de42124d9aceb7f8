import BinarySchema.Proofs.RoundTrip
import BinarySchema.Proofs.Value.FromDocument
import BinarySchema.Proofs.Value.Reload

/-!
# Documents read back

The document of a value that was made from a document, written and read back: the same one, with every
number as its codec keeps it.
-/

namespace BinarySchema

open Json (Document Number)

/-! ## Numbers that codecs keep -/

/-- The number that stands for a truth value. -/
def Json.Number.ofBool (flag : Bool) : Number :=
  .integer (if flag then 1 else 0)

theorem Encoding.encode?_ofBool (encoding : Encoding) (flag : Bool) :
    encoding.encode? (.uint (if flag then 1 else 0)) =
      encoding.encode? (Number.ofBool flag).toScalar := by
  cases encoding <;> cases flag <;> rfl

namespace ScalarCodec

/-- What a read reports where a number was written. -/
def decoded? (codec : ScalarCodec) (number : Number) : Option Document :=
  (codec.encoding.encode? number.toScalar).map fun word => (codec.encoding.decode word).toDocument

/-- The whole number itself, the same 64-bit float or the nearest 32-bit one; what is not finite has
no number. -/
def image? (codec : ScalarCodec) (number : Number) : Option Document :=
  match codec.encoding with
  | .signed _ | .unsigned _ => number.toScalar.integer?.map fun whole => .number (.integer whole)
  | .single => some (.ofFloat (.ofSingle number.toScalar.toBinary64.toSingle))
  | .double => some (.ofFloat number.toScalar.toBinary64)

/-- A description of numbers that agrees with what is decoded where something was encoded. -/
def KeepsDecoded (keep : ScalarCodec → Number → Option Document) : Prop :=
  ∀ (codec : ScalarCodec) (number : Number) (word : Nat),
    codec.encoding.encode? number.toScalar = some word →
    keep codec number = some (codec.encoding.decode word).toDocument

theorem keepsDecoded_decoded? : KeepsDecoded decoded? := by
  intro codec number word hword
  rw [decoded?, hword]
  rfl

theorem keepsDecoded_image? : KeepsDecoded image? := by
  intro codec number word hword
  have hrestores := Encoding.restores_decode hword
  unfold image?
  cases hencoding : codec.encoding <;> rw [hencoding] at hrestores
  case signed | unsigned =>
    obtain ⟨value, hdecode, hvalue⟩ := hrestores
    rw [hdecode, hvalue]
    rfl
  case single => rw [hrestores.1, Scalar.toDocument]
  case double => rw [show _ = _ from hrestores, Scalar.toDocument]

end ScalarCodec

/-! ## Documents of types -/

namespace Context

variable {context : Context}

/-- What a description of numbers says of a number that stands for a scalar type. -/
def mapNumber? (context : Context) (keep : ScalarCodec → Number → Option Document) (name : String)
    (number : Number) : Option Document := do
  let record ← context.resolve? name
  let codec ← (context.scalarCodec record).toOption
  keep codec number

mutual

/-- A document that stands for a type with its numbers described by `keep`, truth values taken for one
and zero; the keys and their order stay. -/
def mapNumbers? (context : Context) (keep : ScalarCodec → Number → Option Document)
    (name : String) : Document → Option Document
  | .null | .string _ => none
  | .bool flag => context.mapNumber? keep name (.ofBool flag)
  | .number number => context.mapNumber? keep name number
  | .array items => do
      let record ← context.resolve? name
      let mapped ← mapItems? context keep record.element items
      pure (.array mapped)
  | .object entries => do
      let record ← context.resolve? name
      let mapped ← mapEntries? context keep record entries
      pure (.object mapped)

def mapItems? (context : Context) (keep : ScalarCodec → Number → Option Document)
    (element : Option String) : List Document → Option (List Document)
  | [] => some []
  | item :: rest => do
      let name ← element
      let mapped ← mapNumbers? context keep name item
      let others ← mapItems? context keep element rest
      pure (mapped :: others)

def mapEntries? (context : Context) (keep : ScalarCodec → Number → Option Document)
    (record : TypeRecord) : List (String × Document) → Option (List (String × Document))
  | [] => some []
  | (key, document) :: rest => do
      let slot ← record.slot? key
      let mapped ← mapNumbers? context keep slot.typeName document
      let others ← mapEntries? context keep record rest
      pure ((key, mapped) :: others)

end

variable {keep : ScalarCodec → Number → Option Document}

theorem mapItems?_eq_some {element : Option String} {items mapped : List Document}
    (h : List.Forall₂ (fun item result => ∃ name ∈ element,
      context.mapNumbers? keep name item = some result) items mapped) :
    context.mapItems? keep element items = some mapped := by
  induction h with
  | nil => rfl
  | cons hitem _ ih =>
      obtain ⟨name, rfl, hmapped⟩ := hitem
      simp [mapItems?, hmapped, ih]

theorem mapEntries?_eq_some {record : TypeRecord} {entries mapped : List (String × Document)}
    (h : List.Forall₂ (fun entry result => entry.1 = result.1 ∧
      ∃ slot, record.slot? entry.1 = some slot ∧
        context.mapNumbers? keep slot.typeName entry.2 = some result.2) entries mapped) :
    context.mapEntries? keep record entries = some mapped := by
  induction h with
  | nil => rfl
  | @cons entry result _ _ hentry _ ih =>
      obtain ⟨key, document⟩ := entry
      obtain ⟨other, part⟩ := result
      obtain ⟨rfl, slot, hslot, hmapped⟩ := hentry
      simp [mapEntries?, hslot, hmapped, ih]

end Context

namespace Value

variable {context : Context} {name : String} {value back : Value} {document : Document}

theorem Corresponds.of_struct {record : TypeRecord} {offset : UInt64} {parts : List Value}
    (h : Corresponds context (.struct record offset (parts.map some)) back) :
    ∃ other children, back = .struct other offset (children.map some) ∧ record.Same other ∧
      List.Forall₂ (Corresponds context) parts children := by
  generalize hslots : parts.map some = slots at h
  cases h with
  | @struct _ other _ twins children hsame hparts =>
      rw [(List.map_injective_iff.mpr (Option.some_injective Value)) hslots]
      exact ⟨other, children, rfl, hsame, hparts⟩

/-! ## Reading what a document made -/

/-- The unions of a value that a document makes have the slots active that a read chooses. -/
theorem firstActive_of_madeFrom (h : MadeFrom context name document value) :
    value.Everywhere FirstActiveHere := by
  induction h with
  | bool | number => exact .node trivial (by simp)
  | struct _ _ _ _ _ _ ih =>
      refine .node trivial fun child hchild => ?_
      simp only [mem_children_struct, List.mem_map, Option.some.injEq, exists_eq_right] at hchild
      obtain ⟨field, hfield, rfl⟩ := hchild
      exact ih field hfield
  | union _ hslots _ ih => exact .node (by simp [FirstActiveHere, hslots]) (by simpa using ih)
  | array _ _ _ ih =>
      refine .node trivial fun child hchild => ?_
      obtain ⟨item, hitem, rfl⟩ := List.mem_map.mp hchild
      exact ih item hitem

private theorem toDocument_scalar {record : TypeRecord} {offset : UInt64} {content : Scalar}
    {number : Number} {keep : ScalarCodec → Number → Option Document}
    (hkeep : ScalarCodec.KeepsDecoded keep) (hresolve : context.resolve? name = some record)
    (hsame : ∀ encoding : Encoding, encoding.encode? content = encoding.encode? number.toScalar)
    (hback : Corresponds context (.scalar record offset (some content)) back) :
    context.mapNumber? keep name number = some back.toDocument := by
  cases hback with
  | scalar _ hcodec hword _ =>
      rw [hsame] at hword
      simp only [Context.mapNumber?, hresolve, hcodec, Except.toOption, Option.bind_eq_bind,
        Option.bind_some, hkeep _ _ _ hword]
      rfl

private theorem mapNumbers?_struct {record other : TypeRecord} {offset : UInt64}
    {entries : List (String × Document)} {fields : List Filled} {children : List Value}
    {keep : ScalarCodec → Number → Option Document} (hresolve : context.resolve? name = some record)
    (hnodup : (record.slots.map Slot.name).Nodup) (hkeys : Json.Ascending entries)
    (hslots : fields.map Filled.slot = record.slots)
    (hentries : entries.Perm (fields.map Filled.entry)) (hsame : record.Same other)
    (hfields : List.Forall₂ (fun (field : Filled) child =>
      context.mapNumbers? keep field.slot.typeName field.document = some child.toDocument)
      fields children) :
    context.mapNumbers? keep name (.object entries) =
      some (Value.struct other offset (children.map some)).toDocument := by
  have hnodupOther : (other.slots.map Slot.name).Nodup := hsame.slots_eq ▸ hnodup
  have hlength : children.length = other.slots.length := by
    rw [← hsame.slots_eq, ← hslots, List.length_map, hfields.length_eq]
  -- the fields in the order of the slots, then in the order of their names
  have hdeclared : List.Forall₂ (fun entry (result : String × Document) => entry.1 = result.1 ∧
      ∃ slot, record.slot? entry.1 = some slot ∧
        context.mapNumbers? keep slot.typeName entry.2 = some result.2)
      (fields.map Filled.entry) (fieldDocuments other children) := by
    rw [fieldDocuments, ← hsame.slots_eq, ← hslots, List.zipWith_map_left]
    refine forall₂_zipWith hfields fun field hmem child hchild => ⟨rfl, field.slot, ?_, hchild⟩
    have hslot : field.slot ∈ record.slots := hslots ▸ List.mem_map_of_mem hmem
    obtain ⟨index, hindex⟩ := List.getElem?_of_mem hslot
    exact TypeRecord.slot?_of_nodup hnodup hindex
  obtain ⟨results, hresults, hperm⟩ := List.perm_comp_forall₂ hentries hdeclared
  have hsorted : Json.sortEntries (fieldDocuments other children) = results := by
    have hascending : Json.Ascending results :=
      hkeys.of_keys (map_eq_map_of_forall₂ hresults fun _ _ h => h.1)
    refine (Json.ascending_sortEntries _).eq_of_perm hascending ?_
    exact (Json.perm_sortEntries (keys_fieldDocuments hlength ▸ hnodupOther)).trans hperm.symm
  simp only [Context.mapNumbers?, hresolve, Option.bind_eq_bind, Option.bind_some,
    Context.mapEntries?_eq_some hresults, toDocument_struct hnodupOther hlength,
    Document.ofEntries, hsorted]
  rfl

private theorem mapNumbers?_array {record other : TypeRecord} {offset : UInt64} {element : String}
    {items : List (Document × Value)} {children : List Value}
    {keep : ScalarCodec → Number → Option Document} (hresolve : context.resolve? name = some record)
    (helement : ∀ item ∈ items, record.element = some element)
    (hitems : List.Forall₂ (fun (item : Document × Value) child =>
      context.mapNumbers? keep element item.1 = some child.toDocument) items children) :
    context.mapNumbers? keep name (.array (items.map Prod.fst)) =
      some (Value.array other offset children).toDocument := by
  have hmapped : List.Forall₂ (fun document result => ∃ part ∈ record.element,
      context.mapNumbers? keep part document = some result)
      (items.map Prod.fst) (children.map toDocument) := by
    rw [List.forall₂_map_left_iff, List.forall₂_map_right_iff]
    exact ((List.forall₂_and_left _ _).mpr ⟨helement, hitems⟩).imp fun _ _ h => ⟨element, h.1, h.2⟩
  simp only [Context.mapNumbers?, hresolve, Option.bind_eq_bind, Option.bind_some,
    Context.mapItems?_eq_some hmapped, toDocument, itemDocuments_eq_map]
  rfl

/-- A value made from a document and read back has the document again, with its numbers described by
what is decoded. -/
theorem mapNumbers?_of_madeFrom {keep : ScalarCodec → Number → Option Document}
    (hkeep : ScalarCodec.KeepsDecoded keep) (hmade : MadeFrom context name document value)
    (hback : Corresponds context value back) :
    context.mapNumbers? keep name document = some back.toDocument := by
  induction hmade generalizing back with
  | bool hresolve =>
      exact toDocument_scalar hkeep hresolve (fun encoding => encoding.encode?_ofBool _) hback
  | number hresolve => exact toDocument_scalar hkeep hresolve (fun _ => rfl) hback
  | union hresolve hslots _ ih =>
      cases hback with
      | union _ hchild =>
          have hmapped := ih hchild
          simp [Context.mapNumbers?, Context.mapEntries?, hresolve, TypeRecord.slot?, hslots,
            hmapped, toDocument]
  | array hresolve helement _ ih =>
      cases hback with
      | array _ hchildren =>
          rw [List.forall₂_map_left_iff] at hchildren
          exact mapNumbers?_array hresolve helement
            (((List.forall₂_and_left _ _).mpr ⟨ih, hchildren⟩).imp fun _ _ h => h.1 h.2)
  | struct hresolve hnodup hkeys hslots hentries _ ih =>
      obtain ⟨other, children, rfl, hsame, hchildren⟩ := hback.of_struct
      rw [List.forall₂_map_left_iff] at hchildren
      exact mapNumbers?_struct hresolve hnodup hkeys hslots hentries hsame
        (((List.forall₂_and_left _ _).mpr ⟨ih, hchildren⟩).imp fun _ _ h => h.1 h.2)

end Value

end BinarySchema
