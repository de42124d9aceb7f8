import BinarySchema.Proofs.Value.Descent
import BinarySchema.Proofs.Value.Document
import BinarySchema.Proofs.Value.Writing

/-!
# Values made from documents

Which value a document makes, but for its places: scalars from numbers and truth values, structs and
unions from objects, arrays from arrays.
-/

namespace BinarySchema

open Json (Document)

namespace Value

variable {context : Context} {record : TypeRecord}

/-! ## What material makes -/

/-- What some material makes of the named type, but for places. -/
def MakesPart (context : Context) (name : String) (input : Input) (part : Value) : Prop :=
  ∃ slotType made, context.resolve? name = some slotType ∧
    wrap context slotType input = .ok made ∧ part.unplaced = made.unplaced

/-- The content of a slot after an assignment is what was there or the new child, but for places. -/
theorem getElem?_of_assign {offset : UInt64} {slots : List (Option Value)} {name : String}
    {number : Nat} {child next : Value}
    (h : (Value.struct record offset slots).assign context name number child = .done next) :
    ∃ own, next = .struct record offset own ∧ own.length = slots.length ∧
      ∀ (index : Nat) (part : Value), own[index]? = some (some part) →
        ∃ old, (slots.set number (some child))[index]? = some (some old) ∧
          part.unplaced = old.unplaced := by
  rw [assign] at h
  obtain ⟨place, own, rfl, hslots⟩ := exists_of_unplaced_struct (unplaced_of_moveTo h)
  obtain rfl : place = offset := offset_of_moveTo h
  exact ⟨own, rfl, by simpa using congrArg List.length hslots,
    fun _ _ hpart => getElem?_of_unplaced hslots hpart⟩

/-- Every slot that is set in the end was set before or is what one of the entries makes. -/
theorem slots_of_wrapFields {offset : UInt64} {slots : List (Option Value)}
    {entries : List (String × Input)} {made : Value}
    (h : wrapFields context (.struct record offset slots) entries = .ok made) :
    ∃ filled, made = .struct record offset filled ∧ filled.length = slots.length ∧
      (∀ entry ∈ entries, ∃ slot ∈ record.slots, slot.name = entry.1) ∧
      ∀ (index : Nat) (part : Value), filled[index]? = some (some part) →
        (∃ old, slots[index]? = some (some old) ∧ part.unplaced = old.unplaced) ∨
        ∃ entry ∈ entries, ∃ slot, record.slots[index]? = some slot ∧ slot.name = entry.1 ∧
          MakesPart context slot.typeName entry.2 part := by
  induction entries generalizing slots with
  | nil =>
      cases h
      exact ⟨slots, rfl, rfl, by simp, fun index part hpart => .inl ⟨part, hpart, rfl⟩⟩
  | cons entry rest ih =>
      obtain ⟨name, input⟩ := entry
      obtain ⟨next, hnext, h⟩ := wrapFields_cons_eq_ok_iff.mp h
      obtain ⟨number, slotType, child, htarget, hchild, hassign⟩ :=
        result_assignWith_eq_ok_iff.mp hnext
      obtain ⟨slot, -, hslot, hnumber, hresolve⟩ := slotTarget_eq_ok htarget
      have hname : slot.name = name := by simpa using List.find?_some hslot
      obtain ⟨own, rfl, hlength, hown⟩ := getElem?_of_assign hassign
      obtain ⟨filled, rfl, hfilled, hnames, hparts⟩ := ih h
      refine ⟨filled, rfl, hfilled.trans hlength, ?_, fun index part hpart => ?_⟩
      · exact List.forall_mem_cons.mpr ⟨⟨slot, List.mem_of_getElem? hnumber, hname⟩, hnames⟩
      · rcases hparts index part hpart with ⟨old, hold, hsame⟩ | ⟨entry, hentry, hmakes⟩
        · obtain ⟨earlier, hearlier, hbefore⟩ := hown index old hold
          rw [List.getElem?_set] at hearlier
          split at hearlier
          · rename_i heq
            split at hearlier
            · cases hearlier
              exact .inr ⟨_, .head _, slot, heq ▸ hnumber, hname, slotType, _, hresolve, hchild,
                hsame.trans hbefore⟩
            · contradiction
          · exact .inl ⟨earlier, hearlier, hsame.trans hbefore⟩
        · exact .inr ⟨entry, .tail _ hentry, hmakes⟩

/-- Every element after those that were there is what one of the inputs makes. -/
theorem items_of_wrapItems {offset : UInt64} {items : List Value} {elements : List Input}
    {made : Value} (h : wrapItems context (.array record offset items) elements = .ok made) :
    ∃ more, made = .array record offset (items ++ more) ∧
      List.Forall₂ (fun input part => ∃ name, record.element = some name ∧
        MakesPart context name input part) elements more := by
  induction elements generalizing items with
  | nil =>
      cases h
      exact ⟨[], by simp, .nil⟩
  | cons input rest ih =>
      obtain ⟨next, hnext, h⟩ := wrapItems_cons_eq_ok_iff.mp h
      obtain ⟨element, stride, child, start, placed, htype, hchild, -, hplaced, rfl⟩ :=
        pushWith_array_eq_ok_iff.mp hnext
      obtain ⟨name, helement, hresolve, -⟩ := elementType_eq_ok_iff.mp htype
      obtain ⟨more, rfl, hmore⟩ := ih h
      exact ⟨placed :: more, by simp, .cons ⟨name, helement, element, child, hresolve, hchild,
        unplaced_of_moveTo hplaced⟩ hmore⟩

/-- The active slot of a filled union is what the last entry makes. -/
theorem active_of_wrapFields {offset : UInt64} {active : Option (String × Value)}
    {entries : List (String × Input)} {name : String} {input : Input} {made : Value}
    (h : wrapFields context (.union record offset active) entries = .ok made)
    (hlast : entries.getLast? = some (name, input)) :
    ∃ slot part, record.slot? name = some slot ∧
      made = .union record offset (some (name, part)) ∧
      MakesPart context slot.typeName input part := by
  induction entries generalizing active with
  | nil => contradiction
  | cons entry rest ih =>
      obtain ⟨next, hnext, h⟩ := wrapFields_cons_eq_ok_iff.mp h
      obtain ⟨number, slotType, child, htarget, hchild, hassign⟩ :=
        result_assignWith_eq_ok_iff.mp hnext
      obtain ⟨slot, -, hslot, -, hresolve⟩ := slotTarget_eq_ok htarget
      rw [assign] at hassign
      obtain ⟨part, hpart, rfl⟩ := moveTo_active_eq_done_iff.mp hassign
      cases rest with
      | nil =>
          cases h
          cases hlast
          exact ⟨slot, part, hslot, rfl, slotType, child, hresolve, hchild,
            unplaced_of_moveTo hpart⟩
      | cons following rest => exact ih h (List.getLast?_cons_cons ▸ hlast)

end Value

/-! ## Documents and types -/

namespace Context

variable {context : Context} {name : String} {record : TypeRecord}

/-- What is directly inside a document that stands for a type, and the types that it stands for:
entries of objects for the slots of their names, items of arrays for elements. -/
inductive Inside (context : Context) : String × Document → String × Document → Prop
  | entry {name key : String} {record : TypeRecord} {slot : Slot} {document : Document}
      {entries : List (String × Document)} (hresolve : context.resolve? name = some record)
      (hslot : record.slot? key = some slot) (hmem : (key, document) ∈ entries) :
      Inside context (name, .object entries) (slot.typeName, document)
  | item {name element : String} {record : TypeRecord} {document : Document}
      {items : List Document} (hresolve : context.resolve? name = some record)
      (helement : record.element = some element) (hmem : document ∈ items) :
      Inside context (name, .array items) (element, document)

/-- Every object that stands for a union names no slot but the first. -/
def NamesFirstSlots (context : Context) (name : String) (document : Document) : Prop :=
  ∀ other entries record,
    Relation.ReflTransGen context.Inside (name, document) (other, .object entries) →
    context.resolve? other = some record → record.kind = .union →
    ∀ entry ∈ entries, record.slots.head?.map Slot.name = some entry.1

theorem namesFirstSlots_of_inside {document : Document}
    (hhere : ∀ entries record, document = .object entries → context.resolve? name = some record →
      record.kind = .union → ∀ entry ∈ entries, record.slots.head?.map Slot.name = some entry.1)
    (hinside : ∀ part inner, context.Inside (name, document) (part, inner) →
      context.NamesFirstSlots part inner) : context.NamesFirstSlots name document := by
  intro other entries record hreaches
  rcases Relation.ReflTransGen.cases_head hreaches with heq | ⟨⟨part, inner⟩, hstep, hrest⟩
  · cases heq
    exact hhere entries record rfl
  · exact hinside part inner hstep other entries record hrest

theorem NamesFirstSlots.inside {part : String} {document inner : Document}
    (h : context.NamesFirstSlots name document)
    (hinside : context.Inside (name, document) (part, inner)) : context.NamesFirstSlots part inner :=
  fun other entries record hreaches => h other entries record (.head hinside hreaches)

end Context

/-- A slot of a struct with its entry in an object and its part of a value. -/
structure Filled where
  slot : Slot
  document : Document
  part : Value

def Filled.entry (field : Filled) : String × Document :=
  (field.slot.name, field.document)

/-- The values, wherever their parts lie, that a document makes of a named type; unions have their
first slot active. -/
inductive MadeFrom (context : Context) : String → Document → Value → Prop
  | bool {name : String} {record : TypeRecord} {offset : UInt64} {flag : Bool}
      (hresolve : context.resolve? name = some record) :
      MadeFrom context name (.bool flag)
        (.scalar record offset (some (.uint (if flag then 1 else 0))))
  | number {name : String} {record : TypeRecord} {offset : UInt64} {number : Json.Number}
      (hresolve : context.resolve? name = some record) :
      MadeFrom context name (.number number) (.scalar record offset (some number.toScalar))
  | struct {name : String} {record : TypeRecord} {offset : UInt64}
      {entries : List (String × Document)} {fields : List Filled}
      (hresolve : context.resolve? name = some record)
      (hnodup : (record.slots.map Slot.name).Nodup) (hkeys : Json.Ascending entries)
      (hslots : fields.map Filled.slot = record.slots)
      (hentries : entries.Perm (fields.map Filled.entry))
      (hfields : ∀ field ∈ fields, MadeFrom context field.slot.typeName field.document field.part) :
      MadeFrom context name (.object entries)
        (.struct record offset ((fields.map Filled.part).map some))
  | union {name : String} {record : TypeRecord} {offset : UInt64} {first : Slot}
      {rest : List Slot} {document : Document} {part : Value}
      (hresolve : context.resolve? name = some record) (hslots : record.slots = first :: rest)
      (hpart : MadeFrom context first.typeName document part) :
      MadeFrom context name (.object [(first.name, document)])
        (.union record offset (some (first.name, part)))
  | array {name element : String} {record : TypeRecord} {offset : UInt64}
      {items : List (Document × Value)} (hresolve : context.resolve? name = some record)
      (helement : ∀ item ∈ items, record.element = some element)
      (hitems : ∀ item ∈ items, MadeFrom context element item.1 item.2) :
      MadeFrom context name (.array (items.map Prod.fst))
        (.array record offset (items.map Prod.snd))

namespace Value

variable {context : Context} {record : TypeRecord} {name : String} {value : Value}

/-- In a complete struct every slot has what the entry of its name makes. -/
theorem parts_of_makesPart {inputs : List (String × Input)}
    (hresolve : context.resolve? name = some record) (hkind : record.kind = .struct)
    (hmakes : MakesPart context name (.fields inputs) value) (hcomplete : value.CompleteHere) :
    ∃ (offset : UInt64) (parts : List Value), value = .struct record offset (parts.map some) ∧
      parts.length = record.slots.length ∧
      (∀ input ∈ inputs, ∃ slot ∈ record.slots, slot.name = input.1) ∧
      ∀ pair ∈ record.slots.zip parts, ∃ input ∈ inputs, pair.1.name = input.1 ∧
        MakesPart context pair.1.typeName input.2 pair.2 := by
  obtain ⟨own, made, hown, hwrap, hunplaced⟩ := hmakes
  cases hresolve.symm.trans hown
  rw [wrap_struct hkind] at hwrap
  obtain ⟨filled, rfl, hlength, hnames, hslots⟩ := slots_of_wrapFields hwrap
  obtain ⟨offset, slots, rfl, hsame⟩ := exists_of_unplaced_struct hunplaced
  obtain ⟨parts, rfl⟩ := exists_map_some hcomplete
  have hcount : parts.length = record.slots.length := by
    simpa [hlength] using congrArg List.length hsame
  refine ⟨offset, parts, rfl, hcount, hnames, fun ⟨slot, part⟩ hpair => ?_⟩
  obtain ⟨index, hindex⟩ := List.getElem?_of_mem hpair
  obtain ⟨hslot, hpart⟩ := List.getElem?_zip_eq_some.mp hindex
  obtain ⟨twin, htwin, hplaces⟩ :=
    getElem?_of_unplaced hsame (show (parts.map some)[index]? = some (some part) by simp [hpart])
  rcases hslots index twin htwin with ⟨unset, hunset, -⟩ |
    ⟨input, hinput, found, hfound, hname, slotType, child, hslotType, hchild, hmade⟩
  · simpa using List.mem_of_getElem? hunset
  · cases hslot.symm.trans hfound
    exact ⟨input, hinput, hname, slotType, child, hslotType, hchild, hplaces.trans hmade⟩

private theorem madeFrom_of_fields {entries : List (String × Document)}
    {inputs : List (String × Input)} (hresolve : context.resolve? name = some record)
    (hkind : record.kind = .struct) (hnodup : (record.slots.map Slot.name).Nodup)
    (hkeys : Json.Ascending entries)
    (hinputs : List.Forall₂ (fun entry input =>
      entry.1 = input.1 ∧ Input.ofDocument entry.2 = .ok input.2) entries inputs)
    (hmakes : MakesPart context name (.fields inputs) value) (hcomplete : value.CompleteHere)
    (hparts : ∀ (slot : Slot) (document : Document) (input : Input) (part : Value),
      slot ∈ record.slots → (slot.name, document) ∈ entries →
      Input.ofDocument document = .ok input → MakesPart context slot.typeName input part →
      part ∈ value.children → MadeFrom context slot.typeName document part) :
    MadeFrom context name (.object entries) value := by
  obtain ⟨offset, parts, rfl, hcount, hnames, hinput⟩ :=
    parts_of_makesPart hresolve hkind hmakes hcomplete
  obtain ⟨fields, hfields⟩ : ∃ fields, List.Forall₂ (fun pair (field : Filled) =>
      pair.1 = field.slot ∧ pair.2 = field.part ∧ field.entry ∈ entries ∧
      MadeFrom context field.slot.typeName field.document field.part)
      (record.slots.zip parts) fields := by
    refine exists_forall₂ fun ⟨slot, part⟩ hpair => ?_
    obtain ⟨hslot, hpart⟩ := List.of_mem_zip hpair
    obtain ⟨input, hmem, hname, hmakes⟩ := hinput _ hpair
    obtain ⟨⟨key, document⟩, hentry, hkey, hdocument⟩ := exists_of_mem_forall₂ hinputs hmem
    obtain rfl : key = slot.name := hkey.trans hname.symm
    exact ⟨⟨slot, document, part⟩, rfl, rfl, hentry, hparts slot document input.2 part hslot hentry
      hdocument hmakes (mem_children_struct.mpr (List.mem_map_of_mem hpart))⟩
  have hslots : fields.map Filled.slot = record.slots := by
    rw [← map_eq_map_of_forall₂ hfields fun _ _ h => h.1, List.map_fst_zip hcount.ge]
  have hmapParts : fields.map Filled.part = parts := by
    rw [← map_eq_map_of_forall₂ hfields fun _ _ h => h.2.1, List.map_snd_zip hcount.le]
  have hkeysOf : (fields.map Filled.entry).map Prod.fst = record.slots.map Slot.name := by
    rw [← hslots, List.map_map, List.map_map]
    rfl
  have hall : ∀ field ∈ fields, field.entry ∈ entries ∧
      MadeFrom context field.slot.typeName field.document field.part := by
    intro field hmem
    obtain ⟨pair, -, -, -, hfield⟩ := exists_of_mem_forall₂ hfields hmem
    exact hfield
  rw [← hmapParts]
  refine .struct hresolve hnodup hkeys hslots ?_ fun field hmem => (hall field hmem).2
  refine Json.perm_of_keys hkeys.nodup (hkeysOf ▸ hnodup) ?_ fun entry hentry => ?_
  · exact List.forall_mem_map.mpr fun field hmem => (hall field hmem).1
  · obtain ⟨input, hinput, hkey, -⟩ := exists_of_mem_forall₂ hinputs.flip hentry
    obtain ⟨slot, hslot, hname⟩ := hnames input hinput
    rw [hkeysOf, hkey, ← hname]
    exact List.mem_map_of_mem hslot

theorem ne_nil_of_makesPart {inputs : List (String × Input)}
    (hresolve : context.resolve? name = some record) (hkind : record.kind = .union)
    (hmakes : MakesPart context name (.fields inputs) value) (hcomplete : value.CompleteHere) :
    inputs ≠ [] := by
  rintro rfl
  obtain ⟨own, made, hown, hwrap, hunplaced⟩ := hmakes
  cases hresolve.symm.trans hown
  rw [wrap_union hkind] at hwrap
  cases hwrap
  match value with
  | .union _ _ none => exact absurd hcomplete (by simp [CompleteHere])
  | .scalar .. | .struct .. | .union _ _ (some _) | .array .. => simp [unplaced] at hunplaced

private theorem madeFrom_of_active {entries : List (String × Document)}
    {inputs : List (String × Input)} (hresolve : context.resolve? name = some record)
    (hkind : record.kind = .union) (hkeys : Json.Ascending entries)
    (hnames : ∀ entry ∈ entries, record.slots.head?.map Slot.name = some entry.1)
    (hinputs : List.Forall₂ (fun entry input =>
      entry.1 = input.1 ∧ Input.ofDocument entry.2 = .ok input.2) entries inputs)
    (hmakes : MakesPart context name (.fields inputs) value) (hcomplete : value.CompleteHere)
    (hparts : ∀ (key : String) (slot : Slot) (document : Document) (input : Input) (part : Value),
      record.slot? key = some slot → (key, document) ∈ entries →
      Input.ofDocument document = .ok input → MakesPart context slot.typeName input part →
      part ∈ value.children → MadeFrom context slot.typeName document part) :
    MadeFrom context name (.object entries) value := by
  cases hinputs with
  | nil => exact absurd rfl (ne_nil_of_makesPart hresolve hkind hmakes hcomplete)
  | @cons entry input rest inputs hentry hrest =>
      -- a second entry would have the key of the first one
      have hsingle : rest = [] := by
        cases rest with
        | nil => rfl
        | cons second rest =>
            have hsame := (hnames entry (by simp)).symm.trans (hnames second (by simp))
            have hnodup := hkeys.nodup
            simp_all
      subst hsingle
      cases hrest
      obtain ⟨key, document⟩ := entry
      obtain ⟨other, input⟩ := input
      obtain rfl : key = other := hentry.1
      obtain ⟨own, made, hown, hwrap, hunplaced⟩ := hmakes
      cases hresolve.symm.trans hown
      rw [wrap_union hkind] at hwrap
      obtain ⟨slot, twin, hslot, rfl, slotType, child, hslotType, hchild, hmade⟩ :=
        active_of_wrapFields hwrap rfl
      obtain ⟨offset, part, rfl, hplaces⟩ := exists_of_unplaced_active hunplaced
      have hpart := hparts key slot document input part hslot (.head _) hentry.2
        ⟨slotType, child, hslotType, hchild, hplaces.trans hmade⟩ (by simp)
      obtain ⟨first, hhead, rfl⟩ := Option.map_eq_some_iff.mp (hnames _ (.head _))
      obtain ⟨others, hslots⟩ := List.head?_eq_some_iff.mp hhead
      obtain rfl : first = slot := by
        simpa [TypeRecord.slot?, hslots] using hslot
      exact .union hresolve hslots hpart

private theorem madeFrom_of_items {documents : List Document} {inputs : List Input}
    (hresolve : context.resolve? name = some record) (hkind : record.kind = .array)
    (hinputs : List.Forall₂ (fun document input => Input.ofDocument document = .ok input)
      documents inputs)
    (hmakes : MakesPart context name (.items inputs) value)
    (hparts : ∀ (element : String) (document : Document) (input : Input) (part : Value),
      record.element = some element → document ∈ documents →
      Input.ofDocument document = .ok input → MakesPart context element input part →
      part ∈ value.children → MadeFrom context element document part) :
    MadeFrom context name (.array documents) value := by
  obtain ⟨own, made, hown, hwrap, hunplaced⟩ := hmakes
  cases hresolve.symm.trans hown
  rw [wrap_array hkind] at hwrap
  obtain ⟨twins, rfl, htwins⟩ := items_of_wrapItems hwrap
  obtain ⟨offset, parts, rfl, hsame⟩ := exists_of_unplaced_array hunplaced
  have hpair : ∀ pair ∈ documents.zip parts, ∃ element, record.element = some element ∧
      MadeFrom context element pair.1 pair.2 := by
    rintro ⟨document, part⟩ hpair
    obtain ⟨hdocument, hpart⟩ := List.of_mem_zip hpair
    obtain ⟨index, hindex⟩ := List.getElem?_of_mem hpair
    obtain ⟨hleft, hright⟩ := List.getElem?_zip_eq_some.mp hindex
    have htwin := congrArg (·[index]?) hsame
    simp only [List.nil_append, List.getElem?_map, hright, Option.map_some] at htwin
    obtain ⟨twin, htwin, hplaces⟩ := Option.map_eq_some_iff.mp htwin.symm
    obtain ⟨input, hinput, element, helement, slotType, child, hslotType, hchild, hmade⟩ :=
      exists_getElem?_of_forall₂ htwins htwin
    exact ⟨element, helement, hparts element document input part helement hdocument
      (rel_of_forall₂ hinputs hleft hinput)
      ⟨slotType, child, hslotType, hchild, hplaces.symm.trans hmade⟩ hpart⟩
  have hcount : documents.length = parts.length := by
    rw [hinputs.length_eq, htwins.length_eq]
    simpa using (congrArg List.length hsame).symm
  obtain ⟨items, hitems, rfl, rfl⟩ : ∃ items : List (Document × Value), (∀ item ∈ items, ∃ element,
      record.element = some element ∧ MadeFrom context element item.1 item.2) ∧
      documents = items.map Prod.fst ∧ parts = items.map Prod.snd :=
    ⟨_, hpair, (List.map_fst_zip hcount.le).symm, (List.map_snd_zip hcount.ge).symm⟩
  obtain ⟨element, helement⟩ : ∃ element, ∀ item ∈ items, record.element = some element := by
    cases items with
    | nil => exact ⟨"", by simp⟩
    | cons item rest =>
        obtain ⟨element, helement, -⟩ := hitems item (.head _)
        exact ⟨element, fun _ _ => helement⟩
  refine .array hresolve helement fun item hmem => ?_
  obtain ⟨other, hother, hmade⟩ := hitems item hmem
  cases (helement item hmem).symm.trans hother
  exact hmade

private theorem madeFrom_of_scalar {document : Document} {content : Scalar}
    (hmakes : MakesPart context name (.scalar content) value)
    (hmade : ∀ record offset, context.resolve? name = some record →
      MadeFrom context name document (.scalar record offset (some content))) :
    MadeFrom context name document value := by
  obtain ⟨record, made, hresolve, hwrap, hunplaced⟩ := hmakes
  rw [wrap_scalar (isScalar_of_wrap hwrap)] at hwrap
  cases hwrap
  obtain ⟨offset, rfl⟩ := exists_of_unplaced_scalar hunplaced
  exact hmade record offset hresolve

/-- What a document makes, but for places, when its objects name no slots of unions but the first. -/
theorem madeFrom_of_makesPart {document : Document} {input : Input} (hordered : document.Ordered)
    (hdistinct : context.Throughout TypeRecord.DistinctSlots name)
    (hfirst : context.NamesFirstSlots name document)
    (hinput : Input.ofDocument document = .ok input) (hmakes : MakesPart context name input value)
    (hcomplete : value.Complete) : MadeFrom context name document value := by
  induction document using Document.induction generalizing name input value with
  | null | string => contradiction
  | bool flag =>
      cases hinput
      exact madeFrom_of_scalar hmakes fun record offset hresolve => .bool hresolve
  | number number =>
      cases hinput
      exact madeFrom_of_scalar hmakes fun record offset hresolve => .number hresolve
  | array items ih =>
      obtain ⟨inputs, hinputs, rfl⟩ := Input.ofDocument_array_eq_ok_iff.mp hinput
      obtain ⟨record, made, hresolve, hwrap, -⟩ := id hmakes
      have hkind := kind_of_wrap_items hwrap
      cases hordered with
      | array hitems =>
          refine madeFrom_of_items hresolve hkind hinputs hmakes
            fun element document input part helement hmem hinput hmakes hpart => ?_
          exact ih document hmem (hitems document hmem)
            (hdistinct.reference hresolve (TypeRecord.element_mem_references hkind helement))
            (hfirst.inside (.item hresolve helement hmem)) hinput hmakes
            (hcomplete.inside part hpart)
  | object entries ih =>
      obtain ⟨inputs, hinputs, rfl⟩ := Input.ofDocument_object_eq_ok_iff.mp hinput
      obtain ⟨record, made, hresolve, hwrap, hunplaced⟩ := id hmakes
      cases hordered with
      | object hkeys hentries =>
          rcases kind_of_wrap_fields hwrap with hkind | hkind
          · have hnodup := hdistinct.here hresolve hkind
            refine madeFrom_of_fields hresolve hkind hnodup hkeys hinputs hmakes hcomplete.here
              fun slot document input part hslot hmem hinput hmakes hpart => ?_
            obtain ⟨index, hindex⟩ := List.getElem?_of_mem hslot
            exact ih slot.name document hmem (hentries _ hmem)
              (hdistinct.reference hresolve
                (TypeRecord.typeName_mem_references (.inl hkind) hslot))
              (hfirst.inside (.entry hresolve (TypeRecord.slot?_of_nodup hnodup hindex) hmem))
              hinput hmakes (hcomplete.inside part hpart)
          · refine madeFrom_of_active hresolve hkind hkeys
              (hfirst name entries record .refl hresolve hkind) hinputs hmakes hcomplete.here
              fun key slot document input part hslot hmem hinput hmakes hpart => ?_
            exact ih key document hmem (hentries _ hmem)
              (hdistinct.reference hresolve (TypeRecord.typeName_mem_references (.inr hkind)
                (List.mem_of_find?_eq_some hslot)))
              (hfirst.inside (.entry hresolve hslot hmem)) hinput hmakes
              (hcomplete.inside part hpart)

end Value

end BinarySchema
