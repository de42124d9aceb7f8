import BinarySchema.Proofs.Json.Scalar
import BinarySchema.Proofs.Session
import BinarySchema.Proofs.Value.Parallel

/-!
# Values reloaded from documents

A value with nothing unset, made into a document and from there into a value again, comes back as it
would be after a move to zero.  The fields of a struct are assigned in the order of their names, and
every assignment places all fields anew; the places of the value at hand show that none of them fails.
-/

namespace BinarySchema

open Json (Document)

namespace Value

variable {context : Context} {value : Value}

/-! ## Documents of structs -/

/-- The slots of a struct have names of their own. -/
def DistinctHere : Value → Prop
  | .struct record _ _ => (record.slots.map Slot.name).Nodup
  | _ => True

theorem distinct_frameValue (offset : UInt64) :
    (frameValue offset).Everywhere DistinctHere := by
  refine everywhere_frameValue ?_ ?_ ?_
  · simp [frameValue, DistinctHere, TypeRecord.struct]
  · simp [frameValue, children, DistinctHere]
  · simp [DistinctHere]

theorem slotTarget_of_nodup {record slotType : TypeRecord} {offset : UInt64}
    {slots : List (Option Value)} {index : Nat} {slot : Slot}
    (hnodup : (record.slots.map Slot.name).Nodup) (hslot : record.slots[index]? = some slot)
    (hresolve : context.resolve? slot.typeName = some slotType) :
    (Value.struct record offset slots).slotTarget context slot.name = .ok (index, slotType) := by
  simp only [slotTarget, Value.record, TypeRecord.slotIndex?_of_nodup hnodup hslot,
    TypeRecord.slot?_of_nodup hnodup hslot, Context.require_eq_ok_iff.mpr hresolve]
  rfl

/-- With names of their own the slots are met in order. -/
theorem entriesByName_map_some {α : Type} {record : TypeRecord} {entries : List α}
    (hnodup : (record.slots.map Slot.name).Nodup) (hlength : entries.length = record.slots.length) :
    record.entriesByName (entries.map some) =
      List.zipWith (fun slot entry => (slot.name, some entry)) record.slots entries := by
  refine List.ext_getElem (by simp [TypeRecord.entriesByName, hlength]) fun index hslot hentry => ?_
  have hindex : index < record.slots.length := by simpa [TypeRecord.entriesByName] using hslot
  simp [TypeRecord.entriesByName, hindex, hlength,
    TypeRecord.slotIndex?_of_nodup hnodup (List.getElem?_eq_getElem hindex)]

theorem slotDocuments_map_some (parts : List Value) :
    slotDocuments (parts.map some) = (parts.map toDocument).map some := by
  induction parts with
  | nil => rfl
  | cons part rest ih => simp [slotDocuments, ih]

theorem itemDocuments_eq_map (items : List Value) :
    itemDocuments items = items.map toDocument := by
  induction items with
  | nil => rfl
  | cons item rest ih => simp [itemDocuments, ih]

/-- The fields of a struct in the order of their declaration. -/
def fieldDocuments (record : TypeRecord) (parts : List Value) : List (String × Document) :=
  List.zipWith (fun slot part => (slot.name, part.toDocument)) record.slots parts

theorem toDocument_struct {record : TypeRecord} {offset : UInt64} {parts : List Value}
    (hnodup : (record.slots.map Slot.name).Nodup) (hlength : parts.length = record.slots.length) :
    (Value.struct record offset (parts.map some)).toDocument =
      .ofEntries (fieldDocuments record parts) := by
  rw [toDocument, slotDocuments_map_some, entriesByName_map_some hnodup (by simpa using hlength),
    List.map_zipWith, List.zipWith_map_right]
  rfl

theorem keys_fieldDocuments {record : TypeRecord} {parts : List Value}
    (hlength : parts.length = record.slots.length) :
    (fieldDocuments record parts).map Prod.fst = record.slots.map Slot.name := by
  refine List.ext_getElem (by simp [fieldDocuments, hlength]) fun index hkey hname => ?_
  simp [fieldDocuments]

/-! ## Assigning fields again -/

/-- The same value but for its place and for what documents make of its scalars. -/
abbrev Reloads (places : UInt64 → UInt64 → Prop) : Value → Value → Prop :=
  Parallel TypeRecord.Same places fun content stored => stored = content.reloaded

/-- Material that makes a value again, at zero. -/
def Remakes (context : Context) (value : Value) (input : Input) : Prop :=
  ∀ record, value.record.Same record →
    ∃ made, wrap context record input = .ok made ∧ Reloads (Before value.offset.toNat) value made

/-- Slots that have the fields of a struct again, as far as they are set. -/
def Refills (offset : UInt64) (parts : List Value) (slots : List (Option Value)) : Prop :=
  List.Forall₂ (fun part entry => ∀ child, entry = some child →
    Reloads (Before offset.toNat) part child) parts slots

/-- What can be moved to where a value lies or before it and has its scalars as reloaded. -/
abbrev ReloadsBefore (context : Context) : Value → Value → Prop :=
  MovesBefore context TypeRecord.Same fun content stored => stored = content.reloaded

theorem zero_le_offset (offset : UInt64) : UInt64.toNat 0 ≤ offset.toNat :=
  Nat.zero_le _

theorem reloadsBefore {places : UInt64 → UInt64 → Prop} {twin : Value}
    (hsound : value.Sound context) (h : Reloads places value twin) :
    ReloadsBefore context value twin :=
  movesBefore_of_parallel (fun _ _ h => h) hsound h

section

variable {record other : TypeRecord} {offset : UInt64} {parts : List Value}

private theorem exists_assign (hsound : (Value.struct record offset (parts.map some)).Sound context)
    (hsame : record.Same other) {slots : List (Option Value)} (hslots : Refills offset parts slots)
    {index : Nat} {part child : Value} (hpart : parts[index]? = some part)
    (hchild : Reloads (Before part.offset.toNat) part child) (name : String) :
    ∃ next, (Value.struct other 0 slots).assign context name index child =
        .done (.struct other 0 next) ∧ Refills offset parts next ∧
      next.map Option.isSome = (slots.set index (some child)).map Option.isSome := by
  have hlength : parts.length = (slots.set index (some child)).length := by
    rw [List.length_set, List.Forall₂.length_eq hslots]
  have hmoves : ∀ (number : Nat) (field entry : Value), parts[number]? = some field →
      (slots.set index (some child))[number]? = some (some entry) →
      ReloadsBefore context field entry := by
    intro number field entry hfield hentry
    have hmem := List.mem_map_of_mem (f := some) (List.mem_of_getElem? hfield)
    have hfieldSound := hsound.inside (mem_children_struct.mpr hmem)
    rw [List.getElem?_set] at hentry
    split at hentry
    · rename_i heq
      subst heq
      split at hentry
      · cases hentry
        cases hpart.symm.trans hfield
        exact reloadsBefore hfieldSound hchild
      · contradiction
    · exact reloadsBefore hfieldSound (rel_of_forall₂ hslots hfield hentry entry rfl)
  exact exists_moveTo_struct 0 hsound hsame hlength hmoves (zero_le_offset offset)

/-- The entry of an object is the field of some slot. -/
def FieldOf (context : Context) (record : TypeRecord) (parts : List Value)
    (entry : String × Input) : Prop :=
  ∃ (index : Nat) (slot : Slot) (part : Value), record.slots[index]? = some slot ∧
    slot.name = entry.1 ∧ parts[index]? = some part ∧ Remakes context part entry.2

/-- Fields in any order fill the slots of their names and leave no slot unset that was set. -/
private theorem exists_wrapFields
    (hsound : (Value.struct record offset (parts.map some)).Sound context)
    (hsame : record.Same other) (hnodup : (record.slots.map Slot.name).Nodup)
    {entries : List (String × Input)}
    (hentries : ∀ entry ∈ entries, FieldOf context record parts entry)
    {slots : List (Option Value)} (hslots : Refills offset parts slots) :
    ∃ made, wrapFields context (.struct other 0 slots) entries = .ok (.struct other 0 made) ∧
      Refills offset parts made ∧
      ∀ (index : Nat) (slot : Slot), record.slots[index]? = some slot →
        (slot.name ∈ entries.map Prod.fst ∨ (slots.map Option.isSome)[index]? = some true) →
        (made.map Option.isSome)[index]? = some true := by
  induction entries generalizing slots with
  | nil => exact ⟨slots, rfl, hslots, fun _ _ _ h => by simpa using h⟩
  | cons entry rest ih =>
      obtain ⟨name, input⟩ := entry
      obtain ⟨index, slot, part, hslot, rfl, hpart, hremakes⟩ := hentries _ (.head _)
      obtain ⟨declared, hdeclared, slotType, hresolve, htype⟩ :=
        hsound.typed.here index part (by simp [hpart])
      cases hslot.symm.trans hdeclared
      obtain ⟨child, hchild, hreloads⟩ := hremakes slotType htype
      obtain ⟨next, hassign, hnext, hset⟩ :=
        exists_assign hsound hsame hslots hpart hreloads slot.name
      have hstep : ((Value.struct other 0 slots).assignWith context slot.name fun slotType =>
          wrap context slotType input).result = .ok (.struct other 0 next) :=
        result_assignWith_eq_ok_iff.mpr ⟨index, slotType, child,
          slotTarget_of_nodup (hsame.slots_eq ▸ hnodup) (hsame.slots_eq ▸ hslot) hresolve, hchild,
          hassign⟩
      obtain ⟨made, hmade, hrefills, hall⟩ :=
        ih (fun entry hmem => hentries entry (.tail _ hmem)) hnext
      refine ⟨made, ?_, hrefills, fun number found hfound hnamed => hall number found hfound ?_⟩
      · exact wrapFields_cons_eq_ok_iff.mpr ⟨_, hstep, hmade⟩
      · have hbound : index < slots.length := by
          rw [← List.Forall₂.length_eq hslots]
          exact (List.getElem?_eq_some_iff.mp hpart).1
        rw [hset, List.getElem?_map, List.getElem?_set]
        rcases hnamed with hname | hold
        · rcases List.mem_cons.mp hname with heq | hname
          · have hnumber := TypeRecord.slotIndex?_of_nodup hnodup hfound
            have hindex := TypeRecord.slotIndex?_of_nodup hnodup hslot
            rw [show found.name = slot.name from heq, hindex, Option.some.injEq] at hnumber
            exact .inr (by rw [if_pos hnumber, if_pos hbound]; rfl)
          · exact .inl hname
        · refine .inr ?_
          split
          · rfl
          · rwa [List.getElem?_map] at hold

end

/-! ## Making values again -/

/-- Everything that can be assigned is, to a finite number where it is a float. -/
def AssignedHere : Value → Prop
  | .scalar _ _ content => ∃ scalar ∈ content, scalar.isFinite = true
  | .struct _ _ slots => none ∉ slots
  | .union _ _ active => active.isSome = true
  | .array .. => True

private theorem remakes_scalar {record : TypeRecord} {offset : UInt64} {scalar : Scalar}
    (hkind : record.kind.isScalar = true) (hfinite : scalar.isFinite = true) :
    ∃ input, Input.ofDocument scalar.toDocument = .ok input ∧
      Remakes context (.scalar record offset (some scalar)) input := by
  obtain ⟨number, hnumber, hscalar⟩ := Scalar.exists_number_of_isFinite hfinite
  refine ⟨.scalar number.toScalar, by rw [hnumber]; rfl, fun other hsame => ?_⟩
  refine ⟨_, wrap_scalar (hsame.kind_eq ▸ hkind) _, .scalar hsame ?_ hscalar⟩
  simp [Before, Value.offset]

private theorem remakes_active {record : TypeRecord} {offset : UInt64} {name : String}
    {child : Value} {input : Input}
    (hsound : (Value.union record offset (some (name, child))).Sound context)
    (hremakes : Remakes context child input) :
    Remakes context (.union record offset (some (name, child))) (.fields [(name, input)]) := by
  intro other hsame
  obtain ⟨slot, hslot, slotType, hresolve, htype⟩ := hsound.typed.here
  obtain rfl : child.offset = offset := hsound.placed.here
  obtain ⟨made, hmade, hreloads⟩ := hremakes slotType htype
  obtain ⟨moved, hmoved, hparallel⟩ :=
    reloadsBefore (hsound.inside (by simp)) hreloads 0 (zero_le_offset _)
  have hkind : other.kind = .union := hsame.kind_eq ▸ hsound.shaped.here.1
  obtain ⟨index, htarget⟩ : ∃ index, (Value.union other 0 none).slotTarget context name =
      .ok (index, slotType) :=
    exists_slotTarget hkind (.inr hkind) ((hsame.slot?_eq name).symm.trans hslot) hresolve
  have hmove : (Value.union other 0 (some (name, made))).moveTo context 0 =
      .done (.union other 0 (some (name, moved))) :=
    moveTo_active_eq_done_iff.mpr ⟨moved, hmoved, rfl⟩
  have hstep : ((Value.union other 0 none).assignWith context name fun slotType =>
      wrap context slotType input).result = .ok (.union other 0 (some (name, moved))) :=
    result_assignWith_eq_ok_iff.mpr ⟨index, slotType, made, htarget, hmade, hmove⟩
  refine ⟨.union other 0 (some (name, moved)), ?_,
    .union hsame (before_of_le (zero_le_offset _)) hparallel⟩
  rw [wrap_union hkind]
  exact wrapFields_cons_eq_ok_iff.mpr ⟨_, hstep, rfl⟩

private theorem remakes_struct {record : TypeRecord} {offset : UInt64} {parts : List Value}
    {entries : List (String × Input)}
    (hsound : (Value.struct record offset (parts.map some)).Sound context)
    (hnodup : (record.slots.map Slot.name).Nodup)
    (hentries : ∀ entry ∈ entries, FieldOf context record parts entry)
    (hnames : ∀ slot ∈ record.slots, slot.name ∈ entries.map Prod.fst) :
    Remakes context (.struct record offset (parts.map some)) (.fields entries) := by
  intro other hsame
  have hkind : other.kind = .struct := hsame.kind_eq ▸ hsound.shaped.here.1
  have hlength : parts.length = record.slots.length := by
    simpa using hsound.shaped.here.2
  have hslots : other.slots = record.slots := hsame.slots_eq.symm
  have hunset : Refills offset parts (other.slots.map fun _ => none) :=
    forall₂_of_getElem? (by simp [hslots, hlength]) fun index part entry _ hentry => by
      have hnone : entry = none := by
        rw [List.map_const', List.getElem?_replicate] at hentry
        simp_all
      simp [hnone]
  obtain ⟨made, hmade, hrefills, hall⟩ := exists_wrapFields hsound hsame hnodup hentries hunset
  have hset : none ∉ made := by
    intro hmem
    obtain ⟨index, hindex⟩ := List.getElem?_of_mem hmem
    have hbound : index < record.slots.length := by
      rw [← hlength, List.Forall₂.length_eq hrefills]
      exact (List.getElem?_eq_some_iff.mp hindex).1
    have hslot := List.getElem?_eq_getElem hbound
    have hsome := hall index _ hslot (.inl (hnames _ (List.mem_of_getElem? hslot)))
    rw [List.getElem?_map, hindex] at hsome
    contradiction
  obtain ⟨twins, rfl⟩ := exists_map_some hset
  rw [Refills, List.forall₂_map_right_iff] at hrefills
  refine ⟨.struct other 0 (twins.map some), by rw [wrap_struct hkind, hmade],
    .struct hsame (by simp [Before, Value.offset]) (hrefills.imp fun _ twin h => h twin rfl)⟩

private theorem exists_wrapItems {record other : TypeRecord} {offset : UInt64}
    {front rest twins : List Value} {inputs : List Input}
    (hsound : (Value.array record offset (front ++ rest)).Sound context)
    (hsame : record.Same other) (hinputs : List.Forall₂ (Remakes context) rest inputs)
    (htwins : List.Forall₂ (Reloads (Before offset.toNat)) front twins) :
    ∃ made, wrapItems context (.array other 0 twins) inputs = .ok (.array other 0 made) ∧
      List.Forall₂ (Reloads (Before offset.toNat)) (front ++ rest) made := by
  induction hinputs generalizing front twins with
  | nil => exact ⟨twins, rfl, by simpa using htwins⟩
  | @cons item input rest inputs hremakes _ ih =>
      have hitem : (front ++ item :: rest)[front.length]? = some item := by simp
      obtain ⟨name, stride, helement, hstride, -⟩ := hsound.placed.here front.length item hitem
      obtain ⟨⟨slotType, hresolve, htype⟩, -⟩ := hsound.item helement hstride hitem
      obtain ⟨found, hfound, hsize⟩ := Context.sizeOf_eq_ok_iff.mp hstride
      cases hresolve.symm.trans hfound
      obtain ⟨child, hchild, hreloads⟩ := hremakes slotType htype
      have hbefore : ReloadsBefore context item child :=
        reloadsBefore (hsound.inside (List.mem_of_getElem? hitem)) hreloads
      obtain ⟨earlier, moved, hearlier, hmoved, hparallel⟩ :=
        exists_moveTo_item hsound helement hstride hitem hbefore (zero_le_offset offset)
      have hpush : ((Value.array other 0 twins).pushWith context fun element =>
          wrap context element input) = .ok (.array other 0 (twins ++ [moved])) := by
        have helementType : context.elementType other = .ok (slotType, stride) :=
          elementType_eq_ok_iff.mpr
            ⟨name, hsame.element_eq.symm.trans helement, hresolve, hsize⟩
        rw [htwins.length_eq] at hearlier
        exact pushWith_array_eq_ok_iff.mpr
          ⟨slotType, stride, child, earlier, moved, helementType, hchild, hearlier, hmoved, rfl⟩
      rw [List.append_cons] at hsound ⊢
      obtain ⟨made, hmade, hall⟩ := ih hsound (List.rel_append htwins (.cons hparallel .nil))
      exact ⟨made, wrapItems_cons_eq_ok_iff.mpr ⟨_, hpush, hmade⟩, hall⟩

/-- The document of a value is material that makes it again. -/
theorem exists_remakes (hsound : value.Sound context) (hassigned : value.Everywhere AssignedHere)
    (hdistinct : value.Everywhere DistinctHere) :
    ∃ input, Input.ofDocument value.toDocument = .ok input ∧ Remakes context value input := by
  induction value using Value.induction with
  | unset record offset => exact absurd hassigned.here (by simp [AssignedHere])
  | scalar record offset content =>
      obtain ⟨scalar, rfl, hfinite⟩ := hassigned.here
      exact remakes_scalar hsound.shaped.here hfinite
  | active record offset name child ih =>
      obtain ⟨input, hinput, hremakes⟩ := ih (hsound.inside (by simp))
        (hassigned.inside child (by simp)) (hdistinct.inside child (by simp))
      refine ⟨.fields [(name, input)], ?_, remakes_active hsound hremakes⟩
      exact Input.ofDocument_object_eq_ok_iff.mpr ⟨_, .cons ⟨rfl, hinput⟩ .nil, rfl⟩
  | struct record offset slots ih =>
      obtain ⟨parts, rfl⟩ := exists_map_some hassigned.here
      have hlength : parts.length = record.slots.length := by
        simpa using hsound.shaped.here.2
      have hnodup : (record.slots.map Slot.name).Nodup := hdistinct.here
      have hperm := Json.perm_sortEntries (keys_fieldDocuments hlength ▸ hnodup)
      obtain ⟨inputs, hinputs⟩ : ∃ inputs, List.Forall₂ (fun entry input =>
          entry.1 = input.1 ∧ Input.ofDocument entry.2 = .ok input.2 ∧
          FieldOf context record parts input)
          (Json.sortEntries (fieldDocuments record parts)) inputs := by
        refine exists_forall₂ fun entry hentry => ?_
        obtain ⟨index, hindex⟩ := List.getElem?_of_mem (hperm.mem_iff.mp hentry)
        obtain ⟨slot, part, hslot, hpart, rfl⟩ := List.getElem?_zipWith_eq_some.mp hindex
        have hmem : some part ∈ parts.map some := List.mem_map_of_mem (List.mem_of_getElem? hpart)
        have hchild : part ∈ (Value.struct record offset (parts.map some)).children :=
          mem_children_struct.mpr hmem
        obtain ⟨input, hinput, hremakes⟩ := ih part hmem (hsound.inside hchild)
          (hassigned.inside part hchild) (hdistinct.inside part hchild)
        exact ⟨(slot.name, input), rfl, hinput, index, slot, part, hslot, rfl, hpart, hremakes⟩
      refine ⟨.fields inputs, ?_, remakes_struct hsound hnodup (fun input hmem => ?_) ?_⟩
      · rw [toDocument_struct hnodup hlength]
        exact Input.ofDocument_object_eq_ok_iff.mpr
          ⟨inputs, hinputs.imp fun _ _ h => ⟨h.1, h.2.1⟩, rfl⟩
      · obtain ⟨entry, -, -, -, hfield⟩ := exists_of_mem_forall₂ hinputs hmem
        exact hfield
      · intro slot hslot
        rw [← map_eq_map_of_forall₂ hinputs fun _ _ h => h.1, (hperm.map _).mem_iff,
          keys_fieldDocuments hlength]
        exact List.mem_map_of_mem hslot
  | array record offset items ih =>
      obtain ⟨inputs, hinputs⟩ : ∃ inputs, List.Forall₂ (fun item input =>
          Input.ofDocument item.toDocument = .ok input ∧ Remakes context item input)
          items inputs :=
        exists_forall₂ fun item hmem => ih item hmem (hsound.inside hmem)
          (hassigned.inside item hmem) (hdistinct.inside item hmem)
      refine ⟨.items inputs, ?_, fun other hsame => ?_⟩
      · rw [toDocument, itemDocuments_eq_map]
        refine Input.ofDocument_array_eq_ok_iff.mpr ⟨inputs, ?_, rfl⟩
        exact List.forall₂_map_left_iff.mpr (hinputs.imp fun _ _ h => h.1)
      · have hkind : other.kind = .array := hsame.kind_eq ▸ hsound.shaped.here
        have hfront : (Value.array record offset ([] ++ items)).Sound context := hsound
        obtain ⟨made, hmade, hreloads⟩ :=
          exists_wrapItems hfront hsame (hinputs.imp fun _ _ h => h.2) .nil
        exact ⟨.array other 0 made, by rw [wrap_array hkind, hmade],
          .array hsame (by simp [Before, Value.offset]) hreloads⟩

theorem parallel_refl (hassigned : value.Everywhere AssignedHere) :
    Parallel (· = ·) (fun _ _ => True) (· = ·) value value := by
  induction value using Value.induction with
  | unset record offset => exact absurd hassigned.here (by simp [AssignedHere])
  | scalar record offset content =>
      obtain ⟨scalar, rfl, -⟩ := hassigned.here
      exact .scalar rfl trivial rfl
  | active record offset name child ih =>
      exact .union rfl trivial (ih (hassigned.inside child (by simp)))
  | struct record offset slots ih =>
      obtain ⟨parts, rfl⟩ := exists_map_some hassigned.here
      refine .struct rfl trivial (List.forall₂_same.mpr fun part hpart => ?_)
      have hmem : some part ∈ parts.map some := List.mem_map_of_mem hpart
      exact ih part hmem (hassigned.inside part (mem_children_struct.mpr hmem))
  | array record offset items ih =>
      exact .array rfl trivial
        (List.forall₂_same.mpr fun item hmem => ih item hmem (hassigned.inside item hmem))

end Value

namespace Context

variable {context : Context} {value : Value}

/-- The document of a value made by a clean run, with everything in it assigned and no two slots of a
struct of one name, makes the value again as a move to zero leaves it: the same types, active slots,
numbers of elements and offsets, and the same scalars but for unsigned ones in the signed range. -/
theorem wrap_toDocument {session : Session} {variableName : String}
    (hrun : Session.CleanRun (.start context) session)
    (hheld : session.held variableName = some value)
    (hassigned : value.Everywhere Value.AssignedHere)
    (hdistinct : value.Everywhere Value.DistinctHere) {record : TypeRecord}
    (htype : value.record.Same record) :
    ∃ input moved made, Input.ofDocument value.toDocument = .ok input ∧
      value.moveTo context 0 = .done moved ∧ Value.wrap context record input = .ok made ∧
      Value.Reloads (· = ·) moved made := by
  have hsound := Session.sound_of_cleanRun hrun hheld
  obtain ⟨input, hinput, hremakes⟩ := Value.exists_remakes hsound hassigned hdistinct
  obtain ⟨made, hmade, hreloads⟩ := hremakes record htype
  obtain ⟨moved, hmoved, hparallel⟩ := Value.movesBefore_of_parallel (fun _ _ h => .inl h) hsound
    (Value.parallel_refl hassigned) 0 (Value.zero_le_offset _)
  refine ⟨input, moved, made, hinput, hmoved, hmade, hparallel.combine hreloads ?_ ?_ ?_⟩
  · rintro _ _ _ rfl hsame
    exact hsame
  · intro place earlier other hearlier hother
    simp only [Value.Before, UInt64.toNat_zero, Nat.sub_zero] at hearlier hother
    exact UInt64.toNat_inj.mp (by omega)
  · rintro _ _ _ rfl hstored
    exact hstored

theorem wrap_toDocument_frame :
    ∃ session input moved made, Session.CleanRun (.start frameContext) session ∧
      session.held "frame" = some (.frameValue 0) ∧
      Input.ofDocument (Value.frameValue 0).toDocument = .ok input ∧
      (Value.frameValue 0).moveTo frameContext 0 = .done moved ∧
      Value.wrap frameContext (Value.frameValue 0).record input = .ok made ∧
      Value.Reloads (· = ·) moved made := by
  obtain ⟨session, hrun, -, hheld⟩ := Session.cleanRun_frame
  have hassigned : (Value.frameValue 0).Everywhere Value.AssignedHere := by
    refine Value.everywhere_frameValue ?_ ?_ ?_
    · simp [Value.frameValue, Value.AssignedHere]
    · simp [Value.frameValue, Value.children, Value.AssignedHere, Scalar.isFinite]
    · have hfinite : ((Value.frameValue 0).leaves.all fun leaf =>
          leaf.content.any Scalar.isFinite) = true := by decide +kernel
      intro leaf hleaf
      simpa [Value.AssignedHere, Option.any_eq_true] using List.all_eq_true.mp hfinite leaf hleaf
  obtain ⟨input, moved, made, hinput, hmoved, hmade, hreloads⟩ :=
    wrap_toDocument hrun hheld hassigned (Value.distinct_frameValue 0) (.refl _)
  exact ⟨session, input, moved, made, hrun, hheld, hinput, hmoved, hmade, hreloads⟩

end Context

end BinarySchema
