import BinarySchema.Proofs.Value.WriteBack

/-!
# Fields of types

The description of a type's parts agrees with the values that are read of it and with the size that
is computed for it, though each of the three goes its own way over the parts and counts the levels
of nesting from another start.
-/

namespace BinarySchema

/-! ## How fields come about -/

/-- The place behind a field, counted from the start of the whole. -/
def Field.stop (field : Field) : Nat :=
  field.offset.toNat + field.size.toNat

def Field.slot (field : Field) : Slot :=
  ⟨field.name, field.typeName⟩

/-- The field of a slot of a union. -/
structure Field.OfUnionSlot (context : Context) (slot : Slot) (field : Field) : Prop where
  slot_eq : field.slot = slot
  offset_eq : field.offset = 0
  size_eq : context.partSize context.limits.depth slot.typeName = .ok field.size

/-- The field of an element of an array, by its number. -/
structure Field.OfElement (element : String) (stride : UInt64) (index : Nat) (field : Field) :
    Prop where
  name_eq : field.name = elementLabel index
  typeName_eq : field.typeName = element
  offset_eq : field.offset.toNat = index * stride.toNat
  size_eq : field.size = stride

namespace Context

variable {context : Context} {name : String} {record : TypeRecord} {fields : List Field}

/-- The fields of a type, kind by kind. -/
inductive FieldsOf (context : Context) (record : TypeRecord) : List Field → Prop
  | struct {placements : List Placement} (hkind : record.kind = .struct)
      (hplacements : context.slotPlacements record = .ok placements) :
      FieldsOf context record (List.zipWith structField record.slots placements)
  | union {fields : List Field} (hkind : record.kind = .union)
      (hfields : List.Forall₂ (Field.OfUnionSlot context) record.slots fields) :
      FieldsOf context record fields
  | array {element : String} {stride : UInt64} {fields : List Field} (hkind : record.kind = .array)
      (helement : record.element = some element)
      (hstride : context.partSize context.limits.depth element = .ok stride)
      (hfields : List.Forall₂ (Field.OfElement element stride)
        (List.range (record.length.getD 0).toNat) fields) :
      FieldsOf context record fields
  | scalar (hkind : record.kind.isScalar = true) : FieldsOf context record []

theorem unionField_eq_ok_iff {slot : Slot} {field : Field} :
    context.unionField slot = .ok field ↔ field.OfUnionSlot context slot := by
  change context.partSize context.limits.depth slot.typeName >>= (fun size =>
    pure (⟨slot.name, slot.typeName, 0, size⟩ : Field)) = .ok field ↔ _
  obtain ⟨name, typeName, offset, size⟩ := field
  obtain ⟨slotName, slotType⟩ := slot
  simp only [bind_eq_ok_iff, pure, Except.pure, Except.ok.injEq, Field.mk.injEq]
  constructor
  · rintro ⟨width, hwidth, rfl, rfl, rfl, rfl⟩
    exact ⟨rfl, rfl, hwidth⟩
  · rintro ⟨hslot, rfl, hwidth⟩
    cases hslot
    exact ⟨size, hwidth, rfl, rfl, rfl, rfl⟩

theorem elementField_eq_ok_iff {element : String} {stride : UInt64} {index : Nat} {field : Field} :
    elementField element stride index = .ok field ↔ field.OfElement element stride index := by
  obtain ⟨name, typeName, offset, size⟩ := field
  simp only [elementField, bind_eq_ok_iff, elementOffset_eq_ok_iff, pure, Except.pure,
    Except.ok.injEq, Field.mk.injEq, UInt64.toNat_zero, Nat.zero_add]
  constructor
  · rintro ⟨start, hstart, rfl, rfl, rfl, rfl⟩
    exact ⟨rfl, rfl, hstart, rfl⟩
  · rintro ⟨hname, htype, hstart, hsize⟩
    cases hname
    cases htype
    cases hsize
    exact ⟨offset, hstart, rfl, rfl, rfl, rfl⟩

theorem exists_fieldsOf (h : context.fields name = .ok fields) :
    ∃ record, context.resolve? name = some record ∧ context.FieldsOf record fields := by
  unfold Context.fields at h
  simp only [bind_eq_ok_iff, require_eq_ok_iff] at h
  obtain ⟨record, hresolve, h⟩ := h
  refine ⟨record, hresolve, ?_⟩
  split at h
  · rename_i hkind
    obtain ⟨placements, hplacements, hpure⟩ := bind_eq_ok_iff.mp h
    cases hpure
    exact .struct hkind hplacements
  · rename_i hkind
    rw [mapM_eq_ok_iff] at h
    exact .union hkind (h.imp fun _ _ => unionField_eq_ok_iff.mp)
  · rename_i hkind
    simp only [bind_eq_ok_iff, elementName_eq_ok_iff] at h
    obtain ⟨element, helement, stride, hstride, h⟩ := h
    split at h
    · contradiction
    · rw [mapM_eq_ok_iff] at h
      exact .array hkind helement hstride (h.imp fun _ _ => elementField_eq_ok_iff.mp)
  · rename_i hkind
    cases h
    exact .scalar (by simp [hkind, Kind.isScalar])
  · rename_i hkind
    cases h
    exact .scalar (by simp [hkind, Kind.isScalar])
  · contradiction

theorem getElem?_structFields {placements : List Placement} {index : Nat} {field : Field} :
    (List.zipWith structField record.slots placements)[index]? = some field ↔
      ∃ slot placement, record.slots[index]? = some slot ∧ placements[index]? = some placement ∧
        structField slot placement = field := by
  rw [List.getElem?_zipWith_eq_some]

/-- Every field has the size of its type, also when that is asked for by name. -/
theorem FieldsOf.sizeOf (h : context.FieldsOf record fields) :
    ∀ field ∈ fields, context.sizeOf field.typeName = .ok field.size := by
  intro field hmem
  cases h with
  | struct _ hplacements =>
      obtain ⟨index, hindex⟩ := List.getElem?_of_mem hmem
      obtain ⟨slot, placement, hslot, hplacement, rfl⟩ := getElem?_structFields.mp hindex
      exact slotPlacements_size hplacements hslot hplacement
  | union _ hfields =>
      obtain ⟨slot, -, rfl, -, hsize⟩ := exists_of_mem_forall₂ hfields hmem
      exact sizeOf_of_partSize hsize
  | array _ _ hstride hfields =>
      obtain ⟨index, -, hfield⟩ := exists_of_mem_forall₂ hfields hmem
      rw [hfield.typeName_eq, hfield.size_eq]
      exact sizeOf_of_partSize hstride
  | scalar => contradiction

/-! ## The furthest field -/

private theorem foldl_max_eq {numbers : List Nat} {greatest : Nat}
    (hle : ∀ number ∈ numbers, number ≤ greatest) (hmem : greatest ∈ numbers ∨ greatest = 0) :
    numbers.foldl max 0 = greatest := by
  rw [List.foldl_max, Nat.zero_max]
  rcases hmem with hmem | rfl
  · rw [List.max?_eq_some_iff.mpr ⟨hmem, hle⟩, Option.getD_some]
  · cases hmax : numbers.max? with
    | none => rfl
    | some number => exact Nat.le_zero.mp (hle number (List.max?_eq_some_iff.mp hmax).1)

private theorem foldl_stops_struct {placements : List Placement} {size : UInt64}
    (hplacements : context.slotPlacements record = .ok placements)
    (hend : slotsEnd placements = .ok size) :
    ((List.zipWith structField record.slots placements).map Field.stop).foldl max 0 =
      size.toNat := by
  have hstops : (List.zipWith structField record.slots placements).map Field.stop =
      placements.map Placement.stop := by
    refine List.ext_getElem ?_ fun index hfield hplacement => ?_
    · simp [length_slotPlacements hplacements]
    · simp [structField, Field.stop, Placement.stop]
  rw [hstops]
  refine foldl_max_eq ?_ ?_
  · simpa using stop_le_slotsEnd (slotPlacements_pairwise hplacements) hend
  · unfold slotsEnd at hend
    split at hend
    · rename_i last hlast
      refine .inl (List.mem_map.mpr ⟨last, List.mem_of_getLast? hlast, ?_⟩)
      exact (addOffset_eq_ok_iff.mp hend).symm
    · cases hend
      exact .inr rfl

private theorem foldl_stops_union {slots : List Slot} {widest size : UInt64}
    (hfields : List.Forall₂ (Field.OfUnionSlot context) slots fields)
    (hwidest : widestSlot (context.partSize context.limits.depth) widest slots = .ok size) :
    (fields.map Field.stop).foldl max widest.toNat = size.toNat := by
  induction hfields generalizing widest with
  | nil =>
      cases hwidest
      rfl
  | cons hfield _ ih =>
      obtain ⟨width, hwidth, hrest⟩ := widestSlot_cons_iff.mp hwidest
      cases hfield.size_eq.symm.trans hwidth
      rw [List.map_cons, List.foldl_cons, Field.stop, hfield.offset_eq, UInt64.toNat_zero, Nat.zero_add,
        ← toNat_max]
      exact ih hrest

private theorem foldl_stops_array {element : String} {count : Nat} {stride : UInt64}
    (hfields : List.Forall₂ (Field.OfElement element stride) (List.range count) fields) :
    (fields.map Field.stop).foldl max 0 = count * stride.toNat := by
  have hstop : ∀ (index : Nat) (field : Field), fields[index]? = some field →
      index < count ∧ field.stop = (index + 1) * stride.toNat := by
    intro index field hfield
    obtain ⟨hlt, hof⟩ := rel_of_forall₂_range hfields hfield
    rw [Field.stop, hof.offset_eq, hof.size_eq, Nat.succ_mul]
    exact ⟨hlt, rfl⟩
  refine foldl_max_eq (fun number hmem => ?_) ?_
  · obtain ⟨field, hfield, rfl⟩ := List.mem_map.mp hmem
    obtain ⟨index, hindex⟩ := List.getElem?_of_mem hfield
    obtain ⟨hlt, heq⟩ := hstop index field hindex
    rw [heq]
    exact Nat.mul_le_mul_right _ hlt
  · cases count with
    | zero => exact .inr (Nat.zero_mul _)
    | succ count =>
        have hlength : fields.length = count + 1 := by simpa using hfields.length_eq.symm
        have hlast := List.getElem?_eq_getElem (show count < fields.length by omega)
        refine .inl (List.mem_map.mpr ⟨_, List.mem_of_getElem? hlast, ?_⟩)
        exact (hstop count _ hlast).2

/-- A size that is left to the parts reaches to the end of the furthest field. -/
theorem FieldsOf.size_eq {size : UInt64} (h : context.FieldsOf record fields)
    (hcomposite : record.kind.isComposite = true) (hnone : record.size = none)
    (hsize : context.sizeOfRecord record = .ok size) :
    size.toNat = (fields.map Field.stop).foldl max 0 := by
  have hparts := sizedByParts_of_sizeOfRecord hnone hsize
  symm
  cases h with
  | struct hkind hplacements =>
      obtain ⟨placed, hplaced, hend⟩ := hparts.of_struct hkind
      cases hplacements.symm.trans hplaced
      exact foldl_stops_struct hplacements hend
  | union hkind hfields => exact foldl_stops_union hfields (hparts.of_union hkind)
  | @array element stride _ hkind helement hstride hfields =>
      have htotal : size.toNat = (record.length.getD 0).toNat * stride.toNat := by
        cases hparts with
        | openArray _ hlength => simp [hlength]
        | array _ hlength hname hwidth htotal =>
            cases helement.symm.trans hname
            cases hstride.symm.trans hwidth
            rw [hlength, Option.getD_some, htotal]
        | struct hother | union hother => simp [hkind] at hother
      rw [htotal]
      exact foldl_stops_array hfields
  | scalar hkind => cases hother : record.kind <;> simp_all [Kind.isScalar, Kind.isComposite]

/-! ## Fields of values -/

end Context

/-- The part of a value, of a whole that starts at `offset`, is what a field describes. -/
structure Field.Describes (context : Context) (offset : UInt64) (field : Field) (part : Value) :
    Prop where
  ofType : part.OfType context field.typeName
  offset_eq : part.offset.toNat = offset.toNat + field.offset.toNat

/-- The fields of a type describe the parts of a value of it: one for each slot of a struct and for
each element of an array, in order; for a union, whose slots all start where it does, the active one
is among them. -/
inductive Value.DescribedBy (context : Context) (fields : List Field) : Value → Prop
  | scalar {record : TypeRecord} {offset : UInt64} {content : Option Scalar} (hnone : fields = []) :
      DescribedBy context fields (.scalar record offset content)
  | struct {record : TypeRecord} {offset : UInt64} {parts : List Value}
      (hslots : fields.map Field.slot = record.slots)
      (hparts : List.Forall₂ (Field.Describes context offset) fields parts) :
      DescribedBy context fields (.struct record offset (parts.map some))
  | union {record : TypeRecord} {offset : UInt64} {field : Field} {part : Value}
      (hslots : fields.map Field.slot = record.slots) (hstarts : ∀ field ∈ fields, field.offset = 0)
      (hactive : field ∈ fields) (hpart : field.Describes context offset part)
      (hoffset : part.offset = offset) :
      DescribedBy context fields (.union record offset (some (field.name, part)))
  | array {record : TypeRecord} {offset : UInt64} {items : List Value}
      (hlabels : fields.map Field.name = (List.range items.length).map elementLabel)
      (helements : ∀ field ∈ fields, record.element = some field.typeName)
      (hitems : List.Forall₂ (Field.Describes context offset) fields items) :
      DescribedBy context fields (.array record offset items)

namespace Value

variable {context : Context} {name : String} {record : TypeRecord} {fields : List Field}
  {value : Value} {buffer : Buffer}

private theorem describes_of_slot {own : TypeRecord} {offset : UInt64} {slots : List (Option Value)}
    {placements : List Placement} (hsame : own.Same record)
    (hsound : (Value.struct own offset slots).Sound context)
    (hplacements : context.slotPlacements record = .ok placements) {index : Nat} {field : Field}
    {part : Value} (hfield : (List.zipWith structField record.slots placements)[index]? = some field)
    (hpart : slots[index]? = some (some part)) : field.Describes context offset part := by
  obtain ⟨slot, placement, hslot, hplacement, rfl⟩ := Context.getElem?_structFields.mp hfield
  obtain ⟨other, place, hother, hplace, htype, hoffset⟩ :=
    hsound.slot (hsame.slotPlacements_eq.trans hplacements) hpart
  rw [hsame.slots_eq] at hother
  cases hslot.symm.trans hother
  cases hplacement.symm.trans hplace
  exact ⟨htype, hoffset⟩

theorem describedBy_of_sound (h : context.FieldsOf record fields) (hsame : value.record.Same record)
    (hsound : value.Sound context) (hcomplete : value.Complete)
    (hlength : value.record.kind = .array → value.record.length ≠ none) :
    value.DescribedBy context fields := by
  have hslots := hsame.slots_eq
  cases h with
  | scalar hkind =>
      obtain ⟨own, offset, content, rfl⟩ :=
        exists_eq_scalar hsound.shaped.here (hsame.kind_eq ▸ hkind)
      exact .scalar rfl
  | @struct placements hkind hplacements =>
      obtain ⟨own, offset, slots, rfl⟩ :=
        exists_eq_struct hsound.shaped.here (hsame.kind_eq.trans hkind)
      obtain ⟨parts, rfl⟩ := exists_map_some hcomplete.here
      rw [Value.record] at hslots
      have hcount := Context.length_slotPlacements hplacements
      have hparts : (parts.map some).length = own.slots.length := hsound.shaped.here.2
      rw [List.length_map, hslots] at hparts
      refine .struct ?_ (forall₂_of_getElem? (by simp [hcount, hparts]) ?_)
      · rw [hslots]
        exact List.ext_getElem (by simp [hcount]) (by simp [Field.slot, structField])
      · intro index field part hfield hpart
        exact describes_of_slot hsame hsound hplacements hfield (by simp [hpart])
  | union hkind hfields =>
      obtain ⟨own, offset, active, rfl⟩ :=
        exists_eq_union hsound.shaped.here (hsame.kind_eq.trans hkind)
      obtain ⟨⟨name, part⟩, rfl⟩ := Option.isSome_iff_exists.mp hcomplete.here
      rw [Value.record] at hslots
      have hdeclared : own.slots = fields.map Field.slot := by
        rw [hslots, ← map_eq_map_of_forall₂ hfields fun slot field h => h.slot_eq.symm]
        exact (List.map_id _).symm
      have hstarts : ∀ field ∈ fields, field.offset = 0 := by
        intro field hmem
        obtain ⟨slot, -, hof⟩ := exists_of_mem_forall₂ hfields hmem
        exact hof.offset_eq
      obtain ⟨slot, hslot, htype⟩ := hsound.typed.here
      have hname : slot.name = name := by simpa using List.find?_some hslot
      have hmem := List.mem_of_find?_eq_some hslot
      rw [hdeclared] at hmem
      obtain ⟨field, hfield, rfl⟩ := List.mem_map.mp hmem
      have hoffset : part.offset = offset := hsound.placed.here
      subst hname
      refine .union hdeclared.symm hstarts hfield ⟨htype, ?_⟩ hoffset
      rw [hoffset, hstarts field hfield]
      rfl
  | @array element stride fields hkind helement hstride hfields =>
      obtain ⟨own, offset, items, rfl⟩ :=
        exists_eq_array hsound.shaped.here (hsame.kind_eq.trans hkind)
      obtain ⟨length, hown⟩ := Option.ne_none_iff_exists'.mp (hlength hsound.shaped.here)
      have hcount : items.length = length.toNat := hcomplete.here length hown
      rw [← hsame.length_eq, hown, Option.getD_some, ← hcount] at hfields
      have hstrideOf := Context.sizeOf_of_partSize hstride
      have helementOf : own.element = some element := hsame.element_eq.trans helement
      refine .array ?_ ?_ (forall₂_of_getElem? ?_ ?_)
      · exact (map_eq_map_of_forall₂ hfields fun index field h => h.name_eq.symm).symm
      · intro field hmem
        obtain ⟨index, -, hof⟩ := exists_of_mem_forall₂ hfields hmem
        rw [helementOf, hof.typeName_eq]
      · rw [← hfields.length_eq, List.length_range]
      · intro index field item hindex hitem
        obtain ⟨-, hof⟩ := rel_of_forall₂_range hfields hindex
        obtain ⟨htype, hoffset⟩ := hsound.item helementOf hstrideOf hitem
        exact ⟨hof.typeName_eq ▸ htype, by rw [hoffset, hof.offset_eq]⟩

/-- A value that was read lies at the place asked for, with nothing missing, its array length
declared. -/
theorem placed_of_read {offset : UInt64} (h : context.read name buffer offset = some (.ok value)) :
    value.Sound context ∧ value.Complete ∧ value.OfType context name ∧ value.offset = offset ∧
      (value.record.kind = .array → value.record.length ≠ none) := by
  obtain ⟨part, fuel, hpart, hfill⟩ := readWithin_of_read h
  obtain ⟨hsound, hrecord, hoffset⟩ := sound_of_readWithin hpart.sound hfill
  obtain ⟨hcomplete, -⟩ := readFrom_of_readWithin hpart.sound.shaped hfill
  refine ⟨hsound, hcomplete, ?_, hoffset.trans hpart.offset_eq, fun hkind => ?_⟩
  · obtain ⟨record, hresolve, hsame⟩ := hpart.ofType
    exact ⟨record, hresolve, hrecord ▸ hsame⟩
  · cases fuel with
    | zero => contradiction
    | succ fuel =>
        obtain ⟨own, start, items, rfl⟩ := exists_eq_array hsound.shaped.here hkind
        cases readStep_of_readWithin hpart.sound.shaped.here hfill with
        | array hlength => simp [Value.record, length_of_readLength hlength]

end Value

namespace Context

variable {context : Context} {name : String} {fields : List Field}

/-- The description of a type's parts agrees with reading and with sizing: the parts of every value
that is read lie where the fields say, every field has the size of its type, and a struct, union or
array without a declared size is as long as its fields reach. -/
theorem fields_agree (hfields : context.fields name = .ok fields) :
    (∀ buffer offset value, context.read name buffer offset = some (.ok value) →
      value.offset = offset ∧ value.OfType context name ∧ value.DescribedBy context fields) ∧
    (∀ field ∈ fields, context.sizeOf field.typeName = .ok field.size) ∧
    ∀ record size, context.resolve? name = some record → record.kind.isComposite = true →
      record.size = none → context.sizeOf name = .ok size →
      size.toNat = (fields.map Field.stop).foldl max 0 := by
  obtain ⟨record, hresolve, hof⟩ := exists_fieldsOf hfields
  refine ⟨fun buffer offset value hread => ?_, hof.sizeOf, ?_⟩
  · obtain ⟨hsound, hcomplete, htype, hoffset, hlength⟩ := Value.placed_of_read hread
    obtain ⟨found, hfound, hsame⟩ := id htype
    cases hresolve.symm.trans hfound
    exact ⟨hoffset, htype, Value.describedBy_of_sound hof hsame hsound hcomplete hlength⟩
  · intro other size hother hcomposite hnone hsize
    cases hresolve.symm.trans hother
    obtain ⟨found, hfound, hrecord⟩ := sizeOf_eq_ok_iff.mp hsize
    cases hresolve.symm.trans hfound
    exact hof.size_eq hcomposite hnone hrecord

theorem fields_agree_frame :
    ∃ fields value, frameContext.fields "frame" = .ok fields ∧
      fields.map Field.stop = [2, 4, 16] ∧ frameContext.sizeOf "frame" = .ok 16 ∧
      frameContext.read "frame" (.replicate 18 1) 2 = some (.ok value) ∧
      value.DescribedBy frameContext fields := by
  have hfields : frameContext.fields "frame" = .ok [⟨"tag", "word", 0, 2⟩,
      ⟨"body", "choice", 2, 2⟩, ⟨"levels", "level[2]", 8, 8⟩] := by decide +kernel
  have hread : ((frameContext.read "frame" (.replicate 18 1) 2).map Except.isOk) = some true := by
    decide +kernel
  obtain ⟨result, hresult, hok⟩ := Option.map_eq_some_iff.mp hread
  obtain ⟨hvalues, -, -⟩ := fields_agree hfields
  cases result with
  | error failure => contradiction
  | ok value => exact ⟨_, value, hfields, rfl, rfl, hresult, (hvalues _ _ _ hresult).2.2⟩

end Context

end BinarySchema
