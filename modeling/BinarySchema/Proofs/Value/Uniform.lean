import BinarySchema.Proofs.Layout.Tight
import BinarySchema.Proofs.Value.Fields
import BinarySchema.Proofs.Value.Levels

/-!
# Structs of equal slots

A struct whose slots are all of one type, packed or not, is an array of that type with other names
for its parts.  The slots begin at the multiples of the one size: behind a whole number of slots, the
next multiple of that size is where the last slot ends.
-/

namespace BinarySchema

/-! ## Rows of one size -/

theorem roundUp_mul (index size : Nat) : roundUp (index * size) size = index * size :=
  Nat.le_antisymm (roundUp_le (Nat.le_refl _) fun _ => Nat.dvd_mul_left _ _) (le_roundUp _ _)

theorem slotOffset_mul (packed : Bool) (index size : Nat) :
    slotOffset packed (index * size) size = index * size := by
  cases packed with
  | true => rfl
  | false => exact roundUp_mul index size

theorem slotStarts_replicate (packed : Bool) (index size count : Nat) :
    slotStarts packed (index * size) (.replicate count size) =
      (List.range' index count).map (· * size) := by
  induction count generalizing index with
  | zero => rfl
  | succ count ih =>
      simp only [List.replicate_succ, List.range'_succ, slotStarts, slotOffset_mul, List.map_cons]
      rw [← Nat.succ_mul, ih]

section

variable {packed : Bool} {sizeOf : String → Except Error UInt64} {element : String} {count : Nat}
  {stride : UInt64} {slots : List Slot} {placements : List Placement}

theorem sizes_of_equal_slots (hslots : slots.map Slot.typeName = .replicate count element)
    (hstride : ∀ size, sizeOf element = .ok size → size = stride)
    (h : placeSlots packed sizeOf 0 slots = .ok placements) :
    placements.map Placement.size = .replicate count stride := by
  obtain ⟨hcount, hnames⟩ := List.eq_replicate_iff.mp hslots
  refine List.eq_replicate_iff.mpr ⟨?_, ?_⟩
  · rw [List.length_map, length_placeSlots h, ← hcount, List.length_map]
  · intro size hmem
    obtain ⟨placement, hplacement, rfl⟩ := List.mem_map.mp hmem
    obtain ⟨index, hindex⟩ := List.getElem?_of_mem hplacement
    have hlt := (List.getElem?_eq_some_iff.mp hindex).1
    rw [length_placeSlots h] at hlt
    have hsize := placeSlots_size h (List.getElem?_eq_getElem hlt) hindex
    rw [hnames _ (List.mem_map_of_mem (List.getElem_mem hlt))] at hsize
    exact hstride _ hsize

theorem placement_of_equal_slots (hslots : slots.map Slot.typeName = .replicate count element)
    (hstride : ∀ size, sizeOf element = .ok size → size = stride)
    (h : placeSlots packed sizeOf 0 slots = .ok placements) {index : Nat} {placement : Placement}
    (hplacement : placements[index]? = some placement) :
    placement.size = stride ∧ placement.offset.toNat = index * stride.toNat := by
  have hsizes := sizes_of_equal_slots hslots hstride h
  have hoffsets := offsets_of_placeSlots h
  have hnumbers : placements.map (fun placement => placement.size.toNat) =
      .replicate count stride.toNat := by
    rw [← List.map_replicate, ← hsizes, List.map_map]
    rfl
  rw [hnumbers, UInt64.toNat_zero, ← Nat.zero_mul stride.toNat, slotStarts_replicate] at hoffsets
  have hsize : placement.size ∈ placements.map Placement.size :=
    List.mem_map_of_mem (List.mem_of_getElem? hplacement)
  have hoffset := congrArg (·[index]?) hoffsets
  simp only [List.getElem?_map, hplacement, Option.map_some] at hoffset
  obtain ⟨number, hnumber, hplace⟩ := Option.map_eq_some_iff.mp hoffset.symm
  obtain ⟨hlt, rfl⟩ := List.getElem?_eq_some_iff.mp hnumber
  rw [List.getElem_range', Nat.zero_add, Nat.one_mul] at hplace
  exact ⟨List.eq_of_mem_replicate (hsizes ▸ hsize), hplace.symm⟩

theorem slotsEnd_of_equal_slots (hslots : slots.map Slot.typeName = .replicate count element)
    (hstride : ∀ size, sizeOf element = .ok size → size = stride)
    (h : placeSlots packed sizeOf 0 slots = .ok placements) {size : UInt64}
    (hend : slotsEnd placements = .ok size) : size.toNat = count * stride.toNat := by
  have hcount := congrArg List.length (sizes_of_equal_slots hslots hstride h)
  rw [List.length_map, List.length_replicate] at hcount
  unfold slotsEnd at hend
  cases hlast : placements.getLast? with
  | none =>
      rw [List.getLast?_eq_none_iff] at hlast
      subst hlast hcount
      cases hend
      simp
  | some last =>
      rw [hlast] at hend
      rw [List.getLast?_eq_getElem?] at hlast
      have hlt := (List.getElem?_eq_some_iff.mp hlast).1
      obtain ⟨hsize, hoffset⟩ := placement_of_equal_slots hslots hstride h hlast
      rw [addOffset_eq_ok_iff.mp hend, hsize, hoffset, ← Nat.succ_mul, hcount]
      congr 1
      omega

end

/-! ## Arrays as structs -/

/-- The struct has a slot of the elements' type for each element of the array, and neither of the two
declares a size. -/
structure TypeRecord.Unrolls (record array : TypeRecord) (element : String) (length : UInt64) :
    Prop where
  record_kind : record.kind = .struct
  array_kind : array.kind = .array
  record_size : record.size = none
  array_size : array.size = none
  element_eq : array.element = some element
  length_eq : array.length = some length
  slots_eq : record.slots.map Slot.typeName = .replicate length.toNat element

namespace TypeRecord.Unrolls

variable {context : Context} {record array : TypeRecord} {element : String}
  {length stride : UInt64}

theorem length_slots (h : record.Unrolls array element length) :
    record.slots.length = length.toNat := by
  simpa using congrArg List.length h.slots_eq

theorem typeName_eq (h : record.Unrolls array element length) {slot : Slot}
    (hslot : slot ∈ record.slots) : slot.typeName = element :=
  List.eq_of_mem_replicate (h.slots_eq ▸ List.mem_map_of_mem hslot)

theorem stride_unique (hstride : context.sizeOf element = .ok stride) (size : UInt64)
    (hsize : context.partSize context.limits.depth element = .ok size) : size = stride :=
  Except.ok.inj ((Context.sizeOf_of_partSize hsize).symm.trans hstride)

theorem placement (h : record.Unrolls array element length)
    (hstride : context.sizeOf element = .ok stride) {placements : List Placement}
    (hplacements : context.slotPlacements record = .ok placements) {index : Nat}
    {placement : Placement} (hplacement : placements[index]? = some placement) :
    placement.size = stride ∧ placement.offset.toNat = index * stride.toNat :=
  placement_of_equal_slots h.slots_eq (stride_unique hstride) hplacements hplacement

theorem size_eq (h : record.Unrolls array element length) {size other : UInt64}
    (hsize : context.sizeOfRecord array = .ok size)
    (hother : context.sizeOfRecord record = .ok other) : size = other := by
  obtain ⟨name, stride, hname, hstride, htotal⟩ :=
    Context.stride_of_sizeOfRecord h.array_kind h.array_size h.length_eq hsize
  cases h.element_eq.symm.trans hname
  obtain ⟨placements, hplacements, hend⟩ :=
    (Context.sizedByParts_of_sizeOfRecord h.record_size hother).of_struct h.record_kind
  have hslots := slotsEnd_of_equal_slots h.slots_eq (stride_unique hstride) hplacements hend
  exact UInt64.toNat_inj.mp (htotal.trans hslots.symm)

theorem fields_eq (h : record.Unrolls array element length) {fields others : List Field}
    (hfields : context.FieldsOf array fields) (hothers : context.FieldsOf record others) :
    fields.map (fun field => (field.offset, field.size)) =
      others.map (fun field => (field.offset, field.size)) := by
  cases hfields with
  | struct hkind | union hkind | scalar hkind => simp [h.array_kind, Kind.isScalar] at hkind
  | @array name stride _ _ hname hstride helements =>
  cases hothers with
  | union hkind | array hkind | scalar hkind => simp [h.record_kind, Kind.isScalar] at hkind
  | @struct placements _ hplacements =>
  cases h.element_eq.symm.trans hname
  rw [h.length_eq, Option.getD_some] at helements
  have hslots := helements.length_eq
  have hcount := Context.length_slotPlacements hplacements
  rw [List.length_range] at hslots
  refine map_eq_map_of_forall₂ (R := fun field other =>
    field.offset = other.offset ∧ field.size = other.size)
    (forall₂_of_getElem? (by simp [← hslots, hcount, h.length_slots]) ?_)
    fun field other heq => Prod.ext heq.1 heq.2
  intro index field other hfield hother
  obtain ⟨slot, placement, -, hplacement, rfl⟩ := Context.getElem?_structFields.mp hother
  obtain ⟨-, helement⟩ := rel_of_forall₂_range helements hfield
  obtain ⟨hsize, hoffset⟩ :=
    h.placement (Context.sizeOf_of_partSize hstride) hplacements hplacement
  exact ⟨UInt64.toNat_inj.mp (helement.offset_eq.trans hoffset.symm),
    helement.size_eq.trans hsize.symm⟩

end TypeRecord.Unrolls

namespace Context

variable {context : Context} {record array : TypeRecord} {element : String} {length : UInt64}

/-- Elements and slots are read from the same places. -/
theorem read_unrolled (h : record.Unrolls array element length) {arrayName name : String}
    (harray : context.resolve? arrayName = some array) (hname : context.resolve? name = some record)
    {buffer : Buffer} {offset : UInt64} {value other : Value}
    (hvalue : context.read arrayName buffer offset = some (.ok value))
    (hother : context.read name buffer offset = some (.ok other)) :
    ∃ items, items.length = length.toNat ∧ value = .array array offset items ∧
      other = .struct record offset (items.map some) := by
  obtain ⟨stride, heq, hstride, hcount, hitems⟩ :=
    Value.items_of_read harray h.array_kind h.length_eq h.element_eq hvalue
  obtain ⟨placements, children, hplacements, rfl, hslots, hchildren⟩ :=
    Value.slots_of_read hname h.record_kind hother
  have hsame : List.Forall₂ (· = ·) value.items children := by
    refine forall₂_of_getElem? (by rw [hcount, hslots, h.length_slots]) ?_
    intro index item child hitem hchild
    obtain ⟨start, hstart, hread⟩ := hitems index item hitem
    obtain ⟨slot, placement, place, hslot, hplacement, hplace, hlast⟩ :=
      hchildren index child hchild
    obtain ⟨-, hoffset⟩ := h.placement hstride hplacements hplacement
    rw [hoffset] at hplace
    cases UInt64.toNat_inj.mp (hstart.trans hplace.symm)
    rw [h.typeName_eq (List.mem_of_getElem? hslot)] at hlast
    exact Except.ok.inj (Option.some.inj (hread.symm.trans hlast))
  rw [List.forall₂_eq_eq_eq] at hsame
  exact ⟨value.items, hcount, heq, by rw [hsame]⟩

/-- An array and a struct with as many slots of its elements' type have one size, one list of places
and, wherever both are read, the same parts. -/
theorem unrolls_agree (h : record.Unrolls array element length) {arrayName name : String}
    (harray : context.resolve? arrayName = some array)
    (hname : context.resolve? name = some record) :
    (∀ size other, context.sizeOf arrayName = .ok size → context.sizeOf name = .ok other →
      size = other) ∧
    (∀ fields others, context.fields arrayName = .ok fields → context.fields name = .ok others →
      fields.map (fun field => (field.offset, field.size)) =
        others.map (fun field => (field.offset, field.size))) ∧
    ∀ (buffer : Buffer) (offset : UInt64) (value other : Value),
      context.read arrayName buffer offset = some (.ok value) →
      context.read name buffer offset = some (.ok other) →
      ∃ items, items.length = length.toNat ∧ value = .array array offset items ∧
        other = .struct record offset (items.map some) := by
  refine ⟨fun size other hsize hother => ?_, fun fields others hfields hothers => ?_,
    fun buffer offset value other => read_unrolled h harray hname⟩
  · obtain ⟨found, hfound, hsize⟩ := sizeOf_eq_ok_iff.mp hsize
    obtain ⟨last, hlast, hother⟩ := sizeOf_eq_ok_iff.mp hother
    cases harray.symm.trans hfound
    cases hname.symm.trans hlast
    exact h.size_eq hsize hother
  · obtain ⟨found, hfound, hfields⟩ := exists_fieldsOf hfields
    obtain ⟨last, hlast, hothers⟩ := exists_fieldsOf hothers
    cases harray.symm.trans hfound
    cases hname.symm.trans hlast
    exact h.fields_eq hfields hothers

/-! ### A pair of triples -/

def triplePair : TypeRecord :=
  .struct "pair" [⟨"first", "byte[3]"⟩, ⟨"second", "byte[3]"⟩]

def tripleArray : TypeRecord :=
  .array "byte[3][2]" "byte[3]" (some 2)

def tripleContext : Context :=
  .ofRecords [.base "byte" 1 .unsigned, triplePair] .arm {}

/-- Three bytes are no power of two: the second part begins at the third byte. -/
theorem unrolls_agree_triples :
    triplePair.Unrolls tripleArray "byte[3]" 2 ∧
      tripleContext.resolve? "byte[3][2]" = some tripleArray ∧
      tripleContext.resolve? "pair" = some triplePair ∧
      tripleContext.sizeOf "byte[3][2]" = .ok 6 ∧ tripleContext.sizeOf "pair" = .ok 6 ∧
      (∃ fields others, tripleContext.fields "byte[3][2]" = .ok fields ∧
        tripleContext.fields "pair" = .ok others ∧
        fields.map (fun field => (field.offset, field.size)) =
          others.map (fun field => (field.offset, field.size))) ∧
      ∃ items, items.length = (2 : UInt64).toNat ∧
        tripleContext.read "byte[3][2]" (.replicate 9 7) 2 =
          some (.ok (.array tripleArray 2 items)) ∧
        tripleContext.read "pair" (.replicate 9 7) 2 =
          some (.ok (.struct triplePair 2 (items.map some))) := by
  have hunrolls : triplePair.Unrolls tripleArray "byte[3]" 2 := ⟨rfl, rfl, rfl, rfl, rfl, rfl, rfl⟩
  have harray : tripleContext.resolve? "byte[3][2]" = some tripleArray := rfl
  have hpair : tripleContext.resolve? "pair" = some triplePair := rfl
  have hsize : tripleContext.sizeOf "byte[3][2]" = .ok 6 := rfl
  have hother : tripleContext.sizeOf "pair" = .ok 6 := rfl
  have hfirst : Value.FreshPart tripleContext "byte[3][2]" 2 (.array tripleArray 2 []) :=
    ⟨.array tripleArray 0 [], rfl, rfl⟩
  have hlast : Value.FreshPart tripleContext "pair" 2 (.struct triplePair 2 [none, none]) :=
    ⟨.struct triplePair 0 [none, none], rfl, rfl⟩
  obtain ⟨value, hvalue⟩ : ∃ value,
      tripleContext.read "byte[3][2]" (.replicate 9 7) 2 = some (.ok value) :=
    ⟨_, hfirst.read_eq_ok_iff.mpr ⟨3, rfl⟩⟩
  obtain ⟨slots, hslots⟩ : ∃ slots,
      tripleContext.read "pair" (.replicate 9 7) 2 = some (.ok slots) :=
    ⟨_, hlast.read_eq_ok_iff.mpr ⟨3, rfl⟩⟩
  obtain ⟨-, hfields, hreads⟩ := unrolls_agree hunrolls harray hpair
  obtain ⟨items, hcount, rfl, rfl⟩ := hreads _ _ _ _ hvalue hslots
  exact ⟨hunrolls, harray, hpair, hsize, hother, ⟨_, _, rfl, rfl, hfields _ _ rfl rfl⟩, items,
    hcount, hvalue, hslots⟩

end Context

end BinarySchema
