import BinarySchema.Proofs.Layout.Slots

/-!
# Computed sizes

How a record without a declared size gets its size from the sizes of its parts.  A size that is
found with some budget of nesting is found with every larger one, so the parts of a record that has
a size have theirs when asked for by name.
-/

namespace BinarySchema

namespace TypeRecord

/-- The names of the types that values of a type are made of. -/
def references (record : TypeRecord) : List String :=
  match record.kind with
  | .struct | .union => record.slots.map (·.typeName)
  | .array => record.element.toList
  | _ => []

theorem typeName_mem_references {record : TypeRecord} {slot : Slot}
    (hkind : record.kind = .struct ∨ record.kind = .union) (hslot : slot ∈ record.slots) :
    slot.typeName ∈ record.references := by
  have hmem : slot.typeName ∈ record.slots.map (·.typeName) := List.mem_map_of_mem hslot
  rcases hkind with hkind | hkind <;> simpa only [references, hkind] using hmem

theorem element_mem_references {record : TypeRecord} {name : String}
    (hkind : record.kind = .array) (helement : record.element = some name) :
    name ∈ record.references := by
  simp [references, hkind, helement]

theorem exists_slot_of_mem_references {record : TypeRecord} {name : String}
    (hkind : record.kind = .struct ∨ record.kind = .union) (h : name ∈ record.references) :
    ∃ slot ∈ record.slots, slot.typeName = name := by
  rcases hkind with hkind | hkind <;> simpa only [references, hkind, List.mem_map] using h

theorem element_of_mem_references {record : TypeRecord} {name : String}
    (hkind : record.kind = .array) (h : name ∈ record.references) : record.element = some name := by
  simpa [references, hkind] using h

end TypeRecord

namespace Context

variable {context : Context}

theorem require_eq_ok_iff {name : String} {record : TypeRecord} :
    context.require name = .ok record ↔ context.resolve? name = some record := by
  unfold require
  split <;> simp_all

def partSize (context : Context) (budget : Nat) (name : String) : Except Error UInt64 := do
  let part ← context.require name
  context.sizeWithin budget part

theorem partSize_eq_ok_iff {budget : Nat} {name : String} {size : UInt64} :
    context.partSize budget name = .ok size ↔
      ∃ part, context.resolve? name = some part ∧ context.sizeWithin budget part = .ok size := by
  simp only [partSize, bind_eq_ok_iff, require_eq_ok_iff]

/-- The ways in which a record without a declared size has a size, its parts having `budget` levels
of nesting left. -/
inductive SizedByParts (context : Context) (budget : Nat) (record : TypeRecord) : UInt64 → Prop
  | struct {placements : List Placement} {size : UInt64} (hkind : record.kind = .struct)
      (hplaced : placeSlots record.packed (context.partSize budget) 0 record.slots =
        .ok placements)
      (hstop : slotsEnd placements = .ok size) : SizedByParts context budget record size
  | union {size : UInt64} (hkind : record.kind = .union)
      (hwidest : widestSlot (context.partSize budget) 0 record.slots = .ok size) :
      SizedByParts context budget record size
  | openArray (hkind : record.kind = .array) (hlength : record.length = none) :
      SizedByParts context budget record 0
  | array {length stride size : UInt64} {name : String} (hkind : record.kind = .array)
      (hlength : record.length = some length) (helement : record.element = some name)
      (hstride : context.partSize budget name = .ok stride)
      (hsize : size.toNat = length.toNat * stride.toNat) : SizedByParts context budget record size

theorem elementName_eq_ok_iff {record : TypeRecord} {name : String} :
    record.elementName = .ok name ↔ record.element = some name := by
  unfold TypeRecord.elementName
  split <;> simp_all

private theorem checked_mul_eq_ok_iff {length stride size : UInt64} {failure : Error} :
    (if length.toNat * stride.toNat < UInt64.size then pure (length * stride)
      else .error failure : Except Error UInt64) = .ok size ↔
      size.toNat = length.toNat * stride.toNat := by
  have hsize : size.toNat < UInt64.size := size.toNat_lt
  split
  · rename_i hfits
    have hmul : (length * stride).toNat = length.toNat * stride.toNat := by
      rw [UInt64.toNat_mul, Nat.mod_eq_of_lt hfits]
    rw [← hmul, UInt64.toNat_inj]
    exact ⟨fun h => (Except.ok.inj h).symm, fun h => by rw [h]; rfl⟩
  · constructor
    · intro h
      contradiction
    · intro h
      omega

theorem sizeWithin_succ_eq_ok_iff {budget : Nat} {record : TypeRecord} {size : UInt64}
    (hnone : record.size = none) :
    context.sizeWithin (budget + 1) record = .ok size ↔
      context.SizedByParts budget record size := by
  have hunfold : context.sizeWithin (budget + 1) record =
      match record.kind with
      | .struct => placeSlots record.packed (context.partSize budget) 0 record.slots >>= slotsEnd
      | .union => widestSlot (context.partSize budget) 0 record.slots
      | .array =>
          record.length.elim (.ok 0) fun length => record.elementName >>= fun name =>
            context.partSize budget name >>= fun stride =>
              if length.toNat * stride.toNat < UInt64.size then pure (length * stride)
              else .error (.arrayTooLarge length context.limits.elements)
      | kind => .error (.unsupportedKind record.name kind .size) := by
    rw [sizeWithin, hnone]
    cases record.kind <;> cases record.length <;> rfl
  rw [hunfold]
  constructor
  · intro h
    cases hkind : record.kind with
    | base => simp [hkind] at h
    | alien => simp [hkind] at h
    | const => simp [hkind] at h
    | struct =>
        simp only [hkind, bind_eq_ok_iff] at h
        obtain ⟨placements, hplaced, hstop⟩ := h
        exact .struct hkind hplaced hstop
    | union =>
        simp only [hkind] at h
        exact .union hkind h
    | array =>
        simp only [hkind] at h
        cases hlength : record.length with
        | none =>
            simp only [hlength, Option.elim_none, Except.ok.injEq] at h
            exact h ▸ .openArray hkind hlength
        | some length =>
            simp only [hlength, Option.elim_some, bind_eq_ok_iff, elementName_eq_ok_iff,
              checked_mul_eq_ok_iff] at h
            obtain ⟨name, helement, stride, hstride, hsize⟩ := h
            exact .array hkind hlength helement hstride hsize
  · intro h
    cases h with
    | struct hkind hplaced hstop =>
        simp only [hkind, bind_eq_ok_iff]
        exact ⟨_, hplaced, hstop⟩
    | union hkind hwidest =>
        simp only [hkind]
        exact hwidest
    | openArray hkind hlength => simp only [hkind, hlength, Option.elim_none]
    | array hkind hlength helement hstride hsize =>
        simp only [hkind, hlength, Option.elim_some, bind_eq_ok_iff, elementName_eq_ok_iff,
          checked_mul_eq_ok_iff]
        exact ⟨_, helement, _, hstride, hsize⟩

namespace SizedByParts

variable {budget : Nat} {record : TypeRecord} {size : UInt64}

theorem of_struct (h : context.SizedByParts budget record size) (hkind : record.kind = .struct) :
    ∃ placements,
      placeSlots record.packed (context.partSize budget) 0 record.slots = .ok placements ∧
        slotsEnd placements = .ok size := by
  cases h with
  | struct _ hplaced hstop => exact ⟨_, hplaced, hstop⟩
  | union hother | openArray hother | array hother => simp [hkind] at hother

theorem of_union (h : context.SizedByParts budget record size) (hkind : record.kind = .union) :
    widestSlot (context.partSize budget) 0 record.slots = .ok size := by
  cases h with
  | union _ hwidest => exact hwidest
  | struct hother | openArray hother | array hother => simp [hkind] at hother

theorem of_array (h : context.SizedByParts budget record size) (hkind : record.kind = .array)
    {length : UInt64} (hlength : record.length = some length) :
    ∃ name stride, record.element = some name ∧ context.partSize budget name = .ok stride ∧
      size.toNat = length.toNat * stride.toNat := by
  cases h with
  | array _ hdeclared helement hstride hsize =>
      cases hlength.symm.trans hdeclared
      exact ⟨_, _, helement, hstride, hsize⟩
  | openArray _ hopen => simp [hlength] at hopen
  | struct hother | union hother => simp [hkind] at hother

theorem mono {more : Nat}
    (hmono : ∀ name ∈ record.references, ∀ size, context.partSize budget name = .ok size →
      context.partSize more name = .ok size)
    (h : context.SizedByParts budget record size) : context.SizedByParts more record size := by
  have hslots : (record.kind = .struct ∨ record.kind = .union) → ∀ slot ∈ record.slots, ∀ size,
      context.partSize budget slot.typeName = .ok size →
      context.partSize more slot.typeName = .ok size :=
    fun hkind slot hslot => hmono _ (TypeRecord.typeName_mem_references hkind hslot)
  cases h with
  | struct hkind hplaced hstop =>
      exact .struct hkind (placeSlots_mono (hslots (.inl hkind)) hplaced) hstop
  | union hkind hwidest => exact .union hkind (widestSlot_mono (hslots (.inr hkind)) hwidest)
  | openArray hkind hlength => exact .openArray hkind hlength
  | array hkind hlength helement hstride hsize =>
      have helement' := TypeRecord.element_mem_references hkind helement
      exact .array hkind hlength helement (hmono _ helement' _ hstride) hsize

end SizedByParts

/-- One more level of nesting changes no size that was found. -/
theorem sizeWithin_succ {budget : Nat} {record : TypeRecord} {size : UInt64}
    (h : context.sizeWithin budget record = .ok size) :
    context.sizeWithin (budget + 1) record = .ok size := by
  induction budget generalizing record size with
  | zero => simp [sizeWithin] at h
  | succ budget ih =>
      cases hsize : record.size with
      | none =>
          rw [sizeWithin_succ_eq_ok_iff hsize] at h ⊢
          refine h.mono fun name _ size hpart => ?_
          obtain ⟨part, hresolve, hsize⟩ := partSize_eq_ok_iff.mp hpart
          exact partSize_eq_ok_iff.mpr ⟨part, hresolve, ih hsize⟩
      | some declared =>
          cases declared <;> simpa [sizeWithin, hsize] using h

theorem sizeWithin_mono {budget more : Nat} (hle : budget ≤ more) {record : TypeRecord}
    {size : UInt64} (h : context.sizeWithin budget record = .ok size) :
    context.sizeWithin more record = .ok size := by
  induction hle with
  | refl => exact h
  | step _ ih => exact sizeWithin_succ ih

theorem partSize_mono {budget more : Nat} (hle : budget ≤ more) {name : String} {size : UInt64}
    (h : context.partSize budget name = .ok size) : context.partSize more name = .ok size := by
  obtain ⟨part, hresolve, hsize⟩ := partSize_eq_ok_iff.mp h
  exact partSize_eq_ok_iff.mpr ⟨part, hresolve, sizeWithin_mono hle hsize⟩

/-! ## Sizes of parts asked for by name -/

variable {record : TypeRecord} {size : UInt64}

theorem sizeOf_eq_ok_iff {name : String} :
    context.sizeOf name = .ok size ↔
      ∃ part, context.resolve? name = some part ∧ context.sizeOfRecord part = .ok size :=
  partSize_eq_ok_iff

theorem sizeOf_of_partSize {name : String}
    (h : context.partSize context.limits.depth name = .ok size) :
    context.sizeOf name = .ok size :=
  partSize_mono (Nat.le_succ _) h

theorem sizedByParts_of_sizeOfRecord (hnone : record.size = none)
    (h : context.sizeOfRecord record = .ok size) :
    context.SizedByParts context.limits.depth record size :=
  (sizeWithin_succ_eq_ok_iff hnone).mp h

theorem slotPlacements_pairwise {placements : List Placement}
    (h : context.slotPlacements record = .ok placements) :
    placements.Pairwise fun a b => a.stop ≤ b.offset.toNat :=
  placeSlots_pairwise h

theorem length_slotPlacements {placements : List Placement}
    (h : context.slotPlacements record = .ok placements) :
    placements.length = record.slots.length :=
  length_placeSlots h

theorem slotPlacements_size {placements : List Placement}
    (h : context.slotPlacements record = .ok placements) {index : Nat} {slot : Slot}
    {placement : Placement} (hslot : record.slots[index]? = some slot)
    (hplacement : placements[index]? = some placement) :
    context.sizeOf slot.typeName = .ok placement.size :=
  sizeOf_of_partSize (placeSlots_size h hslot hplacement)

/-- A struct that has a size has room for each of its slots. -/
theorem placements_of_sizeOfRecord (hkind : record.kind = .struct) (hnone : record.size = none)
    (h : context.sizeOfRecord record = .ok size) :
    ∃ placements, context.slotPlacements record = .ok placements ∧
      ∀ placement ∈ placements, placement.stop ≤ size.toNat := by
  obtain ⟨placements, hplaced, hstop⟩ := (sizedByParts_of_sizeOfRecord hnone h).of_struct hkind
  exact ⟨placements, hplaced, stop_le_slotsEnd (placeSlots_pairwise hplaced) hstop⟩

theorem slot_size_of_sizeOfRecord (hkind : record.kind = .union) (hnone : record.size = none)
    (h : context.sizeOfRecord record = .ok size) {slot : Slot} (hslot : slot ∈ record.slots) :
    ∃ width, context.sizeOf slot.typeName = .ok width ∧ width.toNat ≤ size.toNat := by
  have hwidest := (sizedByParts_of_sizeOfRecord hnone h).of_union hkind
  obtain ⟨width, hwidth, hle⟩ := size_le_widestSlot hwidest slot hslot
  exact ⟨width, sizeOf_of_partSize hwidth, hle⟩

theorem stride_of_sizeOfRecord (hkind : record.kind = .array) (hnone : record.size = none)
    {length : UInt64} (hlength : record.length = some length)
    (h : context.sizeOfRecord record = .ok size) :
    ∃ name stride, record.element = some name ∧ context.sizeOf name = .ok stride ∧
      size.toNat = length.toNat * stride.toNat := by
  obtain ⟨name, stride, helement, hstride, hsize⟩ :=
    (sizedByParts_of_sizeOfRecord hnone h).of_array hkind hlength
  exact ⟨name, stride, helement, sizeOf_of_partSize hstride, hsize⟩

end Context

end BinarySchema
