import BinarySchema.Proofs.Outcome

/-!
# Slots in order

The checked operations on offsets succeed exactly when the exact result fits a 64-bit word.  The
slots of a struct follow each other without overlap, and a union is as wide as its widest slot.
-/

namespace BinarySchema

theorem addOffset_eq_ok_iff {offset delta stop : UInt64} :
    addOffset offset delta = .ok stop ↔ stop.toNat = offset.toNat + delta.toNat := by
  have hstop := stop.toNat_lt
  unfold addOffset
  constructor
  · intro h
    split at h
    · rename_i hfits
      cases h
      rw [UInt64.toNat_add, Nat.mod_eq_of_lt hfits]
    · contradiction
  · intro h
    have hfits : offset.toNat + delta.toNat < UInt64.size := h ▸ hstop
    rw [if_pos hfits]
    congr 1
    apply UInt64.toNat_inj.mp
    rw [UInt64.toNat_add, Nat.mod_eq_of_lt hfits, h]

theorem addOffset_of_lt {offset delta : UInt64}
    (h : offset.toNat + delta.toNat < UInt64.size) :
    addOffset offset delta = .ok (offset + delta) :=
  if_pos h

theorem elementOffset_eq_ok_iff {offset stride start : UInt64} {index : Nat} :
    elementOffset offset index stride = .ok start ↔
      start.toNat = offset.toNat + index * stride.toNat := by
  unfold elementOffset
  split
  · rename_i hfits
    rw [addOffset_eq_ok_iff, UInt64.toNat_ofNat_of_lt' hfits]
  · rename_i hlarge
    have hstart : start.toNat < UInt64.size := start.toNat_lt
    constructor
    · intro h
      contradiction
    · intro h
      omega

theorem le_of_alignOffset {offset size start : UInt64} (h : alignOffset offset size = .ok start) :
    offset.toNat ≤ start.toNat := by
  unfold alignOffset at h
  split at h
  · cases h
    exact Nat.le_refl _
  · simp only at h
    split at h
    · rename_i hfits
      cases h
      rw [UInt64.toNat_add, Nat.mod_eq_of_lt hfits]
      exact Nat.le_add_right _ _
    · contradiction

/-! ## Slots in order -/

/-- The first place after a part. -/
def Placement.stop (placement : Placement) : Nat :=
  placement.offset.toNat + placement.size.toNat

/-- The place of a slot of some size that follows parts ending at `start`. -/
def slotStart (packed : Bool) (start size : UInt64) : Except Error UInt64 :=
  if packed then .ok start else alignOffset start size

theorem le_of_slotStart {packed : Bool} {start size offset : UInt64}
    (h : slotStart packed start size = .ok offset) : start.toNat ≤ offset.toNat := by
  cases packed with
  | true =>
      cases h
      exact Nat.le_refl _
  | false => exact le_of_alignOffset h

variable {packed : Bool} {sizeOf sizeOf' : String → Except Error UInt64} {start : UInt64}
  {slots : List Slot} {placements : List Placement}

theorem placeSlots_cons (packed : Bool) (sizeOf : String → Except Error UInt64) (start : UInt64)
    (slot : Slot) (rest : List Slot) :
    placeSlots packed sizeOf start (slot :: rest) =
      sizeOf slot.typeName >>= fun size =>
        slotStart packed start size >>= fun offset =>
          addOffset offset size >>= fun stop =>
            placeSlots packed sizeOf stop rest >>= fun others =>
              .ok (⟨offset, size⟩ :: others) := by
  simp only [placeSlots]
  congr 1
  funext size
  cases packed <;> rfl

/-- Placing a slot: its size, its place, the end of it, and the slots after it. -/
theorem placeSlots_cons_iff {slot : Slot} {rest : List Slot} :
    placeSlots packed sizeOf start (slot :: rest) = .ok placements ↔
      ∃ size offset stop others,
        sizeOf slot.typeName = .ok size ∧ slotStart packed start size = .ok offset ∧
        addOffset offset size = .ok stop ∧ placeSlots packed sizeOf stop rest = .ok others ∧
        placements = ⟨offset, size⟩ :: others := by
  simp only [placeSlots_cons, bind_eq_ok_iff, Except.ok.injEq]
  constructor
  · rintro ⟨size, hsize, offset, hoffset, stop, hstop, others, hrest, rfl⟩
    exact ⟨size, offset, stop, others, hsize, hoffset, hstop, hrest, rfl⟩
  · rintro ⟨size, offset, stop, others, hsize, hoffset, hstop, hrest, rfl⟩
    exact ⟨size, hsize, offset, hoffset, stop, hstop, others, hrest, rfl⟩

theorem length_placeSlots (h : placeSlots packed sizeOf start slots = .ok placements) :
    placements.length = slots.length := by
  induction slots generalizing start placements with
  | nil =>
      cases h
      rfl
  | cons slot rest ih =>
      obtain ⟨size, offset, stop, others, -, -, -, hrest, rfl⟩ := placeSlots_cons_iff.mp h
      simp [ih hrest]

theorem placeSlots_size (h : placeSlots packed sizeOf start slots = .ok placements) {index : Nat}
    {slot : Slot} {placement : Placement} (hslot : slots[index]? = some slot)
    (hplacement : placements[index]? = some placement) :
    sizeOf slot.typeName = .ok placement.size := by
  induction slots generalizing start placements index with
  | nil => simp at hslot
  | cons head rest ih =>
      obtain ⟨size, offset, stop, others, hsize, -, -, hrest, rfl⟩ := placeSlots_cons_iff.mp h
      cases index with
      | zero =>
          simp only [List.getElem?_cons_zero, Option.some.injEq] at hslot hplacement
          subst hslot hplacement
          exact hsize
      | succ index =>
          simp only [List.getElem?_cons_succ] at hslot hplacement
          exact ih hrest hslot hplacement

theorem exists_size_of_placeSlots (h : placeSlots packed sizeOf start slots = .ok placements) :
    ∀ slot ∈ slots, ∃ size, sizeOf slot.typeName = .ok size := by
  intro slot hslot
  obtain ⟨index, hindex, rfl⟩ := List.getElem_of_mem hslot
  have hplacement := List.getElem?_eq_getElem (length_placeSlots h ▸ hindex)
  exact ⟨_, placeSlots_size h (List.getElem?_eq_getElem hindex) hplacement⟩

theorem start_le_of_placeSlots (h : placeSlots packed sizeOf start slots = .ok placements) :
    ∀ placement ∈ placements, start.toNat ≤ placement.offset.toNat := by
  induction slots generalizing start placements with
  | nil =>
      cases h
      simp
  | cons slot rest ih =>
      obtain ⟨size, offset, stop, others, -, hoffset, hstop, hrest, rfl⟩ :=
        placeSlots_cons_iff.mp h
      have hle := le_of_slotStart hoffset
      rw [addOffset_eq_ok_iff] at hstop
      intro placement hmem
      rcases List.mem_cons.mp hmem with rfl | hmem
      · exact hle
      · have := ih hrest placement hmem
        omega

/-- The slots of a struct follow each other without overlap. -/
theorem placeSlots_pairwise (h : placeSlots packed sizeOf start slots = .ok placements) :
    placements.Pairwise fun a b => a.stop ≤ b.offset.toNat := by
  induction slots generalizing start placements with
  | nil =>
      cases h
      exact .nil
  | cons slot rest ih =>
      obtain ⟨size, offset, stop, others, -, -, hstop, hrest, rfl⟩ := placeSlots_cons_iff.mp h
      rw [addOffset_eq_ok_iff] at hstop
      refine .cons ?_ (ih hrest)
      intro placement hmem
      have := start_le_of_placeSlots hrest placement hmem
      simp only [Placement.stop]
      omega

theorem stop_le_slotsEnd {total : UInt64}
    (hordered : placements.Pairwise fun a b => a.stop ≤ b.offset.toNat)
    (h : slotsEnd placements = .ok total) :
    ∀ placement ∈ placements, placement.stop ≤ total.toNat := by
  intro placement hmem
  unfold slotsEnd at h
  cases hlast : placements.getLast? with
  | none =>
      rw [List.getLast?_eq_none_iff] at hlast
      simp [hlast] at hmem
  | some last =>
      simp only [hlast] at h
      rw [addOffset_eq_ok_iff] at h
      obtain ⟨front, rfl⟩ := List.getLast?_eq_some_iff.mp hlast
      rw [List.pairwise_append] at hordered
      rcases List.mem_append.mp hmem with hfront | hlast
      · have := hordered.2.2 placement hfront last (by simp)
        omega
      · cases List.mem_singleton.mp hlast
        exact Nat.le_of_eq h.symm

theorem placeSlots_mono
    (hmono : ∀ slot ∈ slots, ∀ size, sizeOf slot.typeName = .ok size →
      sizeOf' slot.typeName = .ok size)
    (h : placeSlots packed sizeOf start slots = .ok placements) :
    placeSlots packed sizeOf' start slots = .ok placements := by
  induction slots generalizing start placements with
  | nil => exact h
  | cons slot rest ih =>
      obtain ⟨size, offset, stop, others, hsize, hoffset, hstop, hrest, rfl⟩ :=
        placeSlots_cons_iff.mp h
      have hothers := ih (fun other hmem => hmono other (.tail _ hmem)) hrest
      exact placeSlots_cons_iff.mpr
        ⟨size, offset, stop, others, hmono slot (.head _) _ hsize, hoffset, hstop, hothers, rfl⟩

theorem placeSlots_congr (h : ∀ slot ∈ slots, sizeOf slot.typeName = sizeOf' slot.typeName) :
    placeSlots packed sizeOf start slots = placeSlots packed sizeOf' start slots := by
  induction slots generalizing start with
  | nil => rfl
  | cons slot rest ih =>
      simp only [placeSlots, h slot (.head _), ih fun other hmem => h other (.tail _ hmem)]

/-! ## The widest slot -/

variable {widest total : UInt64}

theorem widestSlot_cons_iff {slot : Slot} {rest : List Slot} :
    widestSlot sizeOf widest (slot :: rest) = .ok total ↔
      ∃ size, sizeOf slot.typeName = .ok size ∧
        widestSlot sizeOf (max widest size) rest = .ok total := by
  simp only [widestSlot, bind_eq_ok_iff]

theorem toNat_max (a b : UInt64) : (max a b).toNat = max a.toNat b.toNat := by
  show (if a ≤ b then b else a).toNat = _
  simp only [UInt64.le_iff_toNat_le]
  split <;> omega

theorem le_widestSlot (h : widestSlot sizeOf widest slots = .ok total) :
    widest.toNat ≤ total.toNat := by
  induction slots generalizing widest with
  | nil =>
      cases h
      exact Nat.le_refl _
  | cons slot rest ih =>
      obtain ⟨size, -, hrest⟩ := widestSlot_cons_iff.mp h
      have := ih hrest
      rw [toNat_max] at this
      omega

theorem size_le_widestSlot (h : widestSlot sizeOf widest slots = .ok total) :
    ∀ slot ∈ slots, ∃ size, sizeOf slot.typeName = .ok size ∧ size.toNat ≤ total.toNat := by
  induction slots generalizing widest with
  | nil => simp
  | cons head rest ih =>
      obtain ⟨size, hsize, hrest⟩ := widestSlot_cons_iff.mp h
      intro slot hmem
      rcases List.mem_cons.mp hmem with rfl | hmem
      · have := le_widestSlot hrest
        rw [toNat_max] at this
        exact ⟨size, hsize, by omega⟩
      · exact ih hrest slot hmem

theorem widestSlot_mono
    (hmono : ∀ slot ∈ slots, ∀ size, sizeOf slot.typeName = .ok size →
      sizeOf' slot.typeName = .ok size)
    (h : widestSlot sizeOf widest slots = .ok total) :
    widestSlot sizeOf' widest slots = .ok total := by
  induction slots generalizing widest with
  | nil => exact h
  | cons slot rest ih =>
      obtain ⟨size, hsize, hrest⟩ := widestSlot_cons_iff.mp h
      have hothers := ih (fun other hmem => hmono other (.tail _ hmem)) hrest
      exact widestSlot_cons_iff.mpr ⟨size, hmono slot (.head _) _ hsize, hothers⟩

theorem widestSlot_congr (h : ∀ slot ∈ slots, sizeOf slot.typeName = sizeOf' slot.typeName) :
    widestSlot sizeOf widest slots = widestSlot sizeOf' widest slots := by
  induction slots generalizing widest with
  | nil => rfl
  | cons slot rest ih =>
      simp only [widestSlot, h slot (.head _), ih fun other hmem => h other (.tail _ hmem)]

end BinarySchema
