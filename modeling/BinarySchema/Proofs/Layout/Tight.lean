import Mathlib.Algebra.Ring.Nat
import BinarySchema.Proofs.Layout.Derivation
import BinarySchema.Proofs.Layout.Reach

/-!
# Tight layouts

The slots of a struct begin as early as they may: nowhere could a slot begin sooner, by any other
choice of multiples of the sizes, and the slots of a packed struct leave no gap at all.  Places are
refused only where this exact layout leaves the range of a word.
-/

namespace BinarySchema

/-! ## Multiples -/

theorem le_roundUp (offset size : Nat) : offset ≤ roundUp offset size := by
  unfold roundUp
  split
  · exact Nat.le_refl _
  · rename_i hsize
    have hpos := Nat.pos_of_ne_zero hsize
    have hlt := Nat.lt_div_mul_add (a := offset + (size - 1)) hpos
    omega

theorem dvd_roundUp (offset : Nat) {size : Nat} (hpos : 0 < size) : size ∣ roundUp offset size := by
  rw [roundUp, if_neg (Nat.ne_of_gt hpos)]
  exact Nat.dvd_mul_left _ _

theorem roundUp_le {offset size bound : Nat} (hle : offset ≤ bound)
    (hbound : 0 < size → size ∣ bound) : roundUp offset size ≤ bound := by
  unfold roundUp
  split
  · exact hle
  · rename_i hsize
    have hpos := Nat.pos_of_ne_zero hsize
    obtain ⟨count, rfl⟩ := hbound hpos
    have hcount : (offset + (size - 1)) / size < count + 1 := by
      rw [Nat.div_lt_iff_lt_mul hpos, Nat.succ_mul, Nat.mul_comm count]
      omega
    rw [Nat.mul_comm size]
    exact Nat.mul_le_mul_right _ (Nat.le_of_lt_succ hcount)

theorem roundUp_lt (offset : Nat) {size : Nat} (hpos : 0 < size) :
    roundUp offset size < offset + size := by
  rw [roundUp, if_neg (Nat.ne_of_gt hpos)]
  have hle := Nat.div_mul_le_self (offset + (size - 1)) size
  omega

theorem le_slotOffset (packed : Bool) (stop size : Nat) : stop ≤ slotOffset packed stop size := by
  unfold slotOffset
  split
  · exact Nat.le_refl _
  · exact le_roundUp stop size

/-! ## Rows of slots -/

/-- Slots of the given sizes begin at these offsets: the first at zero, each at a multiple of its size
and not before the end of the one in front of it. -/
structure Aligned (sizes offsets : List Nat) : Prop where
  length_eq : offsets.length = sizes.length
  first : ∀ offset ∈ offsets.head?, offset = 0
  multiple : ∀ (index size offset : Nat), sizes[index]? = some size →
    offsets[index]? = some offset → 0 < size → size ∣ offset
  apart : ∀ (index size offset next : Nat), sizes[index]? = some size →
    offsets[index]? = some offset → offsets[index + 1]? = some next → offset + size ≤ next

/-- No aligned row of such slots has any of them begin earlier. -/
structure LeastAligned (sizes offsets : List Nat) : Prop extends Aligned sizes offsets where
  least : ∀ others, Aligned sizes others → List.Forall₂ (· ≤ ·) offsets others

/-- Every slot begins where the sizes of those in front of it add up to. -/
structure Stacked (sizes offsets : List Nat) : Prop where
  length_eq : offsets.length = sizes.length
  sum_eq : ∀ (index offset : Nat), offsets[index]? = some offset → offset = (sizes.take index).sum

def TightRow : Bool → List Nat → List Nat → Prop
  | true => Stacked
  | false => LeastAligned

/-- The beginnings of slots of the given sizes that follow parts ending at `start`. -/
def slotStarts (packed : Bool) : Nat → List Nat → List Nat
  | _, [] => []
  | start, size :: rest =>
      let offset := slotOffset packed start size
      offset :: slotStarts packed (offset + size) rest

section

variable {packed : Bool} {start : Nat} {sizes : List Nat}

@[simp] theorem length_slotStarts : (slotStarts packed start sizes).length = sizes.length := by
  induction sizes generalizing start with
  | nil => rfl
  | cons size rest ih => simp [slotStarts, ih]

theorem getElem?_slotStarts_zero :
    (slotStarts packed start sizes)[0]? = sizes[0]?.map (slotOffset packed start) := by
  cases sizes <;> rfl

theorem getElem?_slotStarts_succ {index offset size : Nat} (hsize : sizes[index]? = some size)
    (hoffset : (slotStarts packed start sizes)[index]? = some offset) :
    (slotStarts packed start sizes)[index + 1]? =
      sizes[index + 1]?.map (slotOffset packed (offset + size)) := by
  induction sizes generalizing start index with
  | nil => simp at hsize
  | cons first rest ih =>
      cases index with
      | zero =>
          cases hsize
          cases hoffset
          exact getElem?_slotStarts_zero
      | succ index => exact ih hsize hoffset

/-- A later slot is placed behind the end of the slot before it. -/
theorem exists_of_slotStarts_succ {index offset : Nat}
    (h : (slotStarts packed start sizes)[index + 1]? = some offset) :
    ∃ before size width, sizes[index]? = some size ∧ sizes[index + 1]? = some width ∧
      (slotStarts packed start sizes)[index]? = some before ∧
      offset = slotOffset packed (before + size) width := by
  have hlt := (List.getElem?_eq_some_iff.mp h).1
  have hbefore := List.getElem?_eq_getElem (Nat.lt_of_succ_lt hlt)
  rw [length_slotStarts] at hlt
  have hsize := List.getElem?_eq_getElem (Nat.lt_of_succ_lt hlt)
  rw [getElem?_slotStarts_succ hsize hbefore] at h
  obtain ⟨width, hwidth, rfl⟩ := Option.map_eq_some_iff.mp h
  exact ⟨_, _, width, hsize, hwidth, hbefore, rfl⟩

theorem exists_stop_of_slotStarts {index offset size : Nat} (hsize : sizes[index]? = some size)
    (h : (slotStarts packed start sizes)[index]? = some offset) :
    ∃ stop, offset = slotOffset packed stop size := by
  cases index with
  | zero =>
      rw [getElem?_slotStarts_zero, hsize] at h
      exact ⟨start, (Option.some.inj h).symm⟩
  | succ index =>
      obtain ⟨before, earlier, width, -, hwidth, -, rfl⟩ := exists_of_slotStarts_succ h
      cases hsize.symm.trans hwidth
      exact ⟨_, rfl⟩

end

/-! ## The least row -/

theorem aligned_slotStarts (sizes : List Nat) : Aligned sizes (slotStarts false 0 sizes) where
  length_eq := length_slotStarts
  first := by
    cases sizes with
    | nil => simp [slotStarts]
    | cons size rest =>
        have hzero : roundUp 0 size = 0 :=
          Nat.le_zero.mp (roundUp_le (Nat.le_refl 0) fun _ => Nat.dvd_zero _)
        simpa [slotStarts, slotOffset] using hzero
  multiple index size offset hsize hoffset hpos := by
    obtain ⟨stop, rfl⟩ := exists_stop_of_slotStarts hsize hoffset
    exact dvd_roundUp stop hpos
  apart index size offset next hsize hoffset hnext := by
    rw [getElem?_slotStarts_succ hsize hoffset] at hnext
    obtain ⟨width, -, rfl⟩ := Option.map_eq_some_iff.mp hnext
    exact le_slotOffset false _ width

/-- A slot of any aligned row begins at a multiple of its size behind the slot before it, which does
not begin sooner than it does here. -/
theorem leastAligned_slotStarts (sizes : List Nat) :
    LeastAligned sizes (slotStarts false 0 sizes) := by
  refine { aligned_slotStarts sizes with least := fun others hothers => ?_ }
  refine forall₂_of_getElem? (by rw [length_slotStarts, hothers.length_eq]) ?_
  intro index
  induction index with
  | zero =>
      intro offset other hoffset _
      have hzero := (aligned_slotStarts sizes).first offset (List.head?_eq_getElem? ▸ hoffset)
      exact hzero ▸ Nat.zero_le _
  | succ index ih =>
      intro offset other hoffset hother
      obtain ⟨before, size, width, hsize, hwidth, hbefore, rfl⟩ :=
        exists_of_slotStarts_succ hoffset
      have hearlier := List.getElem?_eq_getElem
        (Nat.lt_of_succ_lt (List.getElem?_eq_some_iff.mp hother).1)
      have hle := ih _ _ hbefore hearlier
      have hapart := hothers.apart index size _ other hsize hearlier hother
      exact roundUp_le (by omega) (hothers.multiple _ width other hwidth hother)

theorem stacked_slotStarts (sizes : List Nat) : Stacked sizes (slotStarts true 0 sizes) where
  length_eq := length_slotStarts
  sum_eq index := by
    induction index with
    | zero =>
        intro offset hoffset
        rw [getElem?_slotStarts_zero] at hoffset
        obtain ⟨size, -, rfl⟩ := Option.map_eq_some_iff.mp hoffset
        rfl
    | succ index ih =>
        intro offset hoffset
        obtain ⟨before, size, width, hsize, -, hbefore, rfl⟩ := exists_of_slotStarts_succ hoffset
        obtain ⟨hlt, rfl⟩ := List.getElem?_eq_some_iff.mp hsize
        rw [ih _ hbefore, List.take_succ_eq_append_getElem hlt, List.sum_append_nat]
        simp [slotOffset]

theorem tightRow_slotStarts (packed : Bool) (sizes : List Nat) :
    TightRow packed sizes (slotStarts packed 0 sizes) := by
  cases packed with
  | false => exact leastAligned_slotStarts sizes
  | true => exact stacked_slotStarts sizes

/-! ## Computed places -/

theorem overflow_of_addOffset {offset delta : UInt64} {failure : Error}
    (h : addOffset offset delta = .error failure) : failure = .offsetOverflow offset delta := by
  unfold addOffset at h
  split at h
  · contradiction
  · exact (Except.error.inj h).symm

theorem overflow_of_slotStart {packed : Bool} {start size : UInt64} {failure : Error}
    (h : slotStart packed start size = .error failure) : failure = .offsetOverflow start size := by
  cases packed with
  | true => contradiction
  | false =>
      replace h : alignOffset start size = .error failure := h
      unfold alignOffset at h
      split at h
      · contradiction
      · dsimp only at h
        split at h
        · contradiction
        · exact (Except.error.inj h).symm

section

variable {packed : Bool} {sizeOf : String → Except Error UInt64} {start : UInt64}
  {slots : List Slot} {placements : List Placement}

theorem offsets_of_placeSlots (h : placeSlots packed sizeOf start slots = .ok placements) :
    placements.map (fun placement => placement.offset.toNat) =
      slotStarts packed start.toNat (placements.map fun placement => placement.size.toNat) := by
  induction slots generalizing start placements with
  | nil =>
      cases h
      rfl
  | cons slot rest ih =>
      obtain ⟨size, offset, stop, others, -, hoffset, hstop, hrest, rfl⟩ :=
        placeSlots_cons_iff.mp h
      rw [slotStart_eq_ok_iff] at hoffset
      rw [addOffset_eq_ok_iff] at hstop
      simp only [List.map_cons, slotStarts, ih hrest, hstop, hoffset]

/-- A slot begins behind the one before it by less than its own size, if not right there. -/
theorem gap_of_placeSlots (h : placeSlots packed sizeOf start slots = .ok placements)
    {index : Nat} {placement next : Placement} (hplacement : placements[index]? = some placement)
    (hnext : placements[index + 1]? = some next) :
    next.offset.toNat = placement.stop ∨
      next.offset.toNat < placement.stop + next.size.toNat := by
  have hstarts := fun number : Nat => congrArg (·[number]?) (offsets_of_placeSlots h)
  have hoffset := hstarts index
  have hbehind := hstarts (index + 1)
  simp only [List.getElem?_map, hplacement, hnext, Option.map_some] at hoffset hbehind
  obtain ⟨before, size, width, hsize, hwidth, hbefore, hslot⟩ :=
    exists_of_slotStarts_succ hbehind.symm
  rw [← hoffset] at hbefore
  simp only [List.getElem?_map, hplacement, hnext, Option.map_some] at hsize hwidth
  cases hsize
  cases hwidth
  cases hbefore
  rw [hslot, Placement.stop]
  cases packed with
  | true => exact .inl rfl
  | false =>
      rcases Nat.eq_zero_or_pos next.size.toNat with hzero | hpos
      · exact .inl (by simp [slotOffset, roundUp, hzero])
      · exact .inr (roundUp_lt _ hpos)

/-- Where all sizes are known, only an offset beyond the words stops the placing of slots. -/
theorem overflow_of_placeSlots (hsizes : ∀ slot ∈ slots, ∃ size, sizeOf slot.typeName = .ok size)
    {failure : Error} (h : placeSlots packed sizeOf start slots = .error failure) :
    ∃ offset delta, failure = .offsetOverflow offset delta := by
  induction slots generalizing start with
  | nil => contradiction
  | cons slot rest ih =>
      obtain ⟨⟨size, hsize⟩, hrest⟩ := List.forall_mem_cons.mp hsizes
      rw [placeSlots_cons, hsize, ok_bind, bind_eq_error_iff] at h
      rcases h with hstart | ⟨offset, -, h⟩
      · exact ⟨_, _, overflow_of_slotStart hstart⟩
      · rw [bind_eq_error_iff] at h
        rcases h with hstop | ⟨stop, -, h⟩
        · exact ⟨_, _, overflow_of_addOffset hstop⟩
        · rw [bind_eq_error_iff] at h
          rcases h with hothers | ⟨others, -, h⟩
          · exact ih hrest hothers
          · contradiction

theorem stop_lt_of_placeSlots (h : placeSlots packed sizeOf start slots = .ok placements) :
    ∀ placement ∈ placements, placement.stop < UInt64.size := by
  induction slots generalizing start placements with
  | nil =>
      cases h
      simp
  | cons slot rest ih =>
      obtain ⟨size, offset, stop, others, -, -, hstop, hrest, rfl⟩ := placeSlots_cons_iff.mp h
      have hlt : stop.toNat < UInt64.size := stop.toNat_lt
      rw [addOffset_eq_ok_iff.mp hstop] at hlt
      exact List.forall_mem_cons.mpr ⟨hlt, ih hrest⟩

theorem stop_le_getLast (h : placeSlots packed sizeOf start slots = .ok placements)
    {last : Placement} (hlast : placements.getLast? = some last) :
    ∀ placement ∈ placements, placement.stop ≤ last.stop := by
  have hlt : last.stop < UInt64.size :=
    stop_lt_of_placeSlots h last (List.mem_of_getLast? hlast)
  have hend : slotsEnd placements = .ok (.ofNat last.stop) := by
    rw [slotsEnd, hlast]
    exact addOffset_eq_ok_iff.mpr (UInt64.toNat_ofNat_of_lt' hlt)
  intro placement hmem
  have hle := stop_le_slotsEnd (placeSlots_pairwise h) hend placement hmem
  rwa [UInt64.toNat_ofNat_of_lt' hlt] at hle

/-- No beginning leaves a range that all ends keep to. -/
theorem structOffsets_lt_iff {start bound : Nat} {sizes : List Nat} :
    (∀ offset ∈ structOffsets packed start sizes, offset < bound) ↔
      ∀ stop ∈ List.zipWith (· + ·) (slotStarts packed start sizes) sizes, stop < bound := by
  induction sizes generalizing start with
  | nil => simp [structOffsets, slotStarts]
  | cons size rest ih =>
      simp only [structOffsets, slotStarts, List.zipWith_cons_cons, List.forall_mem_cons, ih]
      constructor
      · exact And.right
      · exact fun h => ⟨by omega, h⟩

end

namespace Context

/-- The places of the slots of a struct are the tight row of their sizes, which ends with its last
slot.  Where all slots have sizes there are places unless the tight row leaves the range of a word,
and that is the failure then. -/
theorem slotPlacementsAt_tight (context : Context) (depth : Nat) (record : TypeRecord) :
    (∀ placements, context.slotPlacementsAt depth record = .ok placements →
      List.Forall₂ (fun slot placement =>
        context.sizeAt (depth + 1) slot.typeName = .ok placement.size) record.slots placements ∧
      TightRow record.packed (placements.map fun placement => placement.size.toNat)
        (placements.map fun placement => placement.offset.toNat) ∧
      (∀ (index : Nat) (placement next : Placement), placements[index]? = some placement →
        placements[index + 1]? = some next → next.offset.toNat = placement.stop ∨
          next.offset.toNat < placement.stop + next.size.toNat) ∧
      ∀ last ∈ placements.getLast?, last.stop < UInt64.size ∧
        ∀ placement ∈ placements, placement.stop ≤ last.stop) ∧
    ∀ sizes : String → UInt64,
      (∀ slot ∈ record.slots,
        context.sizeAt (depth + 1) slot.typeName = .ok (sizes slot.typeName)) →
      ∃ offsets,
        TightRow record.packed (record.slots.map fun slot => (sizes slot.typeName).toNat) offsets ∧
        ((∃ failure, context.slotPlacementsAt depth record = .error failure) ↔
          ∃ stop ∈ List.zipWith (· + ·) offsets
            (record.slots.map fun slot => (sizes slot.typeName).toNat), UInt64.size ≤ stop) ∧
        ∀ failure, context.slotPlacementsAt depth record = .error failure →
          ∃ offset delta, failure = .offsetOverflow offset delta := by
  constructor
  · intro placements h
    refine ⟨?_, ?_, fun index placement next => gap_of_placeSlots h, fun last hlast => ?_⟩
    · exact forall₂_of_getElem? (length_placeSlots h).symm fun _ _ _ => placeSlots_size h
    · rw [offsets_of_placeSlots h]
      exact tightRow_slotStarts _ _
    · exact ⟨stop_lt_of_placeSlots h last (List.mem_of_getLast? hlast), stop_le_getLast h hlast⟩
  · intro sizes hsizes
    refine ⟨_, tightRow_slotStarts _ _, ?_, fun failure h => ?_⟩
    · let numbers := fun name => (sizes name).toNat
      have hnumbers : ∀ slot ∈ record.slots, ∃ size,
          context.sizeAt (depth + 1) slot.typeName = .ok size ∧
          size.toNat = numbers slot.typeName := fun slot hslot => ⟨_, hsizes slot hslot, rfl⟩
      have hplaces : (∃ placements, context.slotPlacementsAt depth record = .ok placements) ↔ _ :=
        (exists_placeSlots_iff hnumbers).trans structOffsets_lt_iff
      cases hresult : context.slotPlacementsAt depth record with
      | ok placements =>
          have hall := hplaces.mp ⟨placements, hresult⟩
          simpa using hall
      | error failure =>
          have hnone := hplaces.not.mp (by simp [hresult])
          simpa using hnone
    · exact overflow_of_placeSlots (fun slot hslot => ⟨_, hsizes slot hslot⟩) h

/-- The levels of a frame begin at the first multiple of eight behind its body, and a byte in front of
as many levels as there are at most would move them out of the range of a word. -/
theorem slotPlacementsAt_tight_frame :
    let wide := TypeRecord.struct "wide"
      [⟨"tag", "byte"⟩, ⟨"levels", "level[4611686018427387903]"⟩]
    frameContext.slotPlacementsAt 0 (.struct "frame"
        [⟨"tag", "word"⟩, ⟨"body", "choice"⟩, ⟨"levels", "level[2]"⟩]) =
        .ok [⟨0, 2⟩, ⟨2, 2⟩, ⟨8, 8⟩] ∧
      TightRow false [2, 2, 8] [0, 2, 8] ∧
      (∀ slot ∈ wide.slots, ∃ size, frameContext.sizeAt 1 slot.typeName = .ok size) ∧
      ∃ offsets, TightRow false [1, 18446744073709551612] offsets ∧
        (∃ stop ∈ List.zipWith (· + ·) offsets [1, 18446744073709551612], UInt64.size ≤ stop) ∧
        ∃ offset delta, frameContext.slotPlacementsAt 0 wide =
          .error (.offsetOverflow offset delta) := by
  intro wide
  have hplaces : frameContext.slotPlacementsAt 0 (.struct "frame"
      [⟨"tag", "word"⟩, ⟨"body", "choice"⟩, ⟨"levels", "level[2]"⟩]) =
      .ok [⟨0, 2⟩, ⟨2, 2⟩, ⟨8, 8⟩] := by rfl
  have hsizes : ∀ slot ∈ wide.slots, frameContext.sizeAt 1 slot.typeName =
      .ok (if slot.typeName = "byte" then 1 else 18446744073709551612) := by
    intro slot hslot
    simp only [wide, TypeRecord.struct, List.mem_cons, List.not_mem_nil, or_false] at hslot
    rcases hslot with rfl | rfl <;> rfl
  obtain ⟨offsets, hrow, hfails, hfailure⟩ := (slotPlacementsAt_tight frameContext 0 wide).2
    (fun name => if name = "byte" then 1 else 18446744073709551612) hsizes
  obtain ⟨failure, herror⟩ : ∃ failure, frameContext.slotPlacementsAt 0 wide = .error failure :=
    ⟨_, rfl⟩
  obtain ⟨offset, delta, rfl⟩ := hfailure failure herror
  exact ⟨hplaces, ((slotPlacementsAt_tight frameContext 0 _).1 _ hplaces).2.1,
    fun slot hslot => ⟨_, hsizes slot hslot⟩, offsets, hrow, hfails.mp ⟨_, herror⟩, _, _, herror⟩

end Context

end BinarySchema
