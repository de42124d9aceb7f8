import BinarySchema.Proofs.Layout.Size

/-!
# Sizes over unbounded numbers

The size of a type as a relation on numbers of any magnitude, together with how high its parts are
stacked.  The computed size is the related number, and it is found exactly when the height keeps to
the limit of nesting and no number on the way leaves the range of a word.
-/

namespace BinarySchema

/-! ## Rules -/

/-- The least multiple of `size` that is not below `offset`; size zero asks for nothing. -/
def roundUp (offset size : Nat) : Nat :=
  if size = 0 then offset else (offset + (size - 1)) / size * size

def slotOffset (packed : Bool) (stop size : Nat) : Nat :=
  if packed then stop else roundUp stop size

/-- The end of slots of the given sizes that follow parts ending at `start`. -/
def structEnd (packed : Bool) (start : Nat) (sizes : List Nat) : Nat :=
  sizes.foldl (fun stop size => slotOffset packed stop size + size) start

/-- The beginnings and ends of the slots in order. -/
def structOffsets (packed : Bool) : Nat → List Nat → List Nat
  | _, [] => []
  | start, size :: rest =>
      let offset := slotOffset packed start size
      offset :: (offset + size) :: structOffsets packed (offset + size) rest

def DeclaredSize.inBytes (wordSize : UInt64) : DeclaredSize → Nat
  | .bytes count => count.toNat
  | .native => wordSize.toNat

/-- One level above the highest of the parts, or none if there are no parts. -/
def heightOver (heights : List Nat) : Nat :=
  (heights.map (· + 1)).foldr max 0

/-- A name has a size and a height, in a derivation where `fits` holds of every size and of every
offset in a struct.  Sizes and heights of slots are given by the names of their types. -/
inductive HasSize (context : Context) (fits : Nat → Prop) : String → Nat → Nat → Prop
  | declared {name : String} {record : TypeRecord} {size : DeclaredSize}
      (hresolve : context.resolve? name = some record) (hsize : record.size = some size)
      (hfits : fits (size.inBytes context.wordSize)) :
      HasSize context fits name (size.inBytes context.wordSize) 0
  | struct {name : String} {record : TypeRecord} {sizes heights : String → Nat}
      (hresolve : context.resolve? name = some record) (hsize : record.size = none)
      (hkind : record.kind = .struct)
      (hslots : ∀ slot ∈ record.slots,
        HasSize context fits slot.typeName (sizes slot.typeName) (heights slot.typeName))
      (hoffsets : ∀ offset ∈ structOffsets record.packed 0
        (record.slots.map fun slot => sizes slot.typeName), fits offset)
      (hfits : fits (structEnd record.packed 0 (record.slots.map fun slot => sizes slot.typeName))) :
      HasSize context fits name
        (structEnd record.packed 0 (record.slots.map fun slot => sizes slot.typeName))
        (heightOver (record.slots.map fun slot => heights slot.typeName))
  | union {name : String} {record : TypeRecord} {sizes heights : String → Nat}
      (hresolve : context.resolve? name = some record) (hsize : record.size = none)
      (hkind : record.kind = .union)
      (hslots : ∀ slot ∈ record.slots,
        HasSize context fits slot.typeName (sizes slot.typeName) (heights slot.typeName))
      (hfits : fits ((record.slots.map fun slot => sizes slot.typeName).foldl max 0)) :
      HasSize context fits name ((record.slots.map fun slot => sizes slot.typeName).foldl max 0)
        (heightOver (record.slots.map fun slot => heights slot.typeName))
  | array {name element : String} {record : TypeRecord} {length : UInt64} {size height : Nat}
      (hresolve : context.resolve? name = some record) (hsize : record.size = none)
      (hkind : record.kind = .array) (hlength : record.length = some length)
      (helement : record.element = some element) (hpart : HasSize context fits element size height)
      (hfits : fits (length.toNat * size)) :
      HasSize context fits name (length.toNat * size) (heightOver [height])
  | openArray {name : String} {record : TypeRecord} (hresolve : context.resolve? name = some record)
      (hsize : record.size = none) (hkind : record.kind = .array) (hlength : record.length = none)
      (hfits : fits 0) : HasSize context fits name 0 0

theorem heightOver_le_iff {heights : List Nat} {limit : Nat} :
    heightOver heights ≤ limit ↔ ∀ height ∈ heights, height < limit := by
  induction heights with
  | nil => simp [heightOver]
  | cons height rest ih =>
      simp only [heightOver, List.map_cons, List.foldr_cons, List.forall_mem_cons] at ih ⊢
      rw [Nat.max_le, ih, Nat.succ_le_iff]

/-- A name has at most one size and height, whatever is asked of the numbers on the way. -/
theorem HasSize.unique {context : Context} {fits other : Nat → Prop} {name : String}
    {size size' height height' : Nat} (h : HasSize context fits name size height)
    (h' : HasSize context other name size' height') : size = size' ∧ height = height' := by
  -- two rules for one name agree in the record, and then in everything that the record declares
  induction h generalizing size' height' with
  | declared | openArray => cases h' <;> simp_all
  | struct hresolve _ _ _ _ _ ih =>
      cases h' with
      | struct hresolve' _ _ hslots =>
          cases hresolve.symm.trans hresolve'
          have hparts := fun slot hmem => ih slot hmem (hslots slot hmem)
          rw [List.map_congr_left fun slot hmem => (hparts slot hmem).1,
            List.map_congr_left fun slot hmem => (hparts slot hmem).2]
          exact ⟨rfl, rfl⟩
      | _ => simp_all
  | union hresolve _ _ _ _ ih =>
      cases h' with
      | union hresolve' _ _ hslots =>
          cases hresolve.symm.trans hresolve'
          have hparts := fun slot hmem => ih slot hmem (hslots slot hmem)
          rw [List.map_congr_left fun slot hmem => (hparts slot hmem).1,
            List.map_congr_left fun slot hmem => (hparts slot hmem).2]
          exact ⟨rfl, rfl⟩
      | _ => simp_all
  | array hresolve _ _ hlength helement _ _ ih =>
      cases h' with
      | array hresolve' _ _ hlength' helement' hpart =>
          cases hresolve.symm.trans hresolve'
          cases hlength.symm.trans hlength'
          cases helement.symm.trans helement'
          obtain ⟨rfl, rfl⟩ := ih hpart
          exact ⟨rfl, rfl⟩
      | _ => simp_all

/-! ## Checked offsets -/

private theorem add_gap_eq (offset size : Nat) (hpos : 0 < size) :
    offset + (size - offset % size) % size = (offset + (size - 1)) / size * size := by
  have hlt := Nat.mod_lt offset hpos
  have hsplit := Nat.div_add_mod offset size
  rcases Nat.eq_zero_or_pos (offset % size) with hzero | hrest
  · have hdiv : (offset + (size - 1)) / size = offset / size := by
      refine Nat.div_eq_of_lt_le ?_ ?_
      · rw [Nat.mul_comm]
        omega
      · rw [Nat.succ_mul, Nat.mul_comm]
        omega
    rw [hdiv, hzero, Nat.sub_zero, Nat.mod_self, Nat.mul_comm]
    omega
  · have hdiv : (offset + (size - 1)) / size = offset / size + 1 := by
      refine Nat.div_eq_of_lt_le ?_ ?_
      · rw [Nat.succ_mul, Nat.mul_comm]
        omega
      · rw [Nat.succ_mul, Nat.succ_mul, Nat.mul_comm]
        omega
    rw [hdiv, Nat.mod_eq_of_lt (by omega), Nat.succ_mul, Nat.mul_comm]
    omega

theorem alignOffset_eq_ok_iff {offset size start : UInt64} :
    alignOffset offset size = .ok start ↔ start.toNat = roundUp offset.toNat size.toNat := by
  have hstart : start.toNat < UInt64.size := start.toNat_lt
  unfold alignOffset roundUp
  by_cases hzero : size = 0
  · subst hzero
    simp only [if_true, UInt64.toNat_zero, Except.ok.injEq]
    rw [eq_comm, UInt64.toNat_inj]
  · have hpos : 0 < size.toNat :=
      Nat.pos_of_ne_zero fun h => hzero (UInt64.toNat_inj.mp h)
    have hle : offset % size ≤ size := by
      rw [UInt64.le_iff_toNat_le, UInt64.toNat_mod]
      exact Nat.le_of_lt (Nat.mod_lt _ hpos)
    have hgap : ((size - offset % size) % size).toNat =
        (size.toNat - offset.toNat % size.toNat) % size.toNat := by
      rw [UInt64.toNat_mod, UInt64.toNat_sub_of_le _ _ hle, UInt64.toNat_mod]
    rw [if_neg hzero, if_neg (Nat.ne_of_gt hpos), ← add_gap_eq _ _ hpos, ← hgap]
    simp only
    split
    · rename_i hfits
      rw [Except.ok.injEq, ← UInt64.toNat_inj, UInt64.toNat_add, Nat.mod_eq_of_lt hfits, eq_comm]
    · simp only [reduceCtorEq, false_iff]
      omega

theorem slotStart_eq_ok_iff {packed : Bool} {start size offset : UInt64} :
    slotStart packed start size = .ok offset ↔
      offset.toNat = slotOffset packed start.toNat size.toNat := by
  cases packed with
  | false => exact alignOffset_eq_ok_iff
  | true =>
      simp only [slotStart, slotOffset, if_true, Except.ok.injEq]
      rw [eq_comm, UInt64.toNat_inj]

/-! ## Slots of known sizes -/

section

variable {packed : Bool} {sizeOf : String → Except Error UInt64} {start : UInt64}
  {slots : List Slot} {sizes : String → Nat}

/-- Slots have places when no beginning and no end leaves the range of a word. -/
theorem exists_placeSlots_iff
    (hsizes : ∀ slot ∈ slots, ∃ size, sizeOf slot.typeName = .ok size ∧
      size.toNat = sizes slot.typeName) :
    (∃ placements, placeSlots packed sizeOf start slots = .ok placements) ↔
      ∀ offset ∈ structOffsets packed start.toNat (slots.map fun slot => sizes slot.typeName),
        offset < UInt64.size := by
  induction slots generalizing start with
  | nil => simp [placeSlots, structOffsets]
  | cons slot rest ih =>
      obtain ⟨⟨size, hsize, hnumber⟩, hrest⟩ := List.forall_mem_cons.mp hsizes
      simp only [List.map_cons, structOffsets, List.forall_mem_cons, ← hnumber]
      constructor
      · rintro ⟨placements, h⟩
        obtain ⟨width, offset, stop, others, hwidth, hoffset, hstop, hothers, -⟩ :=
          placeSlots_cons_iff.mp h
        cases hsize.symm.trans hwidth
        rw [slotStart_eq_ok_iff] at hoffset
        rw [addOffset_eq_ok_iff] at hstop
        rw [← hoffset, ← hstop]
        exact ⟨offset.toNat_lt, stop.toNat_lt, (ih hrest).mp ⟨others, hothers⟩⟩
      · rintro ⟨hoffset, hstop, hothers⟩
        obtain ⟨offset, hoffset⟩ : ∃ offset : UInt64,
            offset.toNat = slotOffset packed start.toNat size.toNat :=
          ⟨.ofNat _, UInt64.toNat_ofNat_of_lt' hoffset⟩
        rw [← hoffset] at hstop hothers
        obtain ⟨stop, hstop⟩ : ∃ stop : UInt64, stop.toNat = offset.toNat + size.toNat :=
          ⟨.ofNat _, UInt64.toNat_ofNat_of_lt' hstop⟩
        rw [← hstop] at hothers
        obtain ⟨others, hothers⟩ := (ih hrest).mpr hothers
        exact ⟨_, placeSlots_cons_iff.mpr ⟨size, offset, stop, others, hsize,
          slotStart_eq_ok_iff.mpr hoffset, addOffset_eq_ok_iff.mpr hstop, hothers, rfl⟩⟩

private theorem stop_getLast {placements : List Placement}
    (hsizes : ∀ slot ∈ slots, ∃ size, sizeOf slot.typeName = .ok size ∧
      size.toNat = sizes slot.typeName)
    (h : placeSlots packed sizeOf start slots = .ok placements) :
    placements.getLast?.elim start.toNat Placement.stop =
      structEnd packed start.toNat (slots.map fun slot => sizes slot.typeName) := by
  induction slots generalizing start placements with
  | nil =>
      cases h
      rfl
  | cons slot rest ih =>
      obtain ⟨⟨size, hsize, hnumber⟩, hrest⟩ := List.forall_mem_cons.mp hsizes
      obtain ⟨width, offset, stop, others, hwidth, hoffset, hstop, hothers, rfl⟩ :=
        placeSlots_cons_iff.mp h
      cases hsize.symm.trans hwidth
      rw [slotStart_eq_ok_iff] at hoffset
      rw [addOffset_eq_ok_iff] at hstop
      have hend := ih hrest hothers
      simp only [List.map_cons, structEnd, List.foldl_cons, ← hnumber, ← hoffset, ← hstop] at hend ⊢
      rw [← hend, List.getLast?_cons]
      cases others.getLast? with
      | none => exact hstop.symm
      | some last => rfl

/-- A struct ends where its last slot does. -/
theorem slotsEnd_eq_ok_iff {placements : List Placement} {total : UInt64}
    (hsizes : ∀ slot ∈ slots, ∃ size, sizeOf slot.typeName = .ok size ∧
      size.toNat = sizes slot.typeName)
    (h : placeSlots packed sizeOf 0 slots = .ok placements) :
    slotsEnd placements = .ok total ↔
      total.toNat = structEnd packed 0 (slots.map fun slot => sizes slot.typeName) := by
  have hend := stop_getLast hsizes h
  rw [UInt64.toNat_zero] at hend
  rw [← hend]
  unfold slotsEnd
  cases placements.getLast? with
  | none =>
      simp only [Option.elim_none, Except.ok.injEq]
      rw [eq_comm, ← UInt64.toNat_inj, UInt64.toNat_zero]
  | some last => exact addOffset_eq_ok_iff

theorem widestSlot_eq_ok_iff {widest total : UInt64}
    (hsizes : ∀ slot ∈ slots, ∃ size, sizeOf slot.typeName = .ok size ∧
      size.toNat = sizes slot.typeName) :
    widestSlot sizeOf widest slots = .ok total ↔
      total.toNat = (slots.map fun slot => sizes slot.typeName).foldl max widest.toNat := by
  induction slots generalizing widest with
  | nil =>
      simp only [widestSlot, List.map_nil, List.foldl_nil, Except.ok.injEq]
      rw [eq_comm, UInt64.toNat_inj]
  | cons slot rest ih =>
      obtain ⟨⟨size, hsize, hnumber⟩, hrest⟩ := List.forall_mem_cons.mp hsizes
      have hmax : (max widest size).toNat = max widest.toNat (sizes slot.typeName) := by
        rw [toNat_max, hnumber]
      rw [widestSlot_cons_iff, List.map_cons, List.foldl_cons, ← hmax, ← ih hrest]
      constructor
      · rintro ⟨width, hwidth, hothers⟩
        cases hsize.symm.trans hwidth
        exact hothers
      · exact fun hothers => ⟨size, hsize, hothers⟩

end

/-! ## Computed sizes -/

namespace Context

variable {context : Context} {budget : Nat} {record : TypeRecord} {name : String} {size : UInt64}

/-- A number for every name, and the computed size where there is one. -/
private def partNumber (context : Context) (budget : Nat) (name : String) : Nat :=
  match context.partSize budget name with
  | .ok size => size.toNat
  | .error _ => 0

private theorem partNumber_eq (h : context.partSize budget name = .ok size) :
    context.partNumber budget name = size.toNat := by
  simp only [partNumber, h]

private theorem exists_size_partNumber (h : ∃ size, context.partSize budget name = .ok size) :
    ∃ size, context.partSize budget name = .ok size ∧
      size.toNat = context.partNumber budget name :=
  h.imp fun _ hsize => ⟨hsize, (partNumber_eq hsize).symm⟩

theorem sizeWithin_declared {declared : DeclaredSize} (hsize : record.size = some declared) :
    context.sizeWithin (budget + 1) record = .ok size ↔
      size.toNat = declared.inBytes context.wordSize := by
  cases declared <;>
    simp only [sizeWithin, hsize, DeclaredSize.inBytes, Except.ok.injEq, eq_comm, UInt64.toNat_inj]

private theorem exists_heights {slots : List Slot} {sizes : String → Nat}
    (h : ∀ slot ∈ slots, ∃ height < budget,
      HasSize context (· < UInt64.size) slot.typeName (sizes slot.typeName) height) :
    ∃ heights : String → Nat, heightOver (slots.map fun slot => heights slot.typeName) ≤ budget ∧
      ∀ slot ∈ slots, HasSize context (· < UInt64.size) slot.typeName (sizes slot.typeName)
        (heights slot.typeName) := by
  have hnames : ∀ part, ∃ height, (∃ slot ∈ slots, slot.typeName = part) →
      height < budget ∧ HasSize context (· < UInt64.size) part (sizes part) height := by
    intro part
    by_cases hpart : ∃ slot ∈ slots, slot.typeName = part
    · obtain ⟨slot, hslot, rfl⟩ := hpart
      obtain ⟨height, hheight⟩ := h slot hslot
      exact ⟨height, fun _ => hheight⟩
    · exact ⟨0, fun hslot => absurd hslot hpart⟩
  obtain ⟨heights, hheights⟩ := Classical.skolem.mp hnames
  refine ⟨heights, heightOver_le_iff.mpr fun height hheight => ?_, fun slot hslot => ?_⟩
  · obtain ⟨slot, hslot, rfl⟩ := List.mem_map.mp hheight
    exact (hheights _ ⟨slot, hslot, rfl⟩).1
  · exact (hheights _ ⟨slot, hslot, rfl⟩).2

/-- A size that is found has a derivation no higher than the levels below it. -/
theorem exists_hasSize_of_sizeWithin (hresolve : context.resolve? name = some record)
    (h : context.sizeWithin budget record = .ok size) :
    ∃ height < budget, HasSize context (· < UInt64.size) name size.toNat height := by
  induction budget generalizing name record size with
  | zero => simp [sizeWithin] at h
  | succ budget ih =>
      have hparts : ∀ {part : String} {width : UInt64}, context.partSize budget part = .ok width →
          ∃ height < budget,
            HasSize context (· < UInt64.size) part (context.partNumber budget part) height := by
        intro part width hwidth
        obtain ⟨found, hfound, hsize⟩ := partSize_eq_ok_iff.mp hwidth
        rw [partNumber_eq hwidth]
        exact ih hfound hsize
      cases hdeclared : record.size with
      | some declared =>
          rw [sizeWithin_declared hdeclared] at h
          rw [h]
          exact ⟨0, Nat.succ_pos _, .declared hresolve hdeclared (h ▸ size.toNat_lt)⟩
      | none =>
          cases (sizeWithin_succ_eq_ok_iff hdeclared).mp h with
          | struct hkind hplaced hstop =>
              have hslots := exists_size_of_placeSlots hplaced
              have hnumbers := fun slot hslot => exists_size_partNumber (hslots slot hslot)
              obtain ⟨heights, hheight, hslots⟩ :=
                exists_heights fun slot hslot => hparts (hslots slot hslot).choose_spec
              have htotal := (slotsEnd_eq_ok_iff hnumbers hplaced).mp hstop
              rw [htotal]
              exact ⟨_, Nat.lt_succ_of_le hheight, .struct hresolve hdeclared hkind hslots
                ((exists_placeSlots_iff hnumbers).mp ⟨_, hplaced⟩) (htotal ▸ size.toNat_lt)⟩
          | union hkind hwidest =>
              have hslots := fun slot hslot =>
                (size_le_widestSlot hwidest slot hslot).imp fun _ => And.left
              have hnumbers := fun slot hslot => exists_size_partNumber (hslots slot hslot)
              obtain ⟨heights, hheight, hslots⟩ :=
                exists_heights fun slot hslot => hparts (hslots slot hslot).choose_spec
              have htotal := (widestSlot_eq_ok_iff hnumbers).mp hwidest
              rw [UInt64.toNat_zero] at htotal
              rw [htotal]
              exact ⟨_, Nat.lt_succ_of_le hheight,
                .union hresolve hdeclared hkind hslots (htotal ▸ size.toNat_lt)⟩
          | openArray hkind hlength =>
              exact ⟨0, Nat.succ_pos _, .openArray hresolve hdeclared hkind hlength (by decide)⟩
          | array hkind hlength helement hstride hsize =>
              obtain ⟨height, hheight, hpart⟩ := hparts hstride
              rw [partNumber_eq hstride] at hpart
              rw [hsize]
              refine ⟨_, Nat.lt_succ_of_le (heightOver_le_iff.mpr ?_),
                .array hresolve hdeclared hkind hlength helement hpart (hsize ▸ size.toNat_lt)⟩
              simpa using hheight

/-- What a derivation gives is found with more levels than its height. -/
theorem exists_partSize_of_hasSize {number height : Nat}
    (h : HasSize context (· < UInt64.size) name number height) (hbudget : height < budget) :
    ∃ size, context.partSize budget name = .ok size ∧ size.toNat = number := by
  induction h generalizing budget with
  | declared hresolve hsize hfits =>
      obtain ⟨below, rfl⟩ := Nat.exists_eq_add_of_lt hbudget
      have hnumber := UInt64.toNat_ofNat_of_lt' hfits
      exact ⟨_, partSize_eq_ok_iff.mpr ⟨_, hresolve, (sizeWithin_declared hsize).mpr hnumber⟩,
        hnumber⟩
  | struct hresolve hsize hkind _ hoffsets hfits ih =>
      obtain ⟨below, rfl⟩ := Nat.exists_eq_add_one_of_ne_zero (Nat.ne_zero_of_lt hbudget)
      have hheights := heightOver_le_iff.mp (Nat.le_of_lt_succ hbudget)
      have hparts := fun slot hslot => ih slot hslot (hheights _ (List.mem_map_of_mem hslot))
      have hnumber := UInt64.toNat_ofNat_of_lt' hfits
      have hplaces : ∃ placements, placeSlots _ (context.partSize below) 0 _ = .ok placements :=
        (exists_placeSlots_iff hparts).mpr hoffsets
      obtain ⟨placements, hplaced⟩ := hplaces
      exact ⟨_, partSize_eq_ok_iff.mpr ⟨_, hresolve, (sizeWithin_succ_eq_ok_iff hsize).mpr
        (.struct hkind hplaced ((slotsEnd_eq_ok_iff hparts hplaced).mpr hnumber))⟩, hnumber⟩
  | union hresolve hsize hkind _ hfits ih =>
      obtain ⟨below, rfl⟩ := Nat.exists_eq_add_one_of_ne_zero (Nat.ne_zero_of_lt hbudget)
      have hheights := heightOver_le_iff.mp (Nat.le_of_lt_succ hbudget)
      have hparts := fun slot hslot => ih slot hslot (hheights _ (List.mem_map_of_mem hslot))
      have hnumber := UInt64.toNat_ofNat_of_lt' hfits
      exact ⟨_, partSize_eq_ok_iff.mpr ⟨_, hresolve, (sizeWithin_succ_eq_ok_iff hsize).mpr
        (.union hkind ((widestSlot_eq_ok_iff hparts).mpr hnumber))⟩, hnumber⟩
  | array hresolve hsize hkind hlength helement _ hfits ih =>
      obtain ⟨below, rfl⟩ := Nat.exists_eq_add_one_of_ne_zero (Nat.ne_zero_of_lt hbudget)
      have hheights := heightOver_le_iff.mp (Nat.le_of_lt_succ hbudget)
      obtain ⟨stride, hstride, rfl⟩ := ih (hheights _ (.head _))
      have hnumber := UInt64.toNat_ofNat_of_lt' hfits
      exact ⟨_, partSize_eq_ok_iff.mpr ⟨_, hresolve, (sizeWithin_succ_eq_ok_iff hsize).mpr
        (.array hkind hlength helement hstride hnumber)⟩, hnumber⟩
  | openArray hresolve hsize hkind hlength =>
      obtain ⟨below, rfl⟩ := Nat.exists_eq_add_one_of_ne_zero (Nat.ne_zero_of_lt hbudget)
      exact ⟨0, partSize_eq_ok_iff.mpr ⟨_, hresolve, (sizeWithin_succ_eq_ok_iff hsize).mpr
        (.openArray hkind hlength)⟩, rfl⟩

/-- A name has the size that the rules derive for it, if the derivation is no higher than the limit
of nesting and all its numbers are words; in every other case it has none. -/
theorem sizeOf_eq_ok_iff_hasSize :
    context.sizeOf name = .ok size ↔
      ∃ height ≤ context.limits.depth,
        HasSize context (· < UInt64.size) name size.toNat height := by
  constructor
  · intro h
    obtain ⟨record, hresolve, hsize⟩ := sizeOf_eq_ok_iff.mp h
    obtain ⟨height, hheight, hderived⟩ := exists_hasSize_of_sizeWithin hresolve hsize
    exact ⟨height, Nat.le_of_lt_succ hheight, hderived⟩
  · rintro ⟨height, hheight, hderived⟩
    obtain ⟨found, hfound, hnumber⟩ :=
      exists_partSize_of_hasSize hderived (Nat.lt_succ_of_le hheight)
    rw [← UInt64.toNat_inj.mp hnumber]
    exact hfound

end Context

end BinarySchema
