import BinarySchema.Proofs.Buffer
import BinarySchema.Proofs.Value.Levels

/-!
# Reading behind a front

A buffer is read in the same way wherever it lies: with bytes put in front of it, a read from as
much further on gives the same value with all of its offsets moved along.
-/

namespace BinarySchema

/-! ## Moving along -/

namespace Value

variable {context : Context} {distance : UInt64}

mutual

/-- The same value with every offset larger by a distance. -/
def shifted (distance : UInt64) : Value → Value
  | .scalar record offset content => .scalar record (offset + distance) content
  | .struct record offset slots => .struct record (offset + distance) (shiftedSlots distance slots)
  | .union record offset none => .union record (offset + distance) none
  | .union record offset (some (name, child)) =>
      .union record (offset + distance) (some (name, shifted distance child))
  | .array record offset items => .array record (offset + distance) (shiftedItems distance items)

def shiftedSlots (distance : UInt64) : List (Option Value) → List (Option Value)
  | [] => []
  | none :: rest => none :: shiftedSlots distance rest
  | some child :: rest => some (shifted distance child) :: shiftedSlots distance rest

def shiftedItems (distance : UInt64) : List Value → List Value
  | [] => []
  | item :: rest => shifted distance item :: shiftedItems distance rest

end

theorem shiftedSlots_eq_map (slots : List (Option Value)) :
    shiftedSlots distance slots = slots.map (·.map (shifted distance)) := by
  induction slots with
  | nil => rfl
  | cons entry rest ih => cases entry <;> simp [shiftedSlots, ih]

theorem shiftedItems_eq_map (items : List Value) :
    shiftedItems distance items = items.map (shifted distance) := by
  induction items with
  | nil => rfl
  | cons item rest ih => simp [shiftedItems, ih]

@[simp] theorem shifted_struct_map_some (record : TypeRecord) (offset : UInt64)
    (parts : List Value) :
    (Value.struct record offset (parts.map some)).shifted distance =
      .struct record (offset + distance) ((parts.map (shifted distance)).map some) := by
  simp [shifted, shiftedSlots_eq_map]

@[simp] theorem shifted_array (record : TypeRecord) (offset : UInt64) (items : List Value) :
    (Value.array record offset items).shifted distance =
      .array record (offset + distance) (items.map (shifted distance)) := by
  rw [shifted, shiftedItems_eq_map]

/-- Moving along changes offsets only. -/
theorem unplaced_shifted (value : Value) : (value.shifted distance).unplaced = value.unplaced := by
  induction value using Value.induction with
  | scalar | unset => rfl
  | active record offset name child ih => simp only [shifted, unplaced, ih]
  | struct record offset slots ih =>
      simp only [shifted, unplaced, shiftedSlots_eq_map, unplacedSlots_eq_map, List.map_map]
      congr 1
      refine List.map_congr_left fun entry hmem => ?_
      cases entry with
      | none => rfl
      | some child => simp [ih child hmem]
  | array record offset items ih =>
      simp only [shifted, unplaced, shiftedItems_eq_map, unplacedItems_eq_map, List.map_map]
      congr 1
      exact List.map_congr_left ih

theorem shifted_blank (record : TypeRecord) (offset : UInt64) :
    (blank record offset).shifted distance = blank record (offset + distance) := by
  unfold blank
  cases record.kind <;> simp [shifted, shiftedSlots_eq_map, shiftedItems]

theorem FreshPart.shifted {name : String} {start : UInt64} {part : Value}
    (h : FreshPart context name start part) (distance : UInt64) :
    FreshPart context name (start + distance) (part.shifted distance) := by
  obtain ⟨record, -, rfl, hpart⟩ := h.blank_at (start + distance)
  rwa [shifted_blank]

end Value

/-! ## Offsets and scalars behind a front -/

theorem toNat_add_of_lt {offset distance : UInt64}
    (h : offset.toNat + distance.toNat < UInt64.size) :
    (offset + distance).toNat = offset.toNat + distance.toNat := by
  rw [UInt64.toNat_add, Nat.mod_eq_of_lt h]

theorem addOffset_shifted {offset delta start distance : UInt64}
    (h : addOffset offset delta = .ok start)
    (hroom : start.toNat + distance.toNat < UInt64.size) :
    addOffset (offset + distance) delta = .ok (start + distance) := by
  rw [addOffset_eq_ok_iff] at h ⊢
  rw [toNat_add_of_lt hroom, toNat_add_of_lt (by omega)]
  omega

theorem elementOffset_shifted {offset stride start distance : UInt64} {index : Nat}
    (h : elementOffset offset index stride = .ok start)
    (hroom : start.toNat + distance.toNat < UInt64.size) :
    elementOffset (offset + distance) index stride = .ok (start + distance) := by
  rw [elementOffset_eq_ok_iff] at h ⊢
  rw [toNat_add_of_lt hroom, toNat_add_of_lt (by omega)]
  omega

section

variable {context : Context} {front buffer : Buffer} {offset distance : UInt64}

theorem ScalarCodec.read_append {codec : ScalarCodec} {content : Scalar}
    (hdistance : distance.toNat = front.size)
    (hroom : offset.toNat + distance.toNat < UInt64.size)
    (h : codec.read buffer offset = .ok content) :
    codec.read (front ++ buffer) (offset + distance) = .ok content := by
  have hoffset := toNat_add_of_lt hroom
  rw [hdistance] at hoffset
  unfold ScalarCodec.read at h ⊢
  split at h
  · rename_i hfits
    have hfits : codec.fits (front ++ buffer) (offset + distance) = true := by
      simp only [fits, hoffset, Array.size_append, decide_eq_true_eq] at hfits ⊢
      omega
    rw [if_pos hfits, hoffset, Buffer.slice_append]
    exact h
  · contradiction

theorem Value.readScalar_append {record : TypeRecord} {content : Scalar}
    (hdistance : distance.toNat = front.size)
    (hroom : offset.toNat + distance.toNat < UInt64.size)
    (h : readScalar context buffer record offset = .ok content) :
    readScalar context (front ++ buffer) record (offset + distance) = .ok content := by
  unfold readScalar at h ⊢
  split at h
  · exact ScalarCodec.read_append hdistance hroom h
  · contradiction

end

/-! ## Values behind a front -/

namespace Value

variable {context : Context} {front buffer : Buffer} {distance : UInt64}

private theorem forall₂_map_shifted {R S : Value → Value → Prop} {parts children : List Value}
    (h : List.Forall₂ R parts children)
    (hS : ∀ (index : Nat) (part child : Value), parts[index]? = some part →
      children[index]? = some child → R part child →
      S (part.shifted distance) (child.shifted distance)) :
    List.Forall₂ S (parts.map (shifted distance)) (children.map (shifted distance)) := by
  rw [List.forall₂_map_left_iff, List.forall₂_map_right_iff]
  exact forall₂_of_getElem? h.length_eq fun index part child hpart hchild =>
    hS index part child hpart hchild (rel_of_forall₂ h hpart hchild)

/-- Every level of a read is the same behind a front. -/
theorem readWithin_append {fuel : Nat} {value after : Value}
    (hdistance : distance.toNat = front.size) (hshaped : value.Shaped)
    (h : readWithin context buffer fuel value = some (.done after))
    (hroom : after.Everywhere fun part => part.offset.toNat + distance.toNat < UInt64.size) :
    readWithin context (front ++ buffer) fuel (value.shifted distance) =
      some (.done (after.shifted distance)) := by
  induction fuel generalizing value after with
  | zero => contradiction
  | succ fuel ih =>
      -- the offset of what was read bounds the place that the part has behind the front
      have hpart : ∀ {name : String} {start : UInt64} {part child : Value},
          FreshPart context name start part →
          readWithin context buffer fuel part = some (.done child) → child ∈ after.children →
          start.toNat + distance.toNat < UInt64.size ∧
            readWithin context (front ++ buffer) fuel (part.shifted distance) =
              some (.done (child.shifted distance)) := by
        intro name start part child hfresh hread hmem
        have hinside := hroom.inside child hmem
        obtain ⟨-, -, hoffset⟩ := sound_of_readWithin hfresh.sound hread
        have hstart := hinside.here
        rw [hoffset, hfresh.offset_eq] at hstart
        exact ⟨hstart, ih hfresh.sound.shaped hread hinside⟩
      have hform : (value.shifted distance).ShapedHere := by
        rw [← shapedHere_unplaced, unplaced_shifted, shapedHere_unplaced]
        exact hshaped.here
      refine readWithin_of_readStep hform ?_
      cases readStep_of_readWithin hshaped.here h with
      | scalar hread => exact .scalar (readScalar_append hdistance hroom.here hread)
      | @active record offset name part child hread =>
          exact .active (ih (hshaped.inside part (by simp)) hread (hroom.inside child (by simp)))
      | @first record offset slot rest part child hslots hfresh hread =>
          exact .first hslots (hfresh.shifted distance) (hpart hfresh hread (by simp)).2
      | @struct record offset slots placements parts children hparts hread =>
          rw [shifted_struct_map_some]
          refine .struct ⟨hparts.placements_eq, ?_, fun index moved hmoved => ?_⟩
            (forall₂_map_shifted hread fun index part child hindex hchild hstep => ?_)
          · rw [List.length_map, hparts.length_eq]
          · obtain ⟨part, hindex, rfl⟩ := Option.map_eq_some_iff.mp (List.getElem?_map .. ▸ hmoved)
            obtain ⟨slot, placement, start, hslot, hplacement, hstart, hfresh⟩ :=
              hparts.fresh index part hindex
            obtain ⟨child, hchild, hstep⟩ := exists_getElem?_of_forall₂ hread.flip hindex
            have hmem := List.mem_map_of_mem (f := some) (List.mem_of_getElem? hchild)
            have hplace := (hpart hfresh hstep (mem_children_struct.mpr hmem)).1
            exact ⟨slot, placement, start + distance, hslot, hplacement,
              addOffset_shifted hstart hplace, hfresh.shifted distance⟩
          · obtain ⟨slot, placement, start, -, -, -, hfresh⟩ := hparts.fresh index part hindex
            have hmem := List.mem_map_of_mem (f := some) (List.mem_of_getElem? hchild)
            exact (hpart hfresh hstep (mem_children_struct.mpr hmem)).2
      | @array record offset length stride name items parts children hlength helement hstride hcount
          hfresh hread =>
          rw [shifted_array, shifted_array]
          refine .array hlength helement hstride ?_ (fun index moved hmoved => ?_)
            (forall₂_map_shifted hread fun index part child hindex hchild hstep => ?_)
          · rw [List.length_map, hcount]
          · obtain ⟨part, hindex, rfl⟩ := Option.map_eq_some_iff.mp (List.getElem?_map .. ▸ hmoved)
            obtain ⟨start, hstart, hfresh⟩ := hfresh index part hindex
            obtain ⟨child, hchild, hstep⟩ := exists_getElem?_of_forall₂ hread.flip hindex
            have hplace := (hpart hfresh hstep (List.mem_of_getElem? hchild)).1
            exact ⟨start + distance, elementOffset_shifted hstart hplace, hfresh.shifted distance⟩
          · obtain ⟨start, -, hfresh⟩ := hfresh index part hindex
            exact (hpart hfresh hstep (List.mem_of_getElem? hchild)).2

end Value

namespace Context

variable {context : Context} {buffer : Buffer} {offset : UInt64} {name : String} {value : Value}

/-- Behind a front a value is read from as much further on, with all offsets moved along and
everything else unchanged. -/
theorem read_append_front (front : Buffer) (h : context.read name buffer offset = some (.ok value))
    (hroom : value.Everywhere fun part => part.offset.toNat + front.size < UInt64.size) :
    context.read name (front ++ buffer) (offset + .ofNat front.size) =
      some (.ok (value.shifted (.ofNat front.size))) := by
  obtain ⟨part, fuel, hfresh, hread⟩ := Value.readWithin_of_read h
  have hdistance : (UInt64.ofNat front.size).toNat = front.size := by
    have := hroom.here
    exact UInt64.toNat_ofNat_of_lt' (by omega)
  rw [← hdistance] at hroom
  have hmoved := Value.readWithin_append hdistance hfresh.sound.shaped hread hroom
  exact (hfresh.shifted (.ofNat front.size)).read_eq_ok_iff.mpr ⟨fuel, hmoved⟩

theorem read_append_front_frame :
    frameContext.read "frame" (.replicate 16 1) 0 = some (.ok (.frameValue 0)) ∧
      ((Value.frameValue 0).Everywhere fun part =>
        part.offset.toNat + (#[7, 8, 9] : Buffer).size < UInt64.size) ∧
      frameContext.read "frame" (#[7, 8, 9] ++ .replicate 16 1) (0 + .ofNat 3) =
        some (.ok ((Value.frameValue 0).shifted (.ofNat 3))) := by
  have hroom : (Value.frameValue 0).Everywhere fun part =>
      part.offset.toNat + (#[7, 8, 9] : Buffer).size < UInt64.size := by
    refine Value.everywhere_frameValue (by decide) ?_ ?_
    · simp [Value.frameValue, Value.children, Value.offset, UInt64.size]
    · have hleaves : ((Value.frameValue 0).leaves.all fun leaf =>
          leaf.offset.toNat + 3 < UInt64.size) = true := by decide
      exact fun leaf hleaf => by simpa [Value.offset] using List.all_eq_true.mp hleaves leaf hleaf
  exact ⟨Value.read_frame, hroom, read_append_front #[7, 8, 9] Value.read_frame hroom⟩

end Context

end BinarySchema
