import BinarySchema.Proofs.Session
import BinarySchema.Proofs.Value.Apart
import BinarySchema.Proofs.Value.Window
import BinarySchema.Proofs.Value.WriteBack

/-!
# The window of a write

A value of a closed type is written within the range that the size of its type spans, also by a
write that fails midway.  Elements beyond the declared length of an array have places outside of the
range; none of them is written, since the length is compared before the first element.
-/

namespace BinarySchema

/-- The buffer was not found too small. -/
def HasRoom (outcome : Except Error Unit) : Prop :=
  ∀ start width length, outcome ≠ .error (.bufferTooSmall start width length)

theorem SparesBuffer.hasRoom {outcome : Except Error Unit} (h : SparesBuffer outcome) :
    HasRoom outcome := by
  intro start width length hshort
  exact h _ hshort rfl

namespace Value

variable {context : Context} {before after : Buffer} {start stop : Nat}

/-! ## Bytes of written leaves -/

theorem size_of_writesAll {leaves : List Leaf} (h : WritesAll context leaves before after) :
    after.size = before.size := by
  induction h with
  | nil => rfl
  | cons hleaf _ ih =>
      obtain ⟨codec, content, word, -, -, -, -, rfl⟩ := hleaf
      rw [ih, Buffer.size_overwrite]

theorem Leaf.Writes.getElem?_eq {leaf : Leaf} (h : leaf.Writes context before after) {index : Nat}
    (hindex : ¬leaf.Covers context index) : after[index]? = before[index]? := by
  obtain ⟨codec, content, word, hcodec, -, hfits, -, rfl⟩ := h
  have hroom : leaf.offset.toNat + (codec.bytesOf word).length ≤ before.size := by
    rw [ScalarCodec.length_bytesOf]
    exact ScalarCodec.fits_iff.mp hfits
  rw [Buffer.getElem?_overwrite hroom, ScalarCodec.length_bytesOf, if_neg]
  rintro ⟨hlow, hhigh⟩
  exact hindex ⟨codec, hcodec, hlow, hhigh⟩

/-- A byte that a write changes belongs to a leaf with a content. -/
theorem exists_covers_of_writesAll {leaves : List Leaf}
    (h : WritesAll context leaves before after) {index : Nat}
    (hindex : after[index]? ≠ before[index]?) :
    ∃ leaf ∈ leaves, leaf.content.isSome = true ∧ leaf.Covers context index := by
  induction h with
  | nil => exact absurd rfl hindex
  | @cons leaf rest before middle after hleaf _ ih =>
      by_cases hcovers : leaf.Covers context index
      · obtain ⟨codec, content, word, -, hcontent, -⟩ := hleaf
        exact ⟨leaf, .head _, by simp [hcontent], hcovers⟩
      · rw [← hleaf.getElem?_eq hcovers] at hindex
        obtain ⟨other, hmem, hother⟩ := ih hindex
        exact ⟨other, .tail _ hmem, hother⟩

/-! ## Writes inside a range -/

/-- What was written are leaves in a range, and a buffer that contains the range had room. -/
structure Confined (context : Context) (leaves : List Leaf) (start stop : Nat) (before : Buffer)
    (update : Update Buffer) : Prop where
  written : ∃ part ⊆ leaves, (∀ leaf ∈ part, leaf.Inside context start stop) ∧
    WritesAll context part before update.left
  hasRoom : stop ≤ before.size → HasRoom update.outcome

namespace Confined

variable {leaves : List Leaf} {update : Update Buffer}

theorem nothing (leaves : List Leaf) (houtcome : HasRoom update.outcome)
    (hleft : update.left = before) : Confined context leaves start stop before update :=
  ⟨⟨[], List.nil_subset _, by simp, hleft ▸ .nil⟩, fun _ => houtcome⟩

theorem mono (h : Confined context leaves start stop before update) {low high : Nat}
    (hlow : low ≤ start) (hhigh : stop ≤ high) :
    Confined context leaves low high before update := by
  obtain ⟨part, hpart, hinside, hwritten⟩ := h.written
  exact ⟨⟨part, hpart, fun leaf hleaf => (hinside leaf hleaf).mono hlow hhigh, hwritten⟩,
    fun hroom => h.hasRoom (Nat.le_trans hhigh hroom)⟩

theorem andThen {back : List Leaf} (h : Confined context leaves start stop before update)
    {next : Buffer → Update Buffer}
    (hnext : ∀ middle, Confined context back start stop middle (next middle)) :
    Confined context (leaves ++ back) start stop before
      (match update.outcome with
      | .ok () => next update.left
      | .error _ => update) := by
  obtain ⟨front, hfront, hinside, hwritten⟩ := h.written
  split
  · obtain ⟨rest, hrest, hothers, hlater⟩ := (hnext update.left).written
    refine ⟨⟨front ++ rest, ?_, ?_, writesAll_append.mpr ⟨_, hwritten, hlater⟩⟩, fun hroom => ?_⟩
    · exact List.append_subset.mpr ⟨List.subset_append_of_subset_left _ hfront,
        List.subset_append_of_subset_right _ hrest⟩
    · exact fun leaf hleaf => (List.mem_append.mp hleaf).elim (hinside leaf) (hothers leaf)
    · exact (hnext update.left).hasRoom (size_of_writesAll hwritten ▸ hroom)
  · exact ⟨⟨front, List.subset_append_of_subset_left _ hfront, hinside, hwritten⟩, h.hasRoom⟩

end Confined

private theorem hasRoom_of_write {codec : ScalarCodec} {buffer : Buffer} {offset : UInt64}
    {content : Scalar} {typeName : String} {failure : Error}
    (hroom : offset.toNat + codec.width ≤ buffer.size)
    (h : codec.write buffer offset content typeName = .error failure) :
    HasRoom (.error failure) := by
  unfold ScalarCodec.write at h
  rw [if_pos (ScalarCodec.fits_iff.mpr hroom)] at h
  split at h
  · contradiction
  · cases h
    simp [HasRoom]

private theorem confined_writeScalar {record : TypeRecord} {offset : UInt64} {content : Scalar}
    (hinside : Leaf.Inside context ⟨record, offset, some content⟩ start stop) :
    Confined context [⟨record, offset, some content⟩] start stop before
      (writeScalar context record offset content before) := by
  unfold writeScalar
  cases hcodec : context.scalarCodec record with
  | error failure =>
      have hspares := sparesBuffer_scalarCodec record failure hcodec
      exact .nothing _ (sparesBuffer_error hspares).hasRoom rfl
  | ok codec =>
      have hstop := (hinside codec hcodec).2
      dsimp only
      cases hwrite : codec.write before offset content record.name with
      | error failure =>
          refine ⟨⟨[], List.nil_subset _, by simp, .nil⟩, fun hroom => ?_⟩
          exact hasRoom_of_write (Nat.le_trans hstop hroom) hwrite
      | ok written =>
          obtain ⟨hfits, word, hword, rfl⟩ := ScalarCodec.write_eq_ok_iff.mp hwrite
          refine ⟨⟨_, List.Subset.refl _, fun leaf hleaf => ?_,
            .cons ⟨codec, content, word, hcodec, rfl, hfits, hword, rfl⟩ .nil⟩, fun _ => ?_⟩
          · exact List.mem_singleton.mp hleaf ▸ hinside
          · simp [HasRoom]

private theorem confined_writeSlots {typeName : String} {slots : List Slot}
    {entries : List (Option Value)}
    (hentries : ∀ child, some child ∈ entries → ∀ before,
      Confined context child.leaves start stop before (child.write context before)) :
    Confined context (slotLeaves entries) start stop before
      (writeSlots context typeName before slots entries) := by
  induction entries generalizing slots before with
  | nil => cases slots <;> exact .nothing _ (by simp [HasRoom, writeSlots, Update.done]) rfl
  | cons entry rest ih =>
      cases slots with
      | nil => cases entry <;> exact .nothing _ (by simp [HasRoom, writeSlots]) rfl
      | cons slot slots =>
          cases entry with
          | none => exact .nothing _ (by simp [HasRoom, writeSlots]) rfl
          | some child =>
              have hrest := fun before => @ih before slots
                fun other hmem => hentries other (.tail _ hmem)
              simp only [writeSlots, slotLeaves]
              exact (hentries child (.head _) before).andThen hrest

private theorem confined_writeItems {items : List Value}
    (hitems : ∀ item ∈ items, ∀ before,
      Confined context item.leaves start stop before (item.write context before)) :
    Confined context (itemLeaves items) start stop before (writeItems context before items) := by
  induction items generalizing before with
  | nil => exact .nothing _ (by simp [HasRoom, writeItems]) rfl
  | cons item rest ih =>
      have hrest := fun before => @ih before fun other hmem => hitems other (.tail _ hmem)
      simp only [writeItems, itemLeaves]
      exact (hitems item (.head _) before).andThen hrest

/-- A write keeps to every range that the leaves of the value lie in. -/
theorem confined_of_inside {value : Value}
    (hinside : ∀ leaf ∈ value.leaves, leaf.Inside context start stop) :
    Confined context value.leaves start stop before (value.write context before) := by
  induction value using Value.induction generalizing before with
  | unset record offset => exact .nothing _ (by simp [HasRoom, write]) rfl
  | scalar record offset content =>
      cases content with
      | none => exact .nothing _ (by simp [HasRoom, write]) rfl
      | some content => exact confined_writeScalar (hinside _ (by simp [leaves]))
  | active record offset active child ih =>
      simp only [write, leaves]
      exact ih hinside
  | struct record offset slots ih =>
      exact confined_writeSlots fun child hmem middle =>
        ih child hmem fun leaf hleaf =>
          hinside leaf (leaves_subset (mem_children_struct.mpr hmem) hleaf)
  | array record offset items ih =>
      have hitems : Confined context (itemLeaves items) start stop before
          (writeItems context before items) :=
        confined_writeItems fun item hmem middle =>
          ih item hmem fun leaf hleaf => hinside leaf (leaves_subset hmem hleaf)
      simp only [write, leaves]
      split
      · split
        · exact hitems
        · exact .nothing _ (by simp [HasRoom]) rfl
      · exact hitems

/-! ## Ranges of parts -/

variable {value child : Value} {name : String} {size : UInt64}

/-- A part lies in the range of the whole, unless it is an element too many. -/
theorem exists_range_of_child (hsound : value.Sound context) (hclosed : value.record.Closed)
    (hsize : context.sizeOfRecord value.record = .ok size)
    (hcount : value.record.kind = .array →
      ∀ length ∈ value.record.length, value.items.length = length.toNat)
    (hmem : child ∈ value.children) :
    ∃ part width, part ∈ value.record.references ∧ child.OfType context part ∧
      context.sizeOf part = .ok width ∧ value.offset.toNat ≤ child.offset.toNat ∧
      child.offset.toNat + width.toNat ≤ value.offset.toNat + size.toNat := by
  match value with
  | .scalar record offset content => contradiction
  | .struct record offset slots =>
      have hkind : record.kind = .struct := hsound.shaped.here.1
      have hnone : record.size = none := hclosed.1 (by simp [Value.record, hkind, Kind.isComposite])
      obtain ⟨placements, hplacements, hends⟩ :=
        Context.placements_of_sizeOfRecord hkind hnone hsize
      obtain ⟨index, hchild⟩ := List.getElem?_of_mem (mem_children_struct.mp hmem)
      obtain ⟨slot, placement, hslot, hplacement, htype, hoffset⟩ := hsound.slot hplacements hchild
      have hend := hends placement (List.mem_of_getElem? hplacement)
      refine ⟨slot.typeName, placement.size,
        TypeRecord.typeName_mem_references (.inl hkind) (List.mem_of_getElem? hslot), htype,
        Context.slotPlacements_size hplacements hslot hplacement, ?_, ?_⟩
      · rw [hoffset]
        exact Nat.le_add_right _ _
      · rw [hoffset, Nat.add_assoc]
        exact Nat.add_le_add_left hend _
  | .union record offset none => contradiction
  | .union record offset (some (active, part)) =>
      have hkind : record.kind = .union := hsound.shaped.here.1
      have hnone : record.size = none := hclosed.1 (by simp [Value.record, hkind, Kind.isComposite])
      obtain ⟨slot, hslot, htype⟩ := hsound.typed.here
      have hslot := List.mem_of_find?_eq_some hslot
      obtain ⟨width, hwidth, hle⟩ := Context.slot_size_of_sizeOfRecord hkind hnone hsize hslot
      cases List.mem_singleton.mp hmem
      have hplaced : child.offset = offset := hsound.placed.here
      refine ⟨slot.typeName, width, TypeRecord.typeName_mem_references (.inr hkind) hslot, htype,
        hwidth, ?_, ?_⟩
      · rw [hplaced]
        exact Nat.le_refl _
      · rw [hplaced]
        exact Nat.add_le_add_left hle _
  | .array record offset items =>
      have hkind : record.kind = .array := hsound.shaped.here
      have hnone : record.size = none := hclosed.1 (by simp [Value.record, hkind, Kind.isComposite])
      obtain ⟨length, hlength⟩ := Option.ne_none_iff_exists'.mp (hclosed.2 hkind)
      obtain ⟨part, stride, helement, hstride, htotal⟩ :=
        Context.stride_of_sizeOfRecord hkind hnone hlength hsize
      obtain ⟨index, hitem⟩ := List.getElem?_of_mem hmem
      obtain ⟨htype, hoffset⟩ := hsound.item helement hstride hitem
      have hlt : index + 1 ≤ length.toNat :=
        hcount hkind length hlength ▸ (List.getElem?_eq_some_iff.mp hitem).1
      have hend := Nat.mul_le_mul_right stride.toNat hlt
      have hpart := TypeRecord.element_mem_references hkind helement
      refine ⟨part, stride, hpart, htype, hstride, ?_, ?_⟩
      · rw [hoffset]
        exact Nat.le_add_right _ _
      · rw [hoffset, Nat.add_assoc, ← Nat.succ_mul, htotal]
        exact Nat.add_le_add_left hend _

private theorem confined_child (hsound : value.Sound context) (htype : value.OfType context name)
    (hclosed : context.Throughout TypeRecord.Closed name) (hsize : context.sizeOf name = .ok size)
    (hcount : value.record.kind = .array →
      ∀ length ∈ value.record.length, value.items.length = length.toNat)
    (hmem : child ∈ value.children)
    (ih : ∀ {part width}, child.OfType context part → context.Throughout TypeRecord.Closed part →
      context.sizeOf part = .ok width →
      Confined context child.leaves child.offset.toNat (child.offset.toNat + width.toNat) before
        (child.write context before)) :
    Confined context child.leaves value.offset.toNat (value.offset.toNat + size.toNat) before
      (child.write context before) := by
  obtain ⟨hrecord, hown, hparts⟩ := htype.closed hclosed hsize
  obtain ⟨part, width, hpart, hchild, hwidth, hlow, hhigh⟩ :=
    exists_range_of_child hsound hown hrecord hcount hmem
  exact (ih hchild (hparts part hpart) hwidth).mono hlow hhigh

/-- A write of a value of a closed type keeps to the range of the type. -/
theorem confined_write (hsound : value.Sound context) (htype : value.OfType context name)
    (hclosed : context.Throughout TypeRecord.Closed name) (hsize : context.sizeOf name = .ok size) :
    Confined context value.leaves value.offset.toNat (value.offset.toNat + size.toNat) before
      (value.write context before) := by
  induction value using Value.induction generalizing name size before with
  | unset record offset => exact .nothing _ (by simp [HasRoom, write]) rfl
  | scalar record offset content =>
      obtain ⟨hrecord, -, -⟩ := htype.closed hclosed hsize
      cases content with
      | none => exact .nothing _ (by simp [HasRoom, write]) rfl
      | some content => exact confined_writeScalar (Leaf.inside_of_sizeOfRecord hrecord)
  | active record offset active child ih =>
      have hkind : record.kind = .union := hsound.shaped.here.1
      have hmem : child ∈ (Value.union record offset (some (active, child))).children := by simp
      simp only [write, leaves]
      exact confined_child hsound htype hclosed hsize (by simp [Value.record, hkind]) hmem
        (ih (hsound.inside hmem))
  | struct record offset slots ih =>
      have hkind : record.kind = .struct := hsound.shaped.here.1
      refine confined_writeSlots fun child hchild middle => ?_
      have hmem : child ∈ (Value.struct record offset slots).children :=
        mem_children_struct.mpr hchild
      exact confined_child hsound htype hclosed hsize (by simp [Value.record, hkind]) hmem
        (ih child hchild (hsound.inside hmem))
  | array record offset items ih =>
      have hkind : record.kind = .array := hsound.shaped.here
      obtain ⟨-, hown, -⟩ := htype.closed hclosed hsize
      obtain ⟨length, hlength⟩ : ∃ length, record.length = some length :=
        Option.ne_none_iff_exists'.mp (hown.2 hkind)
      simp only [write, hlength, leaves]
      split
      · rename_i hcount
        refine confined_writeItems fun item hmem middle => ?_
        refine confined_child hsound htype hclosed hsize (fun _ other hother => ?_) hmem
          (ih item hmem (hsound.inside hmem))
        cases hlength.symm.trans hother
        exact hcount.symm
      · exact .nothing _ (by simp [HasRoom]) rfl

end Value

/-! ## Writes of named types -/

namespace Context

variable {context : Context} {name : String} {size : UInt64} {value : Value}

/-- A write of a value of a closed type, whether it ends well or fails midway, changes bytes in the
range of the type only, of those the ones that scalars with a content take up, and no buffer that
contains the range is too small for it. -/
theorem write_inside_window {session : Session} {variableName : String}
    (hsize : context.sizeOf name = .ok size)
    (hclosed : context.Throughout TypeRecord.Closed name)
    (hrun : Session.CleanRun (.start context) session)
    (hheld : session.held variableName = some value) (htype : value.OfType context name)
    (buffer : Buffer) :
    (value.write context buffer).left.size = buffer.size ∧
      (∀ index, (value.write context buffer).left[index]? ≠ buffer[index]? →
        value.offset.toNat ≤ index ∧ index < value.offset.toNat + size.toNat ∧
        ∃ leaf ∈ value.leaves, leaf.content.isSome = true ∧ leaf.Covers context index) ∧
      (value.offset.toNat + size.toNat ≤ buffer.size → ∀ start width length,
        (value.write context buffer).outcome ≠ .error (.bufferTooSmall start width length)) := by
  have hsound := Session.sound_of_cleanRun hrun hheld
  have hconfined : Value.Confined context value.leaves value.offset.toNat
      (value.offset.toNat + size.toNat) buffer (value.write context buffer) :=
    Value.confined_write hsound htype hclosed hsize
  obtain ⟨part, hpart, hinside, hwritten⟩ := hconfined.written
  refine ⟨Value.size_of_writesAll hwritten, fun index hindex => ?_, hconfined.hasRoom⟩
  obtain ⟨leaf, hleaf, hcontent, hcovers⟩ := Value.exists_covers_of_writesAll hwritten hindex
  obtain ⟨codec, hcodec, hlow, hhigh⟩ := id hcovers
  obtain ⟨hstart, hstop⟩ := hinside leaf hleaf codec hcodec
  exact ⟨by omega, by omega, leaf, hpart hleaf, hcontent, hcovers⟩

theorem write_inside_window_frame :
    ∃ session, Session.CleanRun (.start frameContext) session ∧
      session.held "frame" = some (.frameValue 0) ∧
      (∀ index, ((Value.frameValue 0).write frameContext (.replicate 20 7)).left[index]? ≠
        (Array.replicate 20 7 : Buffer)[index]? → index < 16) ∧
      ∀ start width length, ((Value.frameValue 0).write frameContext (.replicate 20 7)).outcome ≠
        .error (.bufferTooSmall start width length) := by
  obtain ⟨session, hrun, -, hheld⟩ := Session.cleanRun_frame
  have hsize : frameContext.sizeOf "frame" = .ok 16 := by rfl
  have hclosed : frameContext.Throughout TypeRecord.Closed "frame" :=
    throughout_frame (by decide) (by decide)
  have htype : (Value.frameValue 0).OfType frameContext "frame" := ⟨_, rfl, .refl _⟩
  obtain ⟨-, hbytes, hroom⟩ :=
    write_inside_window hsize hclosed hrun hheld htype (.replicate 20 7)
  refine ⟨session, hrun, hheld, fun index hindex => ?_, hroom (by decide)⟩
  obtain ⟨-, hlt, -⟩ := hbytes index hindex
  exact hlt

end Context

end BinarySchema
