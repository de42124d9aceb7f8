import BinarySchema.Proofs.Value.Sound
import BinarySchema.Proofs.Value.Writing

/-!
# Leaves apart

In a complete value of a type whose parts leave their sizes to their contents, every leaf lies in the
range of the type and no two leaves share a byte.  So after a successful write each leaf is found in
the buffer as it was stored.
-/

namespace BinarySchema

namespace Value

variable {context : Context}

/-! ## Ranges of leaves -/

def Leaf.Inside (context : Context) (leaf : Leaf) (start stop : Nat) : Prop :=
  ∀ codec, context.scalarCodec leaf.record = .ok codec →
    start ≤ leaf.offset.toNat ∧ leaf.offset.toNat + codec.width ≤ stop

/-- One leaf ends before the other starts. -/
def Leaf.Apart (context : Context) (first second : Leaf) : Prop :=
  ∀ codec other, context.scalarCodec first.record = .ok codec →
    context.scalarCodec second.record = .ok other →
    first.offset.toNat + codec.width ≤ second.offset.toNat ∨
      second.offset.toNat + other.width ≤ first.offset.toNat

theorem Leaf.Inside.mono {leaf : Leaf} {start stop low high : Nat}
    (h : leaf.Inside context start stop) (hlow : low ≤ start) (hhigh : stop ≤ high) :
    leaf.Inside context low high := by
  intro codec hcodec
  obtain ⟨hstart, hstop⟩ := h codec hcodec
  exact ⟨Nat.le_trans hlow hstart, Nat.le_trans hstop hhigh⟩

theorem Leaf.apart_of_inside {first second : Leaf} {start middle next stop : Nat}
    (hfirst : first.Inside context start middle) (hsecond : second.Inside context next stop)
    (hle : middle ≤ next) : first.Apart context second := by
  intro codec other hcodec hother
  have hends := (hfirst codec hcodec).2
  have hstarts := (hsecond other hother).1
  exact .inl (by omega)

/-- A scalar takes up as many bytes as its type says. -/
theorem Leaf.inside_of_sizeOfRecord {record : TypeRecord} {size : UInt64}
    (hsize : context.sizeOfRecord record = .ok size) {offset : UInt64} {content : Option Scalar} :
    Leaf.Inside context ⟨record, offset, content⟩ offset.toNat (offset.toNat + size.toNat) := by
  intro codec hcodec
  rw [Context.width_of_scalarCodec hcodec hsize]
  exact ⟨Nat.le_refl _, Nat.le_refl _⟩

/-- The leaves of a value lie between two places, each apart from the others. -/
structure LeavesApart (context : Context) (value : Value) (start stop : Nat) : Prop where
  inside : ∀ leaf ∈ value.leaves, leaf.Inside context start stop
  apart : value.leaves.Pairwise (Leaf.Apart context)

theorem LeavesApart.mono {value : Value} {start stop low high : Nat}
    (h : LeavesApart context value start stop) (hlow : low ≤ start) (hhigh : stop ≤ high) :
    LeavesApart context value low high :=
  ⟨fun leaf hleaf => (h.inside leaf hleaf).mono hlow hhigh, h.apart⟩

/-- The parts of a range keep all their leaves apart when some place lies between every two. -/
private theorem leavesApart_of_parts {value : Value} {parts : List Value} {start stop : Nat}
    (hleaves : value.leaves = parts.flatMap leaves)
    (hparts : ∀ part ∈ parts, LeavesApart context part start stop)
    (hbetween : ∀ (index next : Nat) (part other : Value), index < next →
      parts[index]? = some part → parts[next]? = some other →
      ∃ place, LeavesApart context part start place ∧ LeavesApart context other place stop) :
    LeavesApart context value start stop := by
  constructor
  · intro leaf hleaf
    rw [hleaves] at hleaf
    obtain ⟨part, hpart, hleaf⟩ := List.mem_flatMap.mp hleaf
    exact (hparts part hpart).inside leaf hleaf
  · rw [hleaves, List.pairwise_flatMap]
    refine ⟨fun part hpart => (hparts part hpart).apart, ?_⟩
    rw [List.pairwise_iff_getElem]
    intro index next hindex hnext hlt first hfirst second hsecond
    obtain ⟨place, hpart, hother⟩ := hbetween index next _ _ hlt (List.getElem?_eq_getElem hindex)
      (List.getElem?_eq_getElem hnext)
    exact Leaf.apart_of_inside (hpart.inside first hfirst) (hother.inside second hsecond)
      (Nat.le_refl _)

/-! ## Leaves of sized types -/

section

variable {size : UInt64} {name : String}

theorem OfType.closed {value : Value} (htype : value.OfType context name)
    (hclosed : context.Throughout TypeRecord.Closed name) (hsize : context.sizeOf name = .ok size) :
    context.sizeOfRecord value.record = .ok size ∧ value.record.Closed ∧
      ∀ part ∈ value.record.references, context.Throughout TypeRecord.Closed part := by
  obtain ⟨record, hresolve, hsame⟩ := htype
  obtain ⟨other, hother, hrecord⟩ := Context.sizeOf_eq_ok_iff.mp hsize
  cases hresolve.symm.trans hother
  refine ⟨hsame.sizeOfRecord_eq.trans hrecord, hsame.closed_iff.mpr (hclosed.here hresolve), ?_⟩
  intro part hpart
  exact hclosed.reference hresolve (hsame.references_eq ▸ hpart)

/-- The leaves of a slot end where the slot does, those of the last slot where they may. -/
def SlotEnds (context : Context) (record : TypeRecord) (offset : UInt64) (stop : Nat) (index : Nat)
    (placement : Placement) (part : Value) : Prop :=
  ∃ high ≤ stop, LeavesApart context part part.offset.toNat high ∧
    (index + 1 < record.slots.length → high ≤ offset.toNat + placement.stop)

theorem slotEnds_of_size {record : TypeRecord} {offset : UInt64} {stop index : Nat}
    {placement : Placement} {part : Value}
    (happart : LeavesApart context part part.offset.toNat
      (part.offset.toNat + placement.size.toNat))
    (hoffset : part.offset.toNat = offset.toNat + placement.offset.toNat)
    (hstop : offset.toNat + placement.stop ≤ stop) :
    SlotEnds context record offset stop index placement part := by
  have hend : part.offset.toNat + placement.size.toNat = offset.toNat + placement.stop := by
    rw [hoffset, Placement.stop, Nat.add_assoc]
  exact ⟨_, hend ▸ hstop, happart, fun _ => Nat.le_of_eq hend⟩

/-- Slots whose leaves end before the next slot begins keep them apart. -/
theorem leavesApart_struct {record : TypeRecord} {offset : UInt64} {parts : List Value}
    {placements : List Placement} {stop : Nat}
    (hsound : (Value.struct record offset (parts.map some)).Sound context)
    (hplacements : context.slotPlacements record = .ok placements)
    (hparts : ∀ (index : Nat) (part : Value) (slot : Slot) (placement : Placement),
      parts[index]? = some part → record.slots[index]? = some slot →
      placements[index]? = some placement → part.OfType context slot.typeName →
      part.offset.toNat = offset.toNat + placement.offset.toNat →
      SlotEnds context record offset stop index placement part) :
    LeavesApart context (.struct record offset (parts.map some)) offset.toNat stop := by
  have hordered := List.pairwise_iff_getElem.mp (Context.slotPlacements_pairwise hplacements)
  have hends : ∀ (index : Nat) (part : Value), parts[index]? = some part →
      ∃ placement, placements[index]? = some placement ∧
        part.offset.toNat = offset.toNat + placement.offset.toNat ∧
        SlotEnds context record offset stop index placement part := by
    intro index part hpart
    have hentry : (parts.map some)[index]? = some (some part) := by simp [hpart]
    obtain ⟨slot, placement, hslot, hplacement, htype, hoffset⟩ := hsound.slot hplacements hentry
    exact ⟨placement, hplacement, hoffset,
      hparts index part slot placement hpart hslot hplacement htype hoffset⟩
  refine leavesApart_of_parts (leaves_struct_map_some record offset parts) (fun part hmem => ?_)
    fun index next part other hlt hpart hother => ?_
  · obtain ⟨index, hpart⟩ := List.getElem?_of_mem hmem
    obtain ⟨placement, -, hoffset, high, hhigh, happart, -⟩ := hends index part hpart
    exact happart.mono (hoffset ▸ Nat.le_add_right _ _) hhigh
  · obtain ⟨placement, hplacement, hoffset, high, -, happart, hend⟩ := hends index part hpart
    obtain ⟨following, hfollowing, hnext, last, hlast, hothers, -⟩ := hends next other hother
    obtain ⟨hindex, rfl⟩ := List.getElem?_eq_some_iff.mp hplacement
    obtain ⟨hbound, rfl⟩ := List.getElem?_eq_some_iff.mp hfollowing
    have hbefore := hordered index next hindex hbound hlt
    have hcount := Context.length_slotPlacements hplacements
    have hhigh := hend (by omega)
    exact ⟨other.offset.toNat, happart.mono (by omega) (by omega),
      hothers.mono (Nat.le_refl _) hlast⟩

/-- Elements whose leaves keep to the stride keep them apart. -/
theorem leavesApart_array {record : TypeRecord} {offset stride : UInt64} {items : List Value}
    {name : String} (hsound : (Value.array record offset items).Sound context)
    (helement : record.element = some name) (hstride : context.sizeOf name = .ok stride)
    (hitems : ∀ item ∈ items,
      LeavesApart context item item.offset.toNat (item.offset.toNat + stride.toNat)) :
    LeavesApart context (.array record offset items) offset.toNat
      (offset.toNat + items.length * stride.toNat) := by
  have hends : ∀ (index : Nat) (item : Value), items[index]? = some item →
      item.offset.toNat = offset.toNat + index * stride.toNat ∧
      item.offset.toNat + stride.toNat = offset.toNat + (index + 1) * stride.toNat := by
    intro index item hitem
    obtain ⟨-, hoffset⟩ := hsound.item helement hstride hitem
    rw [Nat.succ_mul, ← Nat.add_assoc, ← hoffset]
    exact ⟨rfl, rfl⟩
  have hrow : ∀ {index next : Nat}, index ≤ next →
      offset.toNat + index * stride.toNat ≤ offset.toNat + next * stride.toNat :=
    fun hle => Nat.add_le_add_left (Nat.mul_le_mul_right _ hle) _
  refine leavesApart_of_parts (leaves_array record offset items) (fun item hmem => ?_)
    fun index next item other hlt hitem hother => ?_
  · obtain ⟨index, hitem⟩ := List.getElem?_of_mem hmem
    obtain ⟨hstart, hend⟩ := hends index item hitem
    exact (hitems item hmem).mono (hstart ▸ Nat.le_add_right _ _)
      (hend ▸ hrow (List.getElem?_eq_some_iff.mp hitem).1)
  · obtain ⟨hstart, hend⟩ := hends index item hitem
    obtain ⟨hnext, hlast⟩ := hends next other hother
    have hbound := (List.getElem?_eq_some_iff.mp hother).1
    exact ⟨other.offset.toNat,
      (hitems item (List.mem_of_getElem? hitem)).mono (hstart ▸ Nat.le_add_right _ _)
        (hend ▸ hnext ▸ hrow hlt),
      (hitems other (List.mem_of_getElem? hother)).mono (Nat.le_refl _) (hlast ▸ hrow hbound)⟩

/-- The leaves of a complete value lie in the range of its type, each apart from the others. -/
theorem leavesApart_of_sound {value : Value} (hsound : value.Sound context)
    (hcomplete : value.Complete) (htype : value.OfType context name)
    (hclosed : context.Throughout TypeRecord.Closed name)
    (hsize : context.sizeOf name = .ok size) :
    LeavesApart context value value.offset.toNat (value.offset.toNat + size.toNat) := by
  induction value using Value.induction generalizing name size with
  | unset record offset => exact absurd hcomplete.here (by simp [CompleteHere])
  | scalar record offset content =>
      obtain ⟨hrecord, -, -⟩ := htype.closed hclosed hsize
      refine ⟨fun leaf hleaf => ?_, by simp [leaves]⟩
      exact List.mem_singleton.mp hleaf ▸ Leaf.inside_of_sizeOfRecord hrecord
  | active record offset active child ih =>
      obtain ⟨hrecord, ⟨hcontents, -⟩, hparts⟩ := htype.closed hclosed hsize
      have hkind : record.kind = .union := hsound.shaped.here.1
      obtain ⟨slot, hslot, hchild⟩ := hsound.typed.here
      have hmem := List.mem_of_find?_eq_some hslot
      obtain ⟨width, hwidth, hle⟩ := Context.slot_size_of_sizeOfRecord hkind
        (hcontents (by simp [Value.record, hkind, Kind.isComposite])) hrecord hmem
      have hleaves := ih (hsound.inside (by simp)) (hcomplete.inside child (by simp)) hchild
        (hparts _ (TypeRecord.typeName_mem_references (.inr hkind) hmem)) hwidth
      have hplaced : child.offset = offset := hsound.placed.here
      rw [hplaced] at hleaves
      exact ⟨fun leaf hleaf => (hleaves.inside leaf hleaf).mono (Nat.le_refl _)
        (Nat.add_le_add_left hle _), hleaves.apart⟩
  | struct record offset slots ih =>
      obtain ⟨hrecord, ⟨hcontents, -⟩, hparts⟩ := htype.closed hclosed hsize
      have hkind : record.kind = .struct := hsound.shaped.here.1
      obtain ⟨parts, rfl⟩ := exists_map_some hcomplete.here
      obtain ⟨placements, hplacements, hends⟩ := Context.placements_of_sizeOfRecord hkind
        (hcontents (by simp [Value.record, hkind, Kind.isComposite])) hrecord
      refine leavesApart_struct hsound hplacements
        fun index part slot placement hpart hslot hplacement htype hoffset => ?_
      have hmem : some part ∈ parts.map some := List.mem_map_of_mem (List.mem_of_getElem? hpart)
      have hchild : part ∈ (Value.struct record offset (parts.map some)).children :=
        mem_children_struct.mpr hmem
      have hreference :=
        TypeRecord.typeName_mem_references (.inl hkind) (List.mem_of_getElem? hslot)
      have happart := ih part hmem (hsound.inside hchild) (hcomplete.inside part hchild) htype
        (hparts _ hreference) (Context.slotPlacements_size hplacements hslot hplacement)
      exact slotEnds_of_size happart hoffset
        (Nat.add_le_add_left (hends placement (List.mem_of_getElem? hplacement)) _)
  | array record offset items ih =>
      obtain ⟨hrecord, hown, hparts⟩ := htype.closed hclosed hsize
      have hkind : record.kind = .array := hsound.shaped.here
      obtain ⟨length, hlength⟩ := Option.ne_none_iff_exists'.mp (hown.2 hkind)
      obtain ⟨element, stride, helement, hstride, htotal⟩ := Context.stride_of_sizeOfRecord hkind
        (hown.1 (by simp [Value.record, hkind, Kind.isComposite])) hlength hrecord
      have hcount : items.length = length.toNat := hcomplete.here length hlength
      have happart := leavesApart_array hsound helement hstride fun item hmem => by
        obtain ⟨index, hitem⟩ := List.getElem?_of_mem hmem
        obtain ⟨htype, -⟩ := hsound.item helement hstride hitem
        exact ih item hmem (hsound.inside hmem) (hcomplete.inside item hmem) htype
          (hparts element (TypeRecord.element_mem_references hkind helement)) hstride
      rw [hcount, ← htotal] at happart
      exact happart

end

/-! ## What a write leaves -/

/-- The buffer has at the place of the leaf the bytes that its codec makes of the content. -/
def Leaf.Encoded (context : Context) (buffer : Buffer) (leaf : Leaf) : Prop :=
  ∃ codec content word, context.scalarCodec leaf.record = .ok codec ∧
    leaf.content = some content ∧ codec.encoding.encode? content = some word ∧
    codec.fits buffer leaf.offset = true ∧
    buffer.slice leaf.offset.toNat codec.width = codec.bytesOf word

/-- A read at the place of the leaf gives what its codec makes of the content. -/
def Leaf.Stored (context : Context) (buffer : Buffer) (leaf : Leaf) : Prop :=
  ∃ codec content word, context.scalarCodec leaf.record = .ok codec ∧
    leaf.content = some content ∧ codec.encoding.encode? content = some word ∧
    codec.read buffer leaf.offset = .ok (codec.encoding.decode word)

theorem Leaf.Encoded.stored {leaf : Leaf} {buffer : Buffer} (h : leaf.Encoded context buffer) :
    leaf.Stored context buffer := by
  obtain ⟨codec, content, word, hcodec, hcontent, hword, hfits, hslice⟩ := h
  refine ⟨codec, content, word, hcodec, hcontent, hword, ScalarCodec.read_eq_ok_iff.mpr ⟨hfits, ?_⟩⟩
  rw [ScalarCodec.wordAt_of_slice (Encoding.encode_lt hword) hslice]

theorem Leaf.Writes.encoded {leaf : Leaf} {before after : Buffer}
    (h : leaf.Writes context before after) : leaf.Encoded context after := by
  obtain ⟨codec, content, word, hcodec, hcontent, hfits, hword, rfl⟩ := h
  exact ⟨codec, content, word, hcodec, hcontent, hword,
    ScalarCodec.slice_overwrite_bytesOf hfits word⟩

theorem Leaf.Encoded.of_writes {leaf other : Leaf} {before after : Buffer}
    (hencoded : leaf.Encoded context before) (h : other.Writes context before after)
    (hapart : leaf.Apart context other) : leaf.Encoded context after := by
  obtain ⟨codec, content, word, hcodec, hcontent, hword, hfitsLeaf, hslice⟩ := hencoded
  obtain ⟨second, stored, bytes, hsecond, -, hfits, -, rfl⟩ := h
  have hroom : other.offset.toNat + (second.bytesOf bytes).length ≤ before.size := by
    rw [ScalarCodec.length_bytesOf]
    exact ScalarCodec.fits_iff.mp hfits
  have hdisjoint : leaf.offset.toNat + codec.width ≤ other.offset.toNat ∨
      other.offset.toNat + (second.bytesOf bytes).length ≤ leaf.offset.toNat := by
    rw [ScalarCodec.length_bytesOf]
    exact hapart codec second hcodec hsecond
  refine ⟨codec, content, word, hcodec, hcontent, hword, ?_, ?_⟩
  · rw [ScalarCodec.fits_iff, Buffer.size_overwrite]
    exact ScalarCodec.fits_iff.mp hfitsLeaf
  · rw [Buffer.slice_overwrite_of_disjoint hroom hdisjoint, hslice]

private theorem Leaf.Encoded.of_writesAll {leaf : Leaf} {others : List Leaf}
    {before after : Buffer} (hencoded : leaf.Encoded context before)
    (h : WritesAll context others before after)
    (hapart : ∀ other ∈ others, leaf.Apart context other) : leaf.Encoded context after := by
  induction h with
  | nil => exact hencoded
  | cons hfirst _ ih =>
      exact ih (hencoded.of_writes hfirst (hapart _ (.head _)))
        fun other hmem => hapart other (.tail _ hmem)

/-- Leaves that are apart are all found in the buffer after they have been written. -/
theorem encoded_of_writesAll {leaves : List Leaf} {before after : Buffer}
    (h : WritesAll context leaves before after) (hapart : leaves.Pairwise (Leaf.Apart context)) :
    ∀ leaf ∈ leaves, leaf.Encoded context after := by
  induction h with
  | nil => simp
  | cons hfirst hrest ih =>
      obtain ⟨hhead, htail⟩ := List.pairwise_cons.mp hapart
      intro leaf hleaf
      rcases List.mem_cons.mp hleaf with rfl | hleaf
      · exact hfirst.encoded.of_writesAll hrest hhead
      · exact ih htail leaf hleaf

end Value

end BinarySchema
