import BinarySchema.Proofs.Layout.Depth
import BinarySchema.Proofs.Session
import BinarySchema.Proofs.Value.Apart
import BinarySchema.Proofs.Value.Descent

/-!
# Reading what was written

A value of a type whose parts leave their sizes to their contents is found again after it has been
written, part for part and place for place, with each scalar as its codec keeps it.
-/

namespace BinarySchema

namespace Value

variable {context : Context} {written : Buffer}

/-- The active slot of a union is the one that a read would choose. -/
def FirstActiveHere : Value → Prop
  | .union record _ (some (name, _)) => record.slots.head?.map (·.name) = some name
  | _ => True

/-- The same types, slots, active slots, numbers of elements and offsets throughout, with scalars as
their codecs keep them. -/
inductive Corresponds (context : Context) : Value → Value → Prop
  | scalar {record other : TypeRecord} {offset : UInt64} {stored : Scalar} {codec : ScalarCodec}
      {word : Nat} (hsame : record.Same other) (hcodec : context.scalarCodec record = .ok codec)
      (hword : codec.encoding.encode? stored = some word)
      (hrestores : codec.encoding.Restores stored (codec.encoding.decode word)) :
      Corresponds context (.scalar record offset (some stored))
        (.scalar other offset (some (codec.encoding.decode word)))
  | struct {record other : TypeRecord} {offset : UInt64} {parts children : List Value}
      (hsame : record.Same other) (hparts : List.Forall₂ (Corresponds context) parts children) :
      Corresponds context (.struct record offset (parts.map some))
        (.struct other offset (children.map some))
  | union {record other : TypeRecord} {offset : UInt64} {name : String} {part child : Value}
      (hsame : record.Same other) (hpart : Corresponds context part child) :
      Corresponds context (.union record offset (some (name, part)))
        (.union other offset (some (name, child)))
  | array {record other : TypeRecord} {offset : UInt64} {items children : List Value}
      (hsame : record.Same other) (hitems : List.Forall₂ (Corresponds context) items children) :
      Corresponds context (.array record offset items) (.array other offset children)

/-! ## Pairs of parts and what is read -/

private theorem forall₂_of_pairs {R : Value → Value → Prop} {pairs : List (Value × Value)}
    (h : ∀ pair ∈ pairs, R pair.1 pair.2) :
    List.Forall₂ R (pairs.map Prod.fst) (pairs.map Prod.snd) := by
  rw [List.forall₂_map_left_iff, List.forall₂_map_right_iff, List.forall₂_same]
  exact h

private theorem forall₂_snd {R : Value → Value → Prop} {parts : List Value}
    {pairs : List (Value × Value)} (hlength : pairs.length = parts.length)
    (h : ∀ (index : Nat) (part : Value) (pair : Value × Value), parts[index]? = some part →
      pairs[index]? = some pair → R part pair.2) : List.Forall₂ R parts (pairs.map Prod.snd) := by
  rw [List.forall₂_map_right_iff]
  exact forall₂_of_getElem? hlength.symm h

/-! ## Reading back -/

/-- Every part of a value is read back from where it lies. -/
private def PartsReadBack (context : Context) (written : Buffer) (budget : Nat)
    (record : TypeRecord) (value : Value) : Prop :=
  ∀ (child : Value) (part : String) (width : UInt64), child ∈ value.children →
    part ∈ record.references → context.partSize budget part = .ok width →
    child.OfType context part →
    ∃ pair : Value × Value, FreshPart context part child.offset pair.1 ∧
      readWithin context written budget pair.1 = some (.done pair.2) ∧
      Corresponds context child pair.2

section

variable {budget : Nat} {record other : TypeRecord} {offset size : UInt64}

private theorem readBack_scalar {content : Option Scalar} (hsame : record.Same other)
    (hstored : Leaf.Stored context written ⟨record, offset, content⟩) :
    ∃ back, readWithin context written (budget + 1) (.scalar other offset none) =
        some (.done back) ∧ Corresponds context (.scalar record offset content) back := by
  obtain ⟨codec, stored, word, hcodec, rfl, hword, hread⟩ := hstored
  refine ⟨.scalar other offset (some (codec.encoding.decode word)), ?_,
    .scalar hsame hcodec hword (Encoding.restores_decode hword)⟩
  simp only [readWithin, readScalar, ← hsame.scalarCodec_eq, hcodec, hread]

private theorem readBack_slot {slots : List (Option Value)} {placements : List Placement}
    (hsame : record.Same other)
    (hparts : PartsReadBack context written budget other (.struct record offset slots))
    (hsound : (Value.struct record offset slots).Sound context)
    (hplaced : placeSlots other.packed (context.partSize budget) 0 other.slots = .ok placements)
    (hplacements : context.slotPlacements other = .ok placements) {index : Nat} {child : Value}
    (hchild : slots[index]? = some (some child)) :
    ∃ pair : Value × Value,
      (∃ slot placement start, other.slots[index]? = some slot ∧
        placements[index]? = some placement ∧ addOffset offset placement.offset = .ok start ∧
        FreshPart context slot.typeName start pair.1) ∧
      readWithin context written budget pair.1 = some (.done pair.2) ∧
      Corresponds context child pair.2 := by
  have hkind : other.kind = .struct := hsame.kind_eq ▸ hsound.shaped.here.1
  obtain ⟨slot, placement, hslot, hplacement, htype, hoffset⟩ :=
    hsound.slot (hsame.slotPlacements_eq.trans hplacements) hchild
  rw [hsame.slots_eq] at hslot
  obtain ⟨pair, hfresh, hread, hback⟩ := hparts child slot.typeName placement.size
    (mem_children_struct.mpr (List.mem_of_getElem? hchild))
    (TypeRecord.typeName_mem_references (.inl hkind) (List.mem_of_getElem? hslot))
    (placeSlots_size hplaced hslot hplacement) htype
  exact ⟨pair, ⟨slot, placement, child.offset, hslot, hplacement, addOffset_eq_ok_iff.mpr hoffset,
    hfresh⟩, hread, hback⟩

private theorem readBack_struct {slots : List (Option Value)} {placements : List Placement}
    (hsame : record.Same other)
    (hparts : PartsReadBack context written budget other (.struct record offset slots))
    (hsound : (Value.struct record offset slots).Sound context) (hcomplete : none ∉ slots)
    (hplaced : placeSlots other.packed (context.partSize budget) 0 other.slots = .ok placements)
    (hplacements : context.slotPlacements other = .ok placements) :
    ∃ back, readWithin context written (budget + 1)
        (.struct other offset (other.slots.map fun _ => none)) = some (.done back) ∧
      Corresponds context (.struct record offset slots) back := by
  obtain ⟨parts, rfl⟩ := exists_map_some hcomplete
  have hcount : parts.length = other.slots.length := by
    have hslots : (parts.map some).length = record.slots.length := hsound.shaped.here.2
    rwa [List.length_map, hsame.slots_eq] at hslots
  -- one blank part and what is read into it for every slot
  have hpair : ∀ index < parts.length, ∃ pair : Value × Value,
      (∃ slot placement start, other.slots[index]? = some slot ∧
        placements[index]? = some placement ∧ addOffset offset placement.offset = .ok start ∧
        FreshPart context slot.typeName start pair.1) ∧
      readWithin context written budget pair.1 = some (.done pair.2) ∧
      ∀ part, parts[index]? = some part → Corresponds context part pair.2 := by
    intro index hindex
    have hpart := List.getElem?_eq_getElem hindex
    have hentry : (parts.map some)[index]? = some (some parts[index]) := by simp [hpart]
    obtain ⟨pair, hfresh, hread, hback⟩ :=
      readBack_slot hsame hparts hsound hplaced hplacements hentry
    refine ⟨pair, hfresh, hread, fun part hpart' => ?_⟩
    cases hpart.symm.trans hpart'
    exact hback
  obtain ⟨pairs, hlength, hpairs⟩ := exists_list_of_forall hpair
  have hslotParts : SlotParts context other offset placements (pairs.map Prod.fst) := by
    refine ⟨hplacements, by rw [List.length_map, hlength, hcount], fun index fresh hfresh => ?_⟩
    rw [List.getElem?_map, Option.map_eq_some_iff] at hfresh
    obtain ⟨pair, hpair, rfl⟩ := hfresh
    exact (hpairs index pair hpair).1
  have hread : ∀ pair ∈ pairs, readWithin context written budget pair.1 = some (.done pair.2) := by
    intro pair hpair
    obtain ⟨index, hindex⟩ := List.getElem?_of_mem hpair
    exact (hpairs index pair hindex).2.1
  refine ⟨.struct other offset ((pairs.map Prod.snd).map some), ?_, .struct hsame ?_⟩
  · exact readWithin_of_readStep ⟨hsame.kind_eq ▸ hsound.shaped.here.1, List.length_map _⟩
      (.struct hslotParts (forall₂_of_pairs hread))
  · exact forall₂_snd hlength fun index part pair hpart hpair =>
      (hpairs index pair hpair).2.2 part hpart

private theorem readBack_active {name : String} {child : Value} (hsame : record.Same other)
    (hparts : PartsReadBack context written budget other
      (.union record offset (some (name, child))))
    (hsound : (Value.union record offset (some (name, child))).Sound context)
    (hfirst : (Value.union record offset (some (name, child))).FirstActiveHere)
    (hwidest : widestSlot (context.partSize budget) 0 other.slots = .ok size) :
    ∃ back, readWithin context written (budget + 1) (.union other offset none) =
        some (.done back) ∧
      Corresponds context (.union record offset (some (name, child))) back := by
  have hkind : other.kind = .union := hsame.kind_eq ▸ hsound.shaped.here.1
  have hplaced : child.offset = offset := hsound.placed.here
  obtain ⟨slot, hslot, htype⟩ := hsound.typed.here
  simp only [FirstActiveHere, hsame.slots_eq] at hfirst
  cases hslots : other.slots with
  | nil => simp [hslots] at hfirst
  | cons head rest =>
      rw [hslots, List.head?_cons, Option.map_some, Option.some.injEq] at hfirst
      subst hfirst
      have hhead : slot = head := by
        simp only [TypeRecord.slot?, hsame.slots_eq, hslots, List.find?_cons, beq_self_eq_true,
          Option.some.injEq] at hslot
        exact hslot.symm
      subst hhead
      have hmem : slot ∈ other.slots := by simp [hslots]
      obtain ⟨width, hwidth, -⟩ := size_le_widestSlot hwidest slot hmem
      obtain ⟨pair, hfresh, hread, hback⟩ := hparts child slot.typeName width (by simp)
        (TypeRecord.typeName_mem_references (.inr hkind) hmem) hwidth htype
      rw [hplaced] at hfresh
      exact ⟨.union other offset (some (slot.name, pair.2)),
        readWithin_of_readStep hkind (.first hslots hfresh hread), .union hsame hback⟩

private theorem readBack_array {items : List Value} {length stride : UInt64} {name : String}
    (hsame : record.Same other)
    (hparts : PartsReadBack context written budget other (.array record offset items))
    (hsound : (Value.array record offset items).Sound context)
    (hcomplete : (Value.array record offset items).CompleteHere)
    (hlength : other.length = some length) (hlimit : length ≤ context.limits.elements)
    (helement : other.element = some name) (hstride : context.partSize budget name = .ok stride)
    (hsizeOf : context.sizeOf name = .ok stride) :
    ∃ back, readWithin context written (budget + 1) (.array other offset []) =
        some (.done back) ∧ Corresponds context (.array record offset items) back := by
  have hkind : other.kind = .array := hsame.kind_eq ▸ hsound.shaped.here
  have hcount : items.length = length.toNat := hcomplete length (hsame.length_eq.trans hlength)
  have hread : readLength context other = .ok length := by
    unfold readLength
    simp only [hlength]
    exact if_neg (UInt64.not_lt.mpr hlimit)
  have hpairs : ∀ index < items.length, ∃ pair : Value × Value,
      (∃ start, elementOffset offset index stride = .ok start ∧
        FreshPart context name start pair.1) ∧
      readWithin context written budget pair.1 = some (.done pair.2) ∧
      ∀ item, items[index]? = some item → Corresponds context item pair.2 := by
    intro index hindex
    have hitem := List.getElem?_eq_getElem hindex
    have hmem := List.mem_of_getElem? hitem
    obtain ⟨htype, hoffset⟩ := hsound.item (hsame.element_eq.trans helement) hsizeOf hitem
    obtain ⟨pair, hfresh, hread, hback⟩ := hparts _ name stride hmem
      (TypeRecord.element_mem_references hkind helement) hstride htype
    refine ⟨pair, ⟨_, elementOffset_eq_ok_iff.mpr hoffset, hfresh⟩, hread, fun item hitem' => ?_⟩
    cases hitem.symm.trans hitem'
    exact hback
  obtain ⟨pairs, hsize, hpairs⟩ := exists_list_of_forall hpairs
  have hfresh : ∀ index part, (pairs.map Prod.fst)[index]? = some part →
      ∃ start, elementOffset offset index stride = .ok start ∧ FreshPart context name start part := by
    intro index part hpart
    rw [List.getElem?_map, Option.map_eq_some_iff] at hpart
    obtain ⟨pair, hpair, rfl⟩ := hpart
    exact (hpairs index pair hpair).1
  have hitems : ∀ pair ∈ pairs, readWithin context written budget pair.1 = some (.done pair.2) := by
    intro pair hpair
    obtain ⟨index, hindex⟩ := List.getElem?_of_mem hpair
    exact (hpairs index pair hindex).2.1
  have hnumber : (pairs.map Prod.fst).length = length.toNat := by
    rw [List.length_map, hsize, hcount]
  refine ⟨.array other offset (pairs.map Prod.snd), ?_, .array hsame ?_⟩
  · exact readWithin_of_readStep hkind
      (.array hread helement hsizeOf hnumber hfresh (forall₂_of_pairs hitems))
  · exact forall₂_snd hsize fun index item pair hitem hpair =>
      (hpairs index pair hpair).2.2 item hitem

end

/-- A blank value of a sized type, read where a value of the type was stored, becomes that value
again. -/
theorem readBack {budget : Nat} {name : String} {record : TypeRecord} {size : UInt64}
    {value : Value} (hbudget : budget ≤ context.limits.depth + 1)
    (hresolve : context.resolve? name = some record) (hsame : value.record.Same record)
    (hregular : context.Throughout (TypeRecord.Regular context.limits.elements) name)
    (hsize : context.sizeWithin budget record = .ok size) (hsound : value.Sound context)
    (hcomplete : value.Complete) (hfirst : value.Everywhere FirstActiveHere)
    (hstored : ∀ leaf ∈ value.leaves, leaf.Stored context written) :
    ∃ back, readWithin context written budget (blank record value.offset) = some (.done back) ∧
      Corresponds context value back := by
  -- on the budget of the size, which every level of the read takes down by one as well
  induction budget generalizing name record size value with
  | zero => simp [Context.sizeWithin] at hsize
  | succ budget ih =>
      have hdepth : budget ≤ context.limits.depth := by omega
      have hsizeOf : ∀ {part : String} {width : UInt64}, context.partSize budget part = .ok width →
          context.sizeOf part = .ok width :=
        fun h => Context.sizeOf_of_partSize (Context.partSize_mono hdepth h)
      obtain ⟨hcontents, hlengths⟩ := hregular.here hresolve
      have hparts : PartsReadBack context written budget record value := by
        intro child part width hchild hreference hwidth htype
        obtain ⟨found, hfound, hrecord⟩ := htype
        obtain ⟨other, hother, hwidthOther⟩ := Context.partSize_eq_ok_iff.mp hwidth
        cases hfound.symm.trans hother
        have hchildRegular := hregular.reference hresolve hreference
        have hconst : found.kind ≠ .const := by
          rw [← hrecord.kind_eq]
          exact kind_ne_const_of_shaped (hsound.shaped.inside child hchild)
        obtain ⟨back, hread, hback⟩ := ih (by omega) hfound hrecord hchildRegular hwidthOther
          (hsound.inside hchild) (hcomplete.inside child hchild) (hfirst.inside child hchild)
          fun leaf hleaf => hstored leaf (leaves_subset hchild hleaf)
        exact ⟨(blank found child.offset, back), freshPart_of_sized hfound hconst
          (hchildRegular.here hfound).1 (hsizeOf hwidth) child.offset, hread, hback⟩
      have hkind := hsame.kind_eq
      cases value with
      | scalar own offset content =>
          have hscalar : record.kind.isScalar = true := hkind ▸ hsound.shaped.here
          simp only [Value.offset, blank_of_isScalar hscalar]
          exact readBack_scalar hsame (hstored _ (by simp [leaves]))
      | struct own offset slots =>
          have hrecord : record.kind = .struct := hkind ▸ hsound.shaped.here.1
          have hsized := hcontents.sizedByParts (by simp [hrecord, Kind.isComposite]) hsize
          obtain ⟨placements, hplaced, -⟩ := hsized.of_struct hrecord
          simp only [Value.offset, blank, hrecord]
          exact readBack_struct hsame hparts hsound hcomplete.here hplaced
            (placeSlots_mono (fun _ _ _ => Context.partSize_mono hdepth) hplaced)
      | union own offset active =>
          cases active with
          | none => exact absurd hcomplete.here (by simp [CompleteHere])
          | some entry =>
              obtain ⟨name, child⟩ := entry
              have hrecord : record.kind = .union := hkind ▸ hsound.shaped.here.1
              have hsized := hcontents.sizedByParts (by simp [hrecord, Kind.isComposite]) hsize
              simp only [Value.offset, blank, hrecord]
              exact readBack_active hsame hparts hsound hfirst.here (hsized.of_union hrecord)
      | array own offset items =>
          have hrecord : record.kind = .array := hkind ▸ hsound.shaped.here
          have hsized := hcontents.sizedByParts (by simp [hrecord, Kind.isComposite]) hsize
          obtain ⟨length, hlength, hlimit⟩ := hlengths hrecord
          obtain ⟨part, stride, helement, hstride, -⟩ := hsized.of_array hrecord hlength
          simp only [Value.offset, blank, hrecord]
          exact readBack_array hsame hparts hsound hcomplete.here hlength hlimit helement hstride
            (hsizeOf hstride)

/-- A complete value of a sized type, stored in a buffer leaf by leaf, is read back from there. -/
theorem read_of_stored {name : String} {size : UInt64} {value : Value}
    (hsize : context.sizeOf name = .ok size)
    (hregular : context.Throughout (TypeRecord.Regular context.limits.elements) name)
    (htype : value.OfType context name) (hsound : value.Sound context)
    (hcomplete : value.Complete) (hfirst : value.Everywhere FirstActiveHere)
    (hstored : ∀ leaf ∈ value.leaves, leaf.Stored context written) :
    ∃ back, context.read name written value.offset = some (.ok back) ∧
      Corresponds context value back := by
  obtain ⟨record, hresolve, hsame⟩ := htype
  have hkind : record.kind ≠ .const := hsame.kind_eq ▸ kind_ne_const_of_shaped hsound.shaped
  obtain ⟨budget, hfuel, hbudget, hrecord⟩ := Context.exists_budget hresolve hsize
  obtain ⟨back, hread, hback⟩ :=
    readBack hbudget hresolve hsame hregular hrecord hsound hcomplete hfirst hstored
  have hpart := freshPart_of_sized hresolve hkind (hregular.here hresolve).1 hsize value.offset
  refine ⟨back, ?_, hback⟩
  rw [read_eq_of_freshPart_blank hpart, readWithin_mono hfuel hread]
  rfl

end Value

/-! ## Named types -/

namespace Context

variable {context : Context} {name : String} {size : UInt64} {value : Value}
  {buffer written : Buffer}

/-- A value of a sized type, made by a clean run and written to a buffer, is read back from there.
The types leave their sizes to their contents, the arrays have known lengths, and the active slots
are those that a read chooses. -/
theorem read_of_write {session : Session} {variableName : String}
    (hsize : context.sizeOf name = .ok size)
    (hcontents : context.Throughout TypeRecord.SizedByContents name)
    (hlengths : context.Throughout (TypeRecord.LengthWithin context.limits.elements) name)
    (hrun : Session.CleanRun (.start context) session)
    (hheld : session.held variableName = some value) (htype : value.OfType context name)
    (hfirst : value.Everywhere Value.FirstActiveHere)
    (hwrite : value.write context buffer = .done written) :
    ∃ back, context.read name written value.offset = some (.ok back) ∧
      Value.Corresponds context value back := by
  have hsound := Session.sound_of_cleanRun hrun hheld
  have hregular : context.Throughout (TypeRecord.Regular context.limits.elements) name :=
    hcontents.and hlengths
  obtain ⟨hcomplete, hleaves⟩ := (Value.write_eq_done_iff hsound.shaped).mp hwrite
  have hapart := (Value.leavesApart_of_sound hsound hcomplete htype
    (hregular.imp fun _ => TypeRecord.Regular.closed) hsize).apart
  have hstored : ∀ leaf ∈ value.leaves, leaf.Stored context written :=
    fun leaf hleaf => (Value.encoded_of_writesAll hleaves hapart leaf hleaf).stored
  exact Value.read_of_stored hsize hregular htype hsound hcomplete hfirst hstored

theorem read_of_write_frame :
    ∃ session written back, Session.CleanRun (.start frameContext) session ∧
      session.held "frame" = some (.frameValue 0) ∧
      (Value.frameValue 0).write frameContext (.replicate 18 0) = .done written ∧
      frameContext.read "frame" written 0 = some (.ok back) ∧
      Value.Corresponds frameContext (.frameValue 0) back := by
  obtain ⟨session, hrun, -, hheld⟩ := Session.cleanRun_frame
  have hsize : frameContext.sizeOf "frame" = .ok 16 := by rfl
  have htype : (Value.frameValue 0).OfType frameContext "frame" := ⟨_, rfl, .refl _⟩
  have hfirst : (Value.frameValue 0).Everywhere Value.FirstActiveHere := by
    have hscalar : ∀ record offset content,
        (Value.scalar record offset content).Everywhere Value.FirstActiveHere :=
      fun _ _ _ => .node trivial (by simp)
    refine .node trivial fun child hchild => ?_
    rw [Value.frameValue, Value.mem_children_struct] at hchild
    simp only [List.mem_cons, Option.some.injEq, List.not_mem_nil, or_false] at hchild
    rcases hchild with rfl | rfl | rfl
    · exact hscalar ..
    · exact .node rfl (by simpa using hscalar ..)
    · exact .node trivial (by simp [hscalar])
  have houtcome : ((Value.frameValue 0).write frameContext (.replicate 18 0)).outcome = .ok () := by
    rfl
  have hwrite := Update.eq_done houtcome
  obtain ⟨back, hread, hback⟩ := read_of_write hsize (throughout_frame (by decide) (by decide))
    (throughout_frame (by decide) (by decide)) hrun hheld htype hfirst hwrite
  exact ⟨session, _, back, hrun, hheld, hwrite, hread, hback⟩

end Context

end BinarySchema
