import BinarySchema.Proofs.Codec
import BinarySchema.Proofs.Layout.Depth
import BinarySchema.Proofs.Value.Descent

/-!
# The window of a read

A type whose parts leave their sizes to their contents is read within the range that its size spans:
the bytes there are enough, and no others are looked at.
-/

namespace BinarySchema

/-! ## Outcomes that do not blame the buffer -/

/-- A failure, if there is one, is not about the buffer. -/
def SparesBuffer {α : Type} (outcome : Except Error α) : Prop :=
  ∀ failure, outcome = .error failure → failure.category ≠ .buffer

theorem sparesBuffer_ok {α : Type} (a : α) : SparesBuffer (.ok a : Except Error α) := by
  intro failure h
  contradiction

theorem sparesBuffer_error {α : Type} {failure : Error} (h : failure.category ≠ .buffer) :
    SparesBuffer (.error failure : Except Error α) := by
  intro other hother
  cases hother
  exact h

/-- Two runs both have an answer, the same one, and it does not blame the buffer. -/
def Alike {α : Type} (first second : Option (Update α)) : Prop :=
  ∃ update, first = some update ∧ second = some update ∧ SparesBuffer update.outcome

theorem Alike.within {α β : Type} {first second : Option (Update α)} (h : Alike first second)
    (embed : α → β) :
    Alike (first.map (Update.within embed)) (second.map (Update.within embed)) := by
  obtain ⟨update, rfl, rfl, hspares⟩ := h
  exact ⟨update.within embed, rfl, rfl, hspares⟩

namespace Value

variable {context : Context} {first second : Buffer}

theorem sparesBuffer_create (name : String) : SparesBuffer (context.create name) := by
  unfold Context.create Context.require
  cases context.resolve? name with
  | none => exact sparesBuffer_error (by simp [Error.category])
  | some record =>
      dsimp only
      unfold empty
      split
      all_goals first
        | exact sparesBuffer_ok _
        | exact sparesBuffer_error (by simp [Error.category])

theorem sparesBuffer_scalarCodec (record : TypeRecord) :
    SparesBuffer (context.scalarCodec record) := by
  unfold Context.scalarCodec
  split
  · exact sparesBuffer_error (by simp [Error.category])
  · split
    · exact sparesBuffer_error (by simp [Error.category])
    · dsimp only
      split
      · exact sparesBuffer_ok _
      · exact sparesBuffer_error (by simp [Error.category])

theorem sparesBuffer_readLength (context : Context) (record : TypeRecord) :
    SparesBuffer (readLength context record) := by
  unfold readLength
  split
  · exact sparesBuffer_error (by simp [Error.category])
  · split
    · exact sparesBuffer_error (by simp [Error.category])
    · exact sparesBuffer_ok _

private theorem sparesBuffer_freshSlots (context : Context) (slots : List Slot)
    (entries : List (Option Value)) :
    SparesBuffer (freshSlots context slots entries).outcome := by
  induction slots generalizing entries with
  | nil => cases entries <;> exact sparesBuffer_ok ()
  | cons slot slots ih =>
      cases entries with
      | nil => exact sparesBuffer_ok ()
      | cons old rest =>
          unfold freshSlots
          split
          · exact ih rest
          · rename_i failure hcreate
            exact sparesBuffer_error (sparesBuffer_create slot.typeName failure hcreate)

/-! ## Lists of parts -/

section Lists

variable {step more : Value → Option (Update Value)}

private theorem alike_readSlots {parts : List Value}
    (hparts : ∀ part ∈ parts, Alike (step part) (more part)) :
    Alike (readSlots step (parts.map some)) (readSlots more (parts.map some)) := by
  induction parts with
  | nil => exact ⟨_, rfl, rfl, sparesBuffer_ok ()⟩
  | cons part rest ih =>
      obtain ⟨⟨read, outcome⟩, hfirst, hsecond, hspares⟩ := hparts part (.head _)
      obtain ⟨others, hothers, hothers', hspares'⟩ :=
        ih fun other hmem => hparts other (.tail _ hmem)
      simp only [List.map_cons, readSlots, hfirst, hsecond, hothers, hothers']
      cases outcome with
      | error failure => exact ⟨_, rfl, rfl, hspares⟩
      | ok _ => exact ⟨_, rfl, rfl, hspares'⟩

private theorem alike_readItems {make : Nat → Except Error Value} {count : Nat} (number : Nat)
    (hmake : ∀ index, index < number + count → SparesBuffer (make index))
    (hstep : ∀ index part, index < number + count → make index = .ok part →
      Alike (step part) (more part)) :
    Alike (readItems step make count number) (readItems more make count number) := by
  induction count generalizing number with
  | zero => exact ⟨_, rfl, rfl, sparesBuffer_ok ()⟩
  | succ count ih =>
      obtain ⟨others, hothers, hothers', hspares'⟩ := ih (number + 1)
        (fun index hlt => hmake index (by omega)) fun index part hlt => hstep index part (by omega)
      unfold readItems
      cases hpart : make number with
      | error failure =>
          exact ⟨_, rfl, rfl, sparesBuffer_error (hmake number (by omega) failure hpart)⟩
      | ok part =>
          obtain ⟨⟨read, outcome⟩, hfirst, hsecond, hspares⟩ := hstep number part (by omega) hpart
          simp only [hfirst, hsecond, hothers, hothers']
          cases outcome with
          | error failure => exact ⟨_, rfl, rfl, hspares⟩
          | ok _ => exact ⟨_, rfl, rfl, hspares'⟩

end Lists

/-! ## Blank values -/

variable {budget : Nat} {name : String} {record : TypeRecord} {offset size : UInt64}

theorem freshPart_of_create {fresh : Value} (hcreate : context.create name = .ok fresh)
    (hcontents : context.Throughout TypeRecord.SizedByContents name)
    (hsize : context.sizeOf name = .ok size) (start : UInt64) :
    ∃ part, FreshPart context name start part := by
  obtain ⟨record, hresolve, hempty⟩ := create_eq_ok_iff.mp hcreate
  have hkind : record.kind ≠ .const := by
    intro hconst
    simp [empty, hconst] at hempty
  exact ⟨_, freshPart_of_sized hresolve hkind (hcontents.here hresolve) hsize start⟩

private theorem readScalar_alike (hsize : context.sizeWithin (budget + 1) record = .ok size)
    (hsame : Buffer.SameWindow first second offset.toNat size.toNat) :
    readScalar context first record offset = readScalar context second record offset ∧
      SparesBuffer (readScalar context first record offset) := by
  unfold readScalar
  cases hcodec : context.scalarCodec record with
  | error failure =>
      exact ⟨rfl, sparesBuffer_error (sparesBuffer_scalarCodec record failure hcodec)⟩
  | ok codec =>
      have hwidth := Context.width_of_scalarCodec hcodec hsize
      have hfirst : codec.fits first offset = true := by
        simpa [ScalarCodec.fits, hwidth] using hsame.fits_first
      have hsecond : codec.fits second offset = true := by
        simpa [ScalarCodec.fits, hwidth] using hsame.fits_second
      have hslice := hsame.slice_eq
      rw [← hwidth] at hslice
      simp only [ScalarCodec.read, hfirst, hsecond, if_true, hslice, true_and]
      exact sparesBuffer_ok _

private theorem alike_scalar (hsize : context.sizeWithin (budget + 1) record = .ok size)
    (hsame : Buffer.SameWindow first second offset.toNat size.toNat) :
    Alike (readWithin context first (budget + 1) (.scalar record offset none))
      (readWithin context second (budget + 1) (.scalar record offset none)) := by
  obtain ⟨hread, hspares⟩ := readScalar_alike hsize hsame
  simp only [readWithin, ← hread]
  cases hresult : readScalar context first record offset with
  | ok content => exact ⟨_, rfl, rfl, sparesBuffer_ok ()⟩
  | error failure => exact ⟨_, rfl, rfl, sparesBuffer_error (hspares failure hresult)⟩

/-- Every blank part of a record that lies in the range of the record is read alike. -/
private structure PartsAlike (context : Context) (first second : Buffer) (budget : Nat)
    (record : TypeRecord) (offset size : UInt64) : Prop where
  fresh : ∀ {part : String} {width : UInt64} {value : Value}, part ∈ record.references →
    context.partSize budget part = .ok width → context.create part = .ok value →
    ∀ start, ∃ value, FreshPart context part start value
  read : ∀ {part : String} {width start : UInt64} {value : Value}, part ∈ record.references →
    context.partSize budget part = .ok width → FreshPart context part start value →
    offset.toNat ≤ start.toNat → start.toNat + width.toNat ≤ offset.toNat + size.toNat →
    Alike (readWithin context first budget value) (readWithin context second budget value)

private theorem alike_struct (hparts : PartsAlike context first second budget record offset size)
    (hkind : record.kind = .struct) {placements : List Placement}
    (hplaced : placeSlots record.packed (context.partSize budget) 0 record.slots = .ok placements)
    (hplacements : context.slotPlacements record = .ok placements)
    (hstop : slotsEnd placements = .ok size)
    (hword : offset.toNat + size.toNat < UInt64.size) {slots : List (Option Value)}
    (hlength : slots.length = record.slots.length) :
    Alike (readWithin context first (budget + 1) (.struct record offset slots))
      (readWithin context second (budget + 1) (.struct record offset slots)) := by
  have hends := stop_le_slotsEnd (placeSlots_pairwise hplaced) hstop
  have hmem : ∀ {index : Nat} {slot : Slot}, record.slots[index]? = some slot →
      slot.typeName ∈ record.references :=
    fun h => TypeRecord.typeName_mem_references (.inl hkind) (List.mem_of_getElem? h)
  generalize hfresh : freshSlots context record.slots slots = fresh
  obtain ⟨left, outcome⟩ := fresh
  cases outcome with
  | error failure =>
      have hspares := sparesBuffer_freshSlots context record.slots slots
      rw [hfresh] at hspares
      simp only [readWithin, hfresh]
      exact ⟨_, rfl, rfl, hspares⟩
  | ok _ =>
      obtain ⟨created, -, hcreated⟩ := freshSlots_eq_done hlength hfresh
      obtain ⟨parts, hslotParts⟩ := exists_slotParts hplacements offset
        fun index slot placement hslot hplacement => by
          obtain ⟨value, -, hvalue⟩ := exists_getElem?_of_forall₂ hcreated.flip hslot
          have hend := hends placement (List.mem_of_getElem? hplacement)
          simp only [Placement.stop] at hend
          obtain ⟨part, hpart⟩ := hparts.fresh (hmem hslot)
            (placeSlots_size hplaced hslot hplacement) hvalue (offset + placement.offset)
          exact ⟨_, part, addOffset_of_lt (by omega), hpart⟩
      rw [readWithin_struct hlength hslotParts, readWithin_struct hlength hslotParts]
      refine Alike.within (alike_readSlots fun part hpart => ?_) _
      obtain ⟨index, hindex⟩ := List.getElem?_of_mem hpart
      obtain ⟨slot, placement, start, hslot, hplacement, hstart, hpart⟩ :=
        hslotParts.fresh index part hindex
      have hend := hends placement (List.mem_of_getElem? hplacement)
      rw [addOffset_eq_ok_iff] at hstart
      simp only [Placement.stop] at hend
      exact hparts.read (hmem hslot) (placeSlots_size hplaced hslot hplacement) hpart
        (by omega) (by omega)

private theorem alike_union (hparts : PartsAlike context first second budget record offset size)
    (hkind : record.kind = .union)
    (hwidest : widestSlot (context.partSize budget) 0 record.slots = .ok size) :
    Alike (readWithin context first (budget + 1) (.union record offset none))
      (readWithin context second (budget + 1) (.union record offset none)) := by
  cases hslots : record.slots with
  | nil =>
      simp only [readWithin, hslots]
      exact ⟨_, rfl, rfl, sparesBuffer_error (by simp [Error.category])⟩
  | cons slot rest =>
      have hmem : slot ∈ record.slots := by simp [hslots]
      have hreference := TypeRecord.typeName_mem_references (.inr hkind) hmem
      obtain ⟨width, hwidth, hle⟩ := size_le_widestSlot hwidest slot hmem
      cases hcreate : context.create slot.typeName with
      | error failure =>
          simp only [readWithin, hslots, hcreate]
          exact ⟨_, rfl, rfl, sparesBuffer_error (sparesBuffer_create _ failure hcreate)⟩
      | ok value =>
          obtain ⟨part, hpart⟩ := hparts.fresh hreference hwidth hcreate offset
          rw [readWithin_first hslots hpart, readWithin_first hslots hpart]
          exact Alike.within (hparts.read hreference hwidth hpart (Nat.le_refl _) (by omega)) _

private theorem alike_array (hparts : PartsAlike context first second budget record offset size)
    (hkind : record.kind = .array) {length stride : UInt64} {name : String}
    (hlength : record.length = some length) (helement : record.element = some name)
    (hstride : context.partSize budget name = .ok stride)
    (hsizeOf : context.sizeOf name = .ok stride)
    (hsize : size.toNat = length.toNat * stride.toNat)
    (hword : offset.toNat + size.toNat < UInt64.size) (items : List Value) :
    Alike (readWithin context first (budget + 1) (.array record offset items))
      (readWithin context second (budget + 1) (.array record offset items)) := by
  have hreference := TypeRecord.element_mem_references hkind helement
  have hspares := sparesBuffer_readLength context record
  cases hread : readLength context record with
  | error failure =>
      simp only [readWithin, hread, error_bind]
      exact ⟨_, rfl, rfl, sparesBuffer_error (hspares failure hread)⟩
  | ok count =>
      have hcount : count = length := by
        unfold readLength at hread
        simp only [hlength] at hread
        split at hread
        · contradiction
        · exact (Except.ok.inj hread).symm
      have hroom : ∀ {index : Nat}, index < count.toNat →
          index * stride.toNat + stride.toNat ≤ size.toNat := by
        intro index hindex
        rw [hsize, ← hcount, ← Nat.succ_mul]
        exact Nat.mul_le_mul_right _ hindex
      rw [readWithin_array hread helement hsizeOf, readWithin_array hread helement hsizeOf]
      refine Alike.within (alike_readItems 0 ?_ ?_) _
      · intro index hindex
        have hend := hroom (by omega : index < count.toNat)
        cases hcreate : context.create name with
        | error failure =>
            simp only [freshElement, hcreate, error_bind]
            exact sparesBuffer_error (sparesBuffer_create _ failure hcreate)
        | ok value =>
            obtain ⟨start, hstart⟩ : ∃ start, elementOffset offset index stride = .ok start := by
              refine ⟨UInt64.ofNat (offset.toNat + index * stride.toNat), ?_⟩
              rw [elementOffset_eq_ok_iff, UInt64.toNat_ofNat_of_lt' (by omega)]
            obtain ⟨part, hpart⟩ := hparts.fresh hreference hstride hcreate start
            rw [freshElement_eq_ok_iff.mpr ⟨start, hstart, hpart⟩]
            exact sparesBuffer_ok _
      · intro index part hindex hmake
        have hend := hroom (by omega : index < count.toNat)
        obtain ⟨start, hstart, hpart⟩ := freshElement_eq_ok_iff.mp hmake
        rw [elementOffset_eq_ok_iff] at hstart
        exact hparts.read hreference hstride hpart (by omega) (by omega)

theorem alike_blank (hbudget : budget ≤ context.limits.depth + 1)
    (hresolve : context.resolve? name = some record) (hkind : record.kind ≠ .const)
    (hcontents : context.Throughout TypeRecord.SizedByContents name)
    (hsize : context.sizeWithin budget record = .ok size)
    (hword : offset.toNat + size.toNat < UInt64.size)
    (hsame : Buffer.SameWindow first second offset.toNat size.toNat) :
    Alike (readWithin context first budget (blank record offset))
      (readWithin context second budget (blank record offset)) := by
  induction budget generalizing name record offset size with
  | zero => simp [Context.sizeWithin] at hsize
  | succ budget ih =>
      have hdepth : budget ≤ context.limits.depth := by omega
      have hsizeOf : ∀ {part : String} {width : UInt64}, context.partSize budget part = .ok width →
          context.sizeOf part = .ok width :=
        fun h => Context.sizeOf_of_partSize (Context.partSize_mono hdepth h)
      have hnone := hcontents.here hresolve
      have hparts : PartsAlike context first second budget record offset size := by
        constructor
        · intro part width value hmem hwidth hcreate
          exact freshPart_of_create hcreate (hcontents.reference hresolve hmem) (hsizeOf hwidth)
        · intro part width start value hmem hwidth hfresh hstart hstop
          obtain ⟨other, hother, hconst, rfl⟩ := hfresh.eq_blank
          obtain ⟨found, hfound, hsize⟩ := Context.partSize_eq_ok_iff.mp hwidth
          cases hother.symm.trans hfound
          exact ih (by omega) hother hconst (hcontents.reference hresolve hmem) hsize (by omega)
            (hsame.inside hstart hstop)
      cases hrecord : record.kind with
      | const => exact absurd hrecord hkind
      | base | alien =>
          simp only [blank, hrecord]
          exact alike_scalar hsize hsame
      | struct =>
          have hsized := hnone.sizedByParts (by simp [hrecord, Kind.isComposite]) hsize
          obtain ⟨placements, hplaced, hstop⟩ := hsized.of_struct hrecord
          simp only [blank, hrecord]
          exact alike_struct hparts hrecord hplaced
            (placeSlots_mono (fun _ _ _ => Context.partSize_mono hdepth) hplaced) hstop hword
            (List.length_map _)
      | union =>
          have hsized := hnone.sizedByParts (by simp [hrecord, Kind.isComposite]) hsize
          simp only [blank, hrecord]
          exact alike_union hparts hrecord (hsized.of_union hrecord)
      | array =>
          have hsized := hnone.sizedByParts (by simp [hrecord, Kind.isComposite]) hsize
          simp only [blank, hrecord]
          cases hlength : record.length with
          | none =>
              simp only [readWithin, readLength, hlength, error_bind]
              exact ⟨_, rfl, rfl, sparesBuffer_error (by simp [Error.category])⟩
          | some length =>
              obtain ⟨part, stride, helement, hstride, htotal⟩ := hsized.of_array hrecord hlength
              exact alike_array hparts hrecord hlength helement hstride (hsizeOf hstride) htotal
                hword []

end Value

/-! ## Named types -/

namespace Context

variable {context : Context} {name : String} {offset size : UInt64}

private theorem read_alike {first second : Buffer} (hsize : context.sizeOf name = .ok size)
    (hcontents : context.Throughout TypeRecord.SizedByContents name)
    (hword : offset.toNat + size.toNat < UInt64.size)
    (hsame : Buffer.SameWindow first second offset.toNat size.toNat) :
    ∃ outcome, context.read name first offset = some outcome ∧
      context.read name second offset = some outcome ∧ SparesBuffer outcome := by
  cases hcreate : context.create name with
  | error failure =>
      simp only [read, hcreate, error_bind]
      exact ⟨_, rfl, rfl, sparesBuffer_error (Value.sparesBuffer_create name failure hcreate)⟩
  | ok fresh =>
      obtain ⟨part, hpart⟩ := Value.freshPart_of_create hcreate hcontents hsize offset
      obtain ⟨record, hresolve, hkind, rfl⟩ := hpart.eq_blank
      obtain ⟨budget, hfuel, hbudget, hfound⟩ := exists_budget hresolve hsize
      obtain ⟨update, hfirst, hsecond, hspares⟩ :=
        Value.alike_blank hbudget hresolve hkind hcontents hfound hword hsame
      refine ⟨update.result, ?_, ?_, fun failure h => ?_⟩
      · rw [Value.read_eq_of_freshPart_blank hpart, Value.readWithin_mono hfuel hfirst]
        rfl
      · rw [Value.read_eq_of_freshPart_blank hpart, Value.readWithin_mono hfuel hsecond]
        rfl
      · exact hspares failure (Update.result_eq_error_iff.mp h)

/-- A buffer that contains the range of a type is large enough to read the type there, and bytes
outside of the range do not influence the result.  The length of a buffer is a word, as it is in
memory. -/
theorem read_inside_window (hsize : context.sizeOf name = .ok size)
    (hcontents : context.Throughout TypeRecord.SizedByContents name) (offset : UInt64) :
    (∀ buffer : Buffer, offset.toNat + size.toNat ≤ buffer.size → buffer.size < UInt64.size →
      ∃ outcome, context.read name buffer offset = some outcome ∧
        ∀ failure, outcome = .error failure → failure.category ≠ .buffer) ∧
    ∀ first second : Buffer, first.size < UInt64.size → second.size < UInt64.size →
      offset.toNat + size.toNat ≤ first.size → offset.toNat + size.toNat ≤ second.size →
      (∀ index, offset.toNat ≤ index → index < offset.toNat + size.toNat →
        first[index]? = second[index]?) →
      context.read name first offset = context.read name second offset := by
  constructor
  · intro buffer hfits hword
    obtain ⟨outcome, houtcome, -, hspares⟩ :=
      read_alike hsize hcontents (by omega) (.refl hfits)
    exact ⟨outcome, houtcome, hspares⟩
  · intro first second hword _ hfirst hsecond hbytes
    obtain ⟨outcome, hfirst, hsecond, -⟩ :=
      read_alike hsize hcontents (by omega) ⟨hfirst, hsecond, hbytes⟩
    exact hfirst.trans hsecond.symm

theorem read_inside_window_frame :
    frameContext.sizeOf "frame" = .ok 16 ∧
      frameContext.Throughout TypeRecord.SizedByContents "frame" ∧
      (∃ outcome, frameContext.read "frame" (.replicate 20 1) 3 = some outcome ∧
        ∀ failure, outcome = .error failure → failure.category ≠ .buffer) ∧
      frameContext.read "frame" (.replicate 20 1) 3 =
        frameContext.read "frame" ((Array.replicate 20 1).setIfInBounds 0 9) 3 := by
  have hsize : frameContext.sizeOf "frame" = .ok 16 := by rfl
  have hcontents : frameContext.Throughout TypeRecord.SizedByContents "frame" :=
    throughout_frame (by decide) (by decide)
  obtain ⟨henough, hsame⟩ := read_inside_window hsize hcontents 3
  refine ⟨hsize, hcontents, henough _ (by decide) (by decide), ?_⟩
  refine hsame _ _ (by decide) (by decide) (by decide) (by decide) fun index hlow _ => ?_
  rw [Array.getElem?_setIfInBounds_ne]
  intro hzero
  subst hzero
  contradiction

end Context

end BinarySchema
