import BinarySchema.Proofs.Session
import BinarySchema.Proofs.Value.Apart

/-!
# Open tails

The elements of an array without a length lie outside the range of every type around it, since the
array counts as empty there.  As long as such an array comes last, be it the last slot of a last
slot, nothing follows that its elements could run into.
-/

namespace BinarySchema

/-- A closed type, an open array of closed elements, or a struct that ends in such a type. -/
inductive Context.TailOpen (context : Context) : String → Prop
  | closed {name : String} (hclosed : context.Throughout TypeRecord.Closed name) :
      TailOpen context name
  | array {name element : String} {record : TypeRecord}
      (hresolve : context.resolve? name = some record) (hkind : record.kind = .array)
      (hnone : record.size = none) (hlength : record.length = none)
      (helement : record.element = some element)
      (hclosed : context.Throughout TypeRecord.Closed element) : TailOpen context name
  | struct {name : String} {record : TypeRecord} {front : List Slot} {last : Slot}
      (hresolve : context.resolve? name = some record) (hkind : record.kind = .struct)
      (hnone : record.size = none) (hslots : record.slots = front ++ [last])
      (hfront : ∀ slot ∈ front, context.Throughout TypeRecord.Closed slot.typeName)
      (hlast : TailOpen context last.typeName) : TailOpen context name

namespace Value

variable {context : Context} {value : Value} {name : String} {size : UInt64}

private theorem leavesApart_openArray {record : TypeRecord} {offset : UInt64} {items : List Value}
    (hsound : (Value.array record offset items).Sound context)
    (hcomplete : (Value.array record offset items).Complete) (helement : record.element = some name)
    (hclosed : context.Throughout TypeRecord.Closed name) :
    ∃ stop, LeavesApart context (.array record offset items) offset.toNat stop := by
  cases items with
  | nil => exact ⟨0, by simp [leaves, itemLeaves], by simp [leaves, itemLeaves]⟩
  | cons first rest =>
      -- the place of the first element tells that there is a stride
      obtain ⟨found, stride, hfound, hstride, -⟩ := hsound.placed.here 0 first rfl
      cases helement.symm.trans hfound
      refine ⟨_, leavesApart_array hsound helement hstride fun item hmem => ?_⟩
      obtain ⟨index, hitem⟩ := List.getElem?_of_mem hmem
      obtain ⟨htype, -⟩ := hsound.item helement hstride hitem
      exact leavesApart_of_sound (hsound.inside hmem) (hcomplete.inside item hmem) htype hclosed
        hstride

/-- The front of a struct lies in the range of its type; the last slot starts behind it and may end
anywhere. -/
private theorem leavesApart_tail {record : TypeRecord} {offset : UInt64} {parts : List Value}
    {placements : List Placement} {front : List Slot} {last : Slot}
    (hsound : (Value.struct record offset (parts.map some)).Sound context)
    (hcomplete : (Value.struct record offset (parts.map some)).Complete)
    (hplacements : context.slotPlacements record = .ok placements)
    (hends : ∀ placement ∈ placements, placement.stop ≤ size.toNat)
    (hslots : record.slots = front ++ [last])
    (hfront : ∀ slot ∈ front, context.Throughout TypeRecord.Closed slot.typeName)
    (hlast : ∀ part ∈ parts, part.OfType context last.typeName →
      (∃ width, context.sizeOf last.typeName = .ok width) →
      ∃ stop, LeavesApart context part part.offset.toNat stop) :
    ∃ stop, LeavesApart context (.struct record offset (parts.map some)) offset.toNat stop := by
  have hcount : parts.length = front.length + 1 := by
    have hlength : (parts.map some).length = record.slots.length := hsound.shaped.here.2
    simpa [hslots] using hlength
  obtain ⟨tail, htail⟩ : ∃ tail, parts[front.length]? = some tail :=
    ⟨_, List.getElem?_eq_getElem (by omega)⟩
  have hentry : (parts.map some)[front.length]? = some (some tail) := by simp [htail]
  obtain ⟨slot, placement, hslot, hplacement, htype, -⟩ := hsound.slot hplacements hentry
  have hsize := Context.slotPlacements_size hplacements hslot hplacement
  obtain rfl : slot = last := by simpa [hslots, eq_comm] using hslot
  obtain ⟨stop, happart⟩ := hlast tail (List.mem_of_getElem? htail) htype ⟨_, hsize⟩
  refine ⟨max (offset.toNat + size.toNat) stop, leavesApart_struct hsound hplacements
    fun index part other place hpart hother hplace htype hoffset => ?_⟩
  rcases Nat.lt_or_ge index front.length with hlt | hge
  · have hclosed := hfront other (List.mem_of_getElem? (by
      rwa [hslots, List.getElem?_append_left hlt] at hother))
    have hmem : part ∈ (Value.struct record offset (parts.map some)).children :=
      mem_children_struct.mpr (List.mem_map_of_mem (List.mem_of_getElem? hpart))
    have happart := leavesApart_of_sound (hsound.inside hmem) (hcomplete.inside part hmem) htype
      hclosed (Context.slotPlacements_size hplacements hother hplace)
    have hend := hends place (List.mem_of_getElem? hplace)
    exact slotEnds_of_size happart hoffset (by omega)
  · have hindex := (List.getElem?_eq_some_iff.mp hpart).1
    obtain rfl : index = front.length := by omega
    cases htail.symm.trans hpart
    exact ⟨stop, Nat.le_max_right _ _, happart, fun hlt => by simp [hslots] at hlt⟩

/-- The leaves of a complete value of such a type are apart, wherever they end. -/
theorem exists_leavesApart_of_tailOpen (htail : context.TailOpen name)
    (hsound : value.Sound context) (hcomplete : value.Complete) (htype : value.OfType context name)
    (hsize : context.sizeOf name = .ok size) :
    ∃ stop, LeavesApart context value value.offset.toNat stop := by
  induction htail generalizing value size with
  | closed hclosed => exact ⟨_, leavesApart_of_sound hsound hcomplete htype hclosed hsize⟩
  | array hresolve hkind _ _ helement hclosed =>
      obtain ⟨other, hother, hsame⟩ := htype
      cases hresolve.symm.trans hother
      obtain ⟨own, offset, items, rfl⟩ :=
        exists_eq_array hsound.shaped.here (hsame.kind_eq.trans hkind)
      exact leavesApart_openArray hsound hcomplete (hsame.element_eq.trans helement) hclosed
  | @struct name record front last hresolve hkind hnone hslots hfront _ ih =>
      obtain ⟨other, hother, hsame⟩ := htype
      cases hresolve.symm.trans hother
      obtain ⟨own, offset, slots, rfl⟩ :=
        exists_eq_struct hsound.shaped.here (hsame.kind_eq.trans hkind)
      obtain ⟨found, hfound, hrecord⟩ := Context.sizeOf_eq_ok_iff.mp hsize
      cases hresolve.symm.trans hfound
      obtain ⟨placements, hplacements, hends⟩ :=
        Context.placements_of_sizeOfRecord hkind hnone hrecord
      rw [← hsame.slotPlacements_eq] at hplacements
      obtain ⟨parts, rfl⟩ := exists_map_some hcomplete.here
      refine leavesApart_tail hsound hcomplete hplacements hends (hsame.slots_eq.trans hslots)
        hfront fun part hpart htype hsized => ?_
      have hmem : part ∈ (Value.struct own offset (parts.map some)).children :=
        mem_children_struct.mpr (List.mem_map_of_mem hpart)
      obtain ⟨width, hwidth⟩ := hsized
      exact ih (hsound.inside hmem) (hcomplete.inside part hmem) htype hwidth

end Value

namespace Context

variable {context : Context} {name : String} {size : UInt64} {value : Value}
  {buffer written : Buffer}

/-- After a successful write of a value with at most an open tail, no two of its scalars share a
byte and each is in the buffer as its codec encodes it. -/
theorem encoded_of_write {session : Session} {variableName : String}
    (htail : context.TailOpen name) (hsize : context.sizeOf name = .ok size)
    (hrun : Session.CleanRun (.start context) session)
    (hheld : session.held variableName = some value) (htype : value.OfType context name)
    (hwrite : value.write context buffer = .done written) :
    value.leaves.Pairwise (Value.Leaf.Apart context) ∧
      ∀ leaf ∈ value.leaves, leaf.Encoded context written := by
  have hsound := Session.sound_of_cleanRun hrun hheld
  obtain ⟨hcomplete, hleaves⟩ := (Value.write_eq_done_iff hsound.shaped).mp hwrite
  obtain ⟨stop, happart⟩ :=
    Value.exists_leavesApart_of_tailOpen htail hsound hcomplete htype hsize
  exact ⟨happart.apart, Value.encoded_of_writesAll hleaves happart.apart⟩

/-! ### A packet that ends in an open array -/

def packetRecords : List TypeRecord :=
  [.base "byte" 1 .unsigned, .base "word" 2 .unsigned,
    .struct "packet" [⟨"count", "byte"⟩, ⟨"words", "word[]"⟩]]

def packetContext : Context :=
  .ofRecords packetRecords .arm {}

def packetValue : Value :=
  let word := fun offset content =>
    Value.scalar (.base "word" 2 .unsigned) offset (some (.uint content))
  .struct (.struct "packet" [⟨"count", "byte"⟩, ⟨"words", "word[]"⟩]) 0
    [some (.scalar (.base "byte" 1 .unsigned) 0 (some (.uint 2))),
      some (.array (.array "word[]" "word" none) 1 [word 1 513, word 3 1027])]

def packetMaterial : Input :=
  .fields [("count", .scalar (.uint 2)),
    ("words", .items [.scalar (.uint 513), .scalar (.uint 1027)])]

theorem tailOpen_packet : packetContext.TailOpen "packet" := by
  have hscalar : ∀ {name : String} {record : TypeRecord},
      packetContext.resolve? name = some record → record.Closed → record.references = [] →
      packetContext.Throughout TypeRecord.Closed name := by
    intro name record hresolve hclosed hnone
    refine throughout_of_references (fun found h => ?_) fun found h part hpart => ?_
    · cases hresolve.symm.trans h
      exact hclosed
    · cases hresolve.symm.trans h
      rw [hnone] at hpart
      contradiction
  have hbyte := hscalar (rfl : packetContext.resolve? "byte" = _) (by decide) rfl
  have hword := hscalar (rfl : packetContext.resolve? "word" = _) (by decide) rfl
  have hwords : packetContext.TailOpen "word[]" := .array rfl rfl rfl rfl rfl hword
  have hfront : ∀ slot ∈ [(⟨"count", "byte"⟩ : Slot)],
      packetContext.Throughout TypeRecord.Closed slot.typeName := by
    simpa using hbyte
  have hslots : ([⟨"count", "byte"⟩, ⟨"words", "word[]"⟩] : List Slot) =
      [⟨"count", "byte"⟩] ++ [⟨"words", "word[]"⟩] := rfl
  exact .struct rfl rfl rfl hslots hfront hwords

theorem encoded_of_write_packet :
    ∃ session written, Session.CleanRun (.start packetContext) session ∧
      session.held "packet" = some packetValue ∧
      packetValue.write packetContext (.replicate 5 0) = .done written ∧
      packetValue.leaves.Pairwise (Value.Leaf.Apart packetContext) ∧
      ∀ leaf ∈ packetValue.leaves, leaf.Encoded packetContext written := by
  have hwrap : Value.wrap packetContext packetValue.record packetMaterial = .ok packetValue := rfl
  obtain ⟨session, hrun, -, hheld⟩ := Session.cleanRun_wrap rfl hwrap "packet"
  have hsize : packetContext.sizeOf "packet" = .ok 1 := by rfl
  have htype : packetValue.OfType packetContext "packet" := ⟨_, rfl, .refl _⟩
  have houtcome : (packetValue.write packetContext (.replicate 5 0)).outcome = .ok () := by rfl
  have hwrite := Update.eq_done houtcome
  obtain ⟨hapart, hencoded⟩ := encoded_of_write tailOpen_packet hsize hrun hheld htype hwrite
  exact ⟨session, _, hrun, hheld, hwrite, hapart, hencoded⟩

end Context

end BinarySchema
