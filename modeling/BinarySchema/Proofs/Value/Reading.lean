import BinarySchema.Proofs.Value.Sound
import BinarySchema.Value.Read

/-!
# Reading values

What one level of reading does to a value, kind by kind, in terms of what the next level does to its
parts.  From this each property of a whole read follows by induction on the levels; here, that a read
keeps types, places and shapes, and that more levels than needed change nothing.
-/

namespace BinarySchema.Value

variable {context : Context} {buffer : Buffer}

/-! ## Fresh parts -/

/-- A fresh value of a named type that has been moved to its place. -/
def FreshPart (context : Context) (name : String) (start : UInt64) (part : Value) : Prop :=
  ∃ fresh, context.create name = .ok fresh ∧ fresh.moveTo context start = .done part

theorem create_eq_ok_iff {name : String} {value : Value} :
    context.create name = .ok value ↔
      ∃ record, context.resolve? name = some record ∧ empty record = .ok value := by
  unfold Context.create
  split
  · rename_i record hrecord
    rw [Context.require_eq_ok_iff] at hrecord
    simp [hrecord]
  · rename_i failure hrecord
    constructor
    · intro h
      contradiction
    · rintro ⟨record, hresolve, -⟩
      rw [Context.require_eq_ok_iff.mpr hresolve] at hrecord
      contradiction

theorem FreshPart.sound {name : String} {start : UInt64} {part : Value}
    (h : FreshPart context name start part) : part.Sound context := by
  obtain ⟨fresh, hfresh, hmove⟩ := h
  obtain ⟨record, -, hempty⟩ := create_eq_ok_iff.mp hfresh
  have hsound : fresh.Sound context := sound_of_empty hempty
  exact sound_of_moveTo hsound.shaped hsound.typed hmove

theorem FreshPart.ofType {name : String} {start : UInt64} {part : Value}
    (h : FreshPart context name start part) : part.OfType context name := by
  obtain ⟨fresh, hfresh, hmove⟩ := h
  obtain ⟨record, hresolve, hempty⟩ := create_eq_ok_iff.mp hfresh
  exact ⟨record, hresolve, .inl ((record_of_moveTo hmove).trans (record_of_empty hempty))⟩

theorem FreshPart.offset_eq {name : String} {start : UInt64} {part : Value}
    (h : FreshPart context name start part) : part.offset = start := by
  obtain ⟨fresh, -, hmove⟩ := h
  exact offset_of_moveTo hmove

theorem freshElement_eq_ok_iff {name : String} {offset stride : UInt64} {index : Nat}
    {part : Value} :
    freshElement context name offset stride index = .ok part ↔
      ∃ start, elementOffset offset index stride = .ok start ∧
        FreshPart context name start part := by
  simp only [freshElement, bind_eq_ok_iff, Update.result_eq_ok_iff, FreshPart]
  constructor
  · rintro ⟨fresh, hfresh, start, hstart, hmove⟩
    exact ⟨start, hstart, fresh, hfresh, hmove⟩
  · rintro ⟨start, hstart, fresh, hfresh, hmove⟩
    exact ⟨fresh, hfresh, start, hstart, hmove⟩

theorem length_of_readLength {record : TypeRecord} {length : UInt64}
    (h : readLength context record = .ok length) : record.length = some length := by
  unfold readLength at h
  split at h
  · contradiction
  · rename_i declared hdeclared
    split at h
    · contradiction
    · cases h
      exact hdeclared

/-! ## Lists of parts -/

theorem freshSlots_eq_done {slots : List Slot} {entries fresh : List (Option Value)}
    (hlength : entries.length = slots.length)
    (h : freshSlots context slots entries = .done fresh) :
    ∃ parts, fresh = parts.map some ∧
      List.Forall₂ (fun slot part => context.create slot.typeName = .ok part) slots parts := by
  induction slots generalizing entries fresh with
  | nil =>
      cases List.length_eq_zero_iff.mp hlength
      cases h
      exact ⟨[], rfl, .nil⟩
  | cons slot slots ih =>
      obtain ⟨old, rest, rfl⟩ := List.exists_cons_of_length_eq_add_one hlength
      simp only [List.length_cons, Nat.add_right_cancel_iff] at hlength
      unfold freshSlots at h
      split at h
      · rename_i part hpart
        obtain ⟨others, hothers, rfl⟩ := Update.within_eq_done_iff.mp h
        obtain ⟨parts, rfl, hparts⟩ := ih hlength hothers
        exact ⟨part :: parts, rfl, .cons hpart hparts⟩
      · exact absurd h (Update.failed_ne_done _ _ _)

theorem moveSlots_map_some {offset : UInt64} {placements : List Placement} {parts : List Value}
    {moved : List (Option Value)} (hlength : parts.length = placements.length)
    (h : moveSlots context offset placements (parts.map some) = .done moved) :
    ∃ after, moved = after.map some ∧
      List.Forall₂ (fun entry part => ∃ start, addOffset offset entry.1.offset = .ok start ∧
        entry.2.moveTo context start = .done part) (placements.zip parts) after := by
  induction parts generalizing placements moved with
  | nil =>
      cases List.length_eq_zero_iff.mp hlength.symm
      cases h
      exact ⟨[], rfl, .nil⟩
  | cons part parts ih =>
      obtain ⟨placement, placements, rfl⟩ := List.exists_cons_of_length_eq_add_one hlength.symm
      simp only [List.length_cons, Nat.add_right_cancel_iff] at hlength
      simp only [List.map_cons, moveSlots] at h
      split at h
      · rename_i start hstart
        obtain ⟨first, others, hfirst, hothers, rfl⟩ := Update.followedBy_eq_done_iff.mp h
        obtain ⟨after, rfl, hafter⟩ := ih hlength hothers
        exact ⟨first :: after, rfl, .cons ⟨start, hstart, hfirst⟩ hafter⟩
      · exact absurd h (Update.failed_ne_done _ _ _)

theorem readSlots_eq_done {step : Value → Option (Update Value)} {parts : List Value}
    {read : List (Option Value)} (h : readSlots step (parts.map some) = some (.done read)) :
    ∃ children, read = children.map some ∧
      List.Forall₂ (fun part child => step part = some (.done child)) parts children := by
  induction parts generalizing read with
  | nil =>
      cases h
      exact ⟨[], rfl, .nil⟩
  | cons part parts ih =>
      simp only [List.map_cons, readSlots, bind, Option.bind_eq_some_iff] at h
      obtain ⟨⟨child, outcome⟩, hchild, hrest⟩ := h
      cases outcome with
      | error failure => simp [Update.failed, Update.done] at hrest
      | ok _ =>
          simp only [Option.bind_eq_some_iff, pure, Option.some.injEq] at hrest
          obtain ⟨others, hothers, hdone⟩ := hrest
          obtain ⟨after, rfl, rfl⟩ := Update.within_eq_done_iff.mp hdone
          obtain ⟨children, rfl, hchildren⟩ := ih hothers
          exact ⟨child :: children, rfl, .cons hchild hchildren⟩

theorem readItems_eq_done {step : Value → Option (Update Value)}
    {make : Nat → Except Error Value} {count number : Nat} {read : List Value}
    (h : readItems step make count number = some (.done read)) :
    ∃ parts, parts.length = count ∧
      (∀ index part, parts[index]? = some part → make (number + index) = .ok part) ∧
      List.Forall₂ (fun part child => step part = some (.done child)) parts read := by
  induction count generalizing number read with
  | zero =>
      cases h
      exact ⟨[], rfl, by simp, .nil⟩
  | succ count ih =>
      unfold readItems at h
      split at h
      · simp [Update.failed, Update.done] at h
      · rename_i part hpart
        simp only [bind, Option.bind_eq_some_iff] at h
        obtain ⟨⟨child, outcome⟩, hchild, hrest⟩ := h
        cases outcome with
        | error failure => simp [Update.failed, Update.done] at hrest
        | ok _ =>
            simp only [Option.bind_eq_some_iff, pure, Option.some.injEq] at hrest
            obtain ⟨others, hothers, hdone⟩ := hrest
            obtain ⟨children, rfl, rfl⟩ := Update.within_eq_done_iff.mp hdone
            obtain ⟨parts, hlength, hmake, hparts⟩ := ih hothers
            refine ⟨part :: parts, by simp [hlength], ?_, .cons hchild hparts⟩
            intro index other hother
            cases index with
            | zero =>
                cases hother
                exact hpart
            | succ index => exact (Nat.add_right_comm number 1 index) ▸ hmake index other hother

/-! ## One level -/

/-- Fresh values for the slots of a struct, each in its place. -/
structure SlotParts (context : Context) (record : TypeRecord) (offset : UInt64)
    (placements : List Placement) (parts : List Value) : Prop where
  placements_eq : context.slotPlacements record = .ok placements
  length_eq : parts.length = record.slots.length
  fresh : ∀ (index : Nat) (part : Value), parts[index]? = some part →
    ∃ slot placement start, record.slots[index]? = some slot ∧
      placements[index]? = some placement ∧ addOffset offset placement.offset = .ok start ∧
      FreshPart context slot.typeName start part

/-- One level of a read that ends well, `deeper` being the next level. -/
inductive ReadStep (context : Context) (buffer : Buffer) (deeper : Value → Value → Prop) :
    Value → Value → Prop
  | scalar {record : TypeRecord} {offset : UInt64} {old : Option Scalar} {content : Scalar}
      (hread : readScalar context buffer record offset = .ok content) :
      ReadStep context buffer deeper (.scalar record offset old)
        (.scalar record offset (some content))
  | struct {record : TypeRecord} {offset : UInt64} {slots : List (Option Value)}
      {placements : List Placement} {parts children : List Value}
      (hparts : SlotParts context record offset placements parts)
      (hread : List.Forall₂ deeper parts children) :
      ReadStep context buffer deeper (.struct record offset slots)
        (.struct record offset (children.map some))
  | first {record : TypeRecord} {offset : UInt64} {slot : Slot} {rest : List Slot}
      {part child : Value} (hslots : record.slots = slot :: rest)
      (hfresh : FreshPart context slot.typeName offset part) (hread : deeper part child) :
      ReadStep context buffer deeper (.union record offset none)
        (.union record offset (some (slot.name, child)))
  | active {record : TypeRecord} {offset : UInt64} {name : String} {part child : Value}
      (hread : deeper part child) :
      ReadStep context buffer deeper (.union record offset (some (name, part)))
        (.union record offset (some (name, child)))
  | array {record : TypeRecord} {offset length stride : UInt64} {name : String}
      {items parts children : List Value} (hlength : readLength context record = .ok length)
      (helement : record.element = some name) (hstride : context.sizeOf name = .ok stride)
      (hcount : parts.length = length.toNat)
      (hfresh : ∀ index part, parts[index]? = some part →
        ∃ start, elementOffset offset index stride = .ok start ∧ FreshPart context name start part)
      (hread : List.Forall₂ deeper parts children) :
      ReadStep context buffer deeper (.array record offset items) (.array record offset children)

/-- Fresh slots that could be placed are the parts of their struct. -/
theorem exists_slotParts_of_moved {record : TypeRecord} {offset : UInt64}
    {slots created : List (Option Value)} {left : Value}
    (hlength : slots.length = record.slots.length)
    (hfresh : freshSlots context record.slots slots = .done created)
    (hplaced : (Value.struct record offset created).moveTo context offset = .done left) :
    ∃ placements parts, left = .struct record offset (parts.map some) ∧
      SlotParts context record offset placements parts := by
  obtain ⟨created, rfl, hcreated⟩ := freshSlots_eq_done hlength hfresh
  obtain ⟨placements, moved, hplacements, hmoved, rfl⟩ := moveTo_struct_eq_done_iff.mp hplaced
  have hcount : created.length = placements.length := by
    rw [Context.length_slotPlacements hplacements, hcreated.length_eq]
  obtain ⟨parts, rfl, hparts⟩ := moveSlots_map_some hcount hmoved
  refine ⟨placements, parts, rfl, hplacements, ?_, fun index part hpart => ?_⟩
  · rw [← hparts.length_eq, List.length_zip, hcount, Nat.min_self,
      Context.length_slotPlacements hplacements]
  · obtain ⟨entry, hentry, start, hstart, hmove⟩ := exists_getElem?_of_forall₂ hparts hpart
    obtain ⟨hplacement, hfresh⟩ := List.getElem?_zip_eq_some.mp hentry
    obtain ⟨slot, hslot, hcreate⟩ := exists_getElem?_of_forall₂ hcreated hfresh
    exact ⟨slot, entry.1, start, hslot, hplacement, hstart, entry.2, hcreate, hmove⟩

/-! One level of a read fails at once or goes on to the parts. -/

theorem readWithin_struct_cases (context : Context) (buffer : Buffer) (fuel : Nat)
    {record : TypeRecord} (offset : UInt64) {slots : List (Option Value)}
    (hlength : slots.length = record.slots.length) :
    (∃ placements parts, SlotParts context record offset placements parts ∧
      readWithin context buffer (fuel + 1) (.struct record offset slots) =
        (readSlots (readWithin context buffer fuel) (parts.map some)).map
          (Update.within (.struct record offset))) ∨
      ∃ left failure, readWithin context buffer (fuel + 1) (.struct record offset slots) =
        some (.failed left failure) := by
  simp only [readWithin]
  generalize hfresh : freshSlots context record.slots slots = fresh
  obtain ⟨created, outcome⟩ := fresh
  cases outcome with
  | error failure => exact .inr ⟨_, failure, rfl⟩
  | ok _ =>
      generalize hplaced : (Value.struct record offset created).moveTo context offset = placed
      obtain ⟨left, outcome⟩ := placed
      cases outcome with
      | error failure => exact .inr ⟨left, failure, rfl⟩
      | ok _ =>
          obtain ⟨placements, parts, rfl, hparts⟩ :=
            exists_slotParts_of_moved hlength hfresh hplaced
          refine .inl ⟨placements, parts, hparts, ?_⟩
          simp only
          cases readSlots (readWithin context buffer fuel) (parts.map some) <;> rfl

theorem readWithin_first_cases (context : Context) (buffer : Buffer) (fuel : Nat)
    (record : TypeRecord) (offset : UInt64) :
    (∃ slot rest part, record.slots = slot :: rest ∧
      FreshPart context slot.typeName offset part ∧
      readWithin context buffer (fuel + 1) (.union record offset none) =
        (readWithin context buffer fuel part).map
          (Update.within fun child => .union record offset (some (slot.name, child)))) ∨
      ∃ left failure, readWithin context buffer (fuel + 1) (.union record offset none) =
        some (.failed left failure) := by
  simp only [readWithin]
  cases hslots : record.slots with
  | nil => exact .inr ⟨_, _, rfl⟩
  | cons slot rest =>
      simp only
      cases hfresh : context.create slot.typeName with
      | error failure => exact .inr ⟨_, failure, rfl⟩
      | ok fresh =>
          simp only
          generalize hplaced : fresh.moveTo context offset = placed
          obtain ⟨part, outcome⟩ := placed
          cases outcome with
          | error failure => exact .inr ⟨_, failure, rfl⟩
          | ok _ =>
              refine .inl ⟨slot, rest, part, rfl, ⟨fresh, hfresh, hplaced⟩, ?_⟩
              simp only
              cases readWithin context buffer fuel part <;> rfl

theorem readWithin_array_cases (context : Context) (buffer : Buffer) (fuel : Nat)
    (record : TypeRecord) (offset : UInt64) (items : List Value) :
    (∃ length name stride, readLength context record = .ok length ∧
      record.element = some name ∧ context.sizeOf name = .ok stride ∧
      readWithin context buffer (fuel + 1) (.array record offset items) =
        (readItems (readWithin context buffer fuel) (freshElement context name offset stride)
          length.toNat 0).map (Update.within (.array record offset))) ∨
      ∃ left failure, readWithin context buffer (fuel + 1) (.array record offset items) =
        some (.failed left failure) := by
  simp only [readWithin]
  split
  · rename_i failure _
    exact .inr ⟨_, failure, rfl⟩
  · rename_i length name stride hplan
    simp only [bind_eq_ok_iff, Context.elementName_eq_ok_iff, pure, Except.pure,
      Except.ok.injEq, Prod.mk.injEq] at hplan
    obtain ⟨_, hlength, _, helement, _, hstride, rfl, rfl, rfl⟩ := hplan
    refine .inl ⟨_, _, _, hlength, helement, hstride, ?_⟩
    cases readItems (readWithin context buffer fuel) _ _ 0 <;> rfl

theorem readStep_of_readWithin {fuel : Nat} {value after : Value} (hshaped : value.ShapedHere)
    (h : readWithin context buffer (fuel + 1) value = some (.done after)) :
    ReadStep context buffer
      (fun part child => readWithin context buffer fuel part = some (.done child)) value after := by
  match value with
  | .scalar record offset old =>
      simp only [readWithin] at h
      split at h
      · rename_i content hread
        cases h
        exact .scalar hread
      · simp [Update.failed, Update.done] at h
  | .struct record offset slots =>
      rcases readWithin_struct_cases context buffer fuel offset hshaped.2 with
        ⟨placements, parts, hparts, heq⟩ | ⟨_, _, heq⟩
      · simp only [heq, Option.map_eq_some_iff, Update.within_eq_done_iff] at h
        obtain ⟨update, hread, read, rfl, rfl⟩ := h
        obtain ⟨children, rfl, hchildren⟩ := readSlots_eq_done hread
        exact .struct hparts hchildren
      · simp [heq, Update.failed, Update.done] at h
  | .union record offset none =>
      rcases readWithin_first_cases context buffer fuel record offset with
        ⟨slot, rest, part, hslots, hfresh, heq⟩ | ⟨_, _, heq⟩
      · simp only [heq, Option.map_eq_some_iff, Update.within_eq_done_iff] at h
        obtain ⟨update, hread, child, rfl, rfl⟩ := h
        exact .first hslots hfresh hread
      · simp [heq, Update.failed, Update.done] at h
  | .union record offset (some (name, part)) =>
      simp only [readWithin, bind, Option.bind_eq_some_iff, pure, Option.some.injEq] at h
      obtain ⟨update, hread, hwithin⟩ := h
      obtain ⟨child, rfl, rfl⟩ := Update.within_eq_done_iff.mp hwithin
      exact .active hread
  | .array record offset items =>
      rcases readWithin_array_cases context buffer fuel record offset items with
        ⟨length, name, stride, hlength, helement, hstride, heq⟩ | ⟨_, _, heq⟩
      · simp only [heq, Option.map_eq_some_iff, Update.within_eq_done_iff] at h
        obtain ⟨update, hread, children, rfl, rfl⟩ := h
        obtain ⟨parts, hcount, hmake, hparts⟩ := readItems_eq_done hread
        refine .array hlength helement hstride hcount (fun index part hpart => ?_) hparts
        exact freshElement_eq_ok_iff.mp (Nat.zero_add index ▸ hmake index part hpart)
      · simp [heq, Update.failed, Update.done] at h

/-! ## Reads keep types, places and soundness -/

/-- Reading keeps the type and the place of a sound value and leaves a sound one. -/
theorem sound_of_readWithin {fuel : Nat} {value after : Value} (hsound : value.Sound context)
    (h : readWithin context buffer fuel value = some (.done after)) :
    after.Sound context ∧ after.record = value.record ∧ after.offset = value.offset := by
  induction fuel generalizing value after with
  | zero => contradiction
  | succ fuel ih =>
      have hpart : ∀ {name : String} {start : UInt64} {part child : Value},
          FreshPart context name start part →
          readWithin context buffer fuel part = some (.done child) →
          child.Sound context ∧ child.OfType context name ∧ child.offset = start := by
        intro name start part child hfresh hread
        obtain ⟨hchild, hrecord, hoffset⟩ := ih hfresh.sound hread
        obtain ⟨record, hresolve, hsame⟩ := hfresh.ofType
        exact ⟨hchild, ⟨record, hresolve, hrecord ▸ hsame⟩, hoffset.trans hfresh.offset_eq⟩
      cases readStep_of_readWithin hsound.shaped.here h with
      | scalar hread =>
          exact ⟨⟨.node hsound.shaped.here (by simp), .node trivial (by simp),
            .node trivial (by simp)⟩, rfl, rfl⟩
      | @active record offset name part child hread =>
          obtain ⟨hchild, hrecord, hoffset⟩ := ih (hsound.inside (by simp)) hread
          obtain ⟨slot, hslot, type, hresolve, hsame⟩ := hsound.typed.here
          have hplaced : part.offset = offset := hsound.placed.here
          exact ⟨sound_active hsound.shaped.here.1 hslot hchild ⟨type, hresolve, hrecord ▸ hsame⟩
            (hoffset.trans hplaced), rfl, rfl⟩
      | @first record offset slot rest part child hslots hfresh hread =>
          obtain ⟨hchild, htype, hoffset⟩ := hpart hfresh hread
          have hslot : record.slot? slot.name = some slot := by simp [TypeRecord.slot?, hslots]
          exact ⟨sound_active hsound.shaped.here hslot hchild htype hoffset, rfl, rfl⟩
      | @struct record offset slots placements parts children hparts hread =>
          refine ⟨sound_struct hsound.shaped.here.1 ?_ fun index child hchild => ?_, rfl, rfl⟩
          · rw [List.length_map, ← hread.length_eq, hparts.length_eq]
          · simp only [List.getElem?_map, Option.map_eq_some_iff, Option.some.injEq,
              exists_eq_right] at hchild
            obtain ⟨part, hindex, hstep⟩ := exists_getElem?_of_forall₂ hread hchild
            obtain ⟨slot, placement, start, hslot, hplacement, hstart, hfresh⟩ :=
              hparts.fresh index part hindex
            obtain ⟨hchild, htype, hoffset⟩ := hpart hfresh hstep
            exact ⟨hchild, ⟨slot, hslot, htype⟩, placements, placement, hparts.placements_eq,
              hplacement, hoffset ▸ addOffset_eq_ok_iff.mp hstart⟩
      | @array record offset length stride name items parts children _ helement hstride _ hfresh
          hread =>
          refine ⟨sound_array hsound.shaped.here fun index item hitem => ?_, rfl, rfl⟩
          obtain ⟨part, hindex, hstep⟩ := exists_getElem?_of_forall₂ hread hitem
          obtain ⟨start, hstart, hfresh⟩ := hfresh index part hindex
          obtain ⟨hitem, htype, hoffset⟩ := hpart hfresh hstep
          exact ⟨hitem, name, stride, helement, htype, hstride,
            hoffset ▸ elementOffset_eq_ok_iff.mp hstart⟩

theorem readWithin_of_read {name : String} {offset : UInt64} {value : Value}
    (h : context.read name buffer offset = some (.ok value)) :
    ∃ part fuel, FreshPart context name offset part ∧
      readWithin context buffer fuel part = some (.done value) := by
  unfold Context.read at h
  dsimp only at h
  split at h
  · simp at h
  · rename_i part hpart
    simp only [bind, Option.bind_eq_some_iff, pure, Option.some.injEq] at h
    obtain ⟨update, hread, hresult⟩ := h
    obtain ⟨fresh, hfresh, hmove⟩ := bind_eq_ok_iff.mp hpart
    rw [Update.result_eq_ok_iff] at hmove hresult
    exact ⟨part, _, ⟨fresh, hfresh, hmove⟩, hresult ▸ hread⟩

theorem sound_of_read {name : String} {offset : UInt64} {value : Value}
    (h : context.read name buffer offset = some (.ok value)) : value.Sound context := by
  obtain ⟨part, fuel, hfresh, hread⟩ := readWithin_of_read h
  exact (sound_of_readWithin hfresh.sound hread).1

/-! ## Reads keep shapes, also when they fail -/

theorem shaped_of_create {name : String} {value : Value} (h : context.create name = .ok value) :
    value.Shaped := by
  obtain ⟨record, -, hempty⟩ := create_eq_ok_iff.mp h
  exact shaped_of_empty hempty

private theorem left_freshSlots (slots : List Slot) {entries : List (Option Value)}
    (hentries : ∀ child, some child ∈ entries → child.Shaped) :
    (freshSlots context slots entries).left.length = entries.length ∧
      ∀ child, some child ∈ (freshSlots context slots entries).left → child.Shaped := by
  induction entries generalizing slots with
  | nil => cases slots <;> simp [freshSlots]
  | cons old rest ih =>
      cases slots with
      | nil => exact ⟨rfl, hentries⟩
      | cons slot slots =>
          unfold freshSlots
          split
          · rename_i fresh hfresh
            obtain ⟨hlength, hrest⟩ := ih slots fun child hmem => hentries child (.tail _ hmem)
            refine ⟨by simp [hlength], fun child hmem => ?_⟩
            rcases List.mem_cons.mp hmem with heq | hmem
            · cases heq
              exact shaped_of_create hfresh
            · exact hrest child hmem
          · exact ⟨rfl, hentries⟩

private theorem left_readSlots {P : Value → Prop} {step : Value → Option (Update Value)}
    {entries : List (Option Value)} {update : Update (List (Option Value))}
    (hentries : ∀ child, some child ∈ entries → P child)
    (hstep : ∀ child, some child ∈ entries → ∀ read, step child = some read → P read.left)
    (h : readSlots step entries = some update) :
    update.left.length = entries.length ∧ ∀ child, some child ∈ update.left → P child := by
  induction entries generalizing update with
  | nil =>
      cases h
      exact ⟨rfl, by simp⟩
  | cons entry rest ih =>
      have ih := fun others => @ih others (fun child hmem => hentries child (.tail _ hmem))
        fun child hmem => hstep child (.tail _ hmem)
      cases entry with
      | none =>
          simp only [readSlots, bind, Option.bind_eq_some_iff, pure, Option.some.injEq] at h
          obtain ⟨others, hothers, rfl⟩ := h
          obtain ⟨hlength, hrest⟩ := ih others hothers
          exact ⟨by simp [hlength], by simpa using hrest⟩
      | some child =>
          simp only [readSlots, bind, Option.bind_eq_some_iff] at h
          obtain ⟨⟨read, outcome⟩, hread, hrest⟩ := h
          have hfirst : P read := hstep child (.head _) _ hread
          cases outcome with
          | error failure =>
              cases hrest
              refine ⟨rfl, fun other hmem => ?_⟩
              rcases List.mem_cons.mp hmem with heq | hmem
              · cases heq
                exact hfirst
              · exact hentries other (.tail _ hmem)
          | ok _ =>
              simp only [Option.bind_eq_some_iff, pure, Option.some.injEq] at hrest
              obtain ⟨others, hothers, rfl⟩ := hrest
              obtain ⟨hlength, hrest⟩ := ih others hothers
              refine ⟨by simp [hlength], fun other hmem => ?_⟩
              rcases List.mem_cons.mp hmem with heq | hmem
              · cases heq
                exact hfirst
              · exact hrest other hmem

private theorem left_readItems {P : Value → Prop} {step : Value → Option (Update Value)}
    {make : Nat → Except Error Value} {count number : Nat} {update : Update (List Value)}
    (hstep : ∀ index part, make index = .ok part → ∀ read, step part = some read → P read.left)
    (h : readItems step make count number = some update) : ∀ item ∈ update.left, P item := by
  induction count generalizing number update with
  | zero =>
      cases h
      simp
  | succ count ih =>
      unfold readItems at h
      split at h
      · cases h
        simp
      · rename_i part hpart
        simp only [bind, Option.bind_eq_some_iff] at h
        obtain ⟨⟨read, outcome⟩, hread, hrest⟩ := h
        cases outcome with
        | error failure =>
            cases hrest
            simp
        | ok _ =>
            simp only [Option.bind_eq_some_iff, pure, Option.some.injEq] at hrest
            obtain ⟨others, hothers, rfl⟩ := hrest
            intro item hmem
            rcases List.mem_cons.mp hmem with rfl | hmem
            · exact hstep number part hpart _ hread
            · exact ih hothers item hmem

private theorem shaped_struct {record : TypeRecord} {own : UInt64}
    {slots entries : List (Option Value)} (hstruct : (Value.struct record own slots).Shaped)
    (offset : UInt64) (hlength : entries.length = slots.length)
    (hentries : ∀ child, some child ∈ entries → child.Shaped) :
    (Value.struct record offset entries).Shaped :=
  .node ⟨hstruct.here.1, hlength.trans hstruct.here.2⟩
    fun child hmem => hentries child (mem_children_struct.mp hmem)

theorem shaped_of_readWithin {fuel : Nat} {value : Value} {update : Update Value}
    (hshaped : value.Shaped) (h : readWithin context buffer fuel value = some update) :
    update.left.Shaped := by
  induction fuel generalizing value update with
  | zero => contradiction
  | succ fuel ih =>
      match value with
      | .scalar record offset content =>
          simp only [readWithin] at h
          split at h <;> cases h <;> exact .node hshaped.here (by simp)
      | .struct record offset slots =>
          obtain ⟨hlength, hfresh⟩ := left_freshSlots record.slots fun child hmem =>
            hshaped.inside child (mem_children_struct.mpr hmem)
          -- old and fresh parts may stand side by side when one could not be created
          have hstruct := shaped_struct hshaped offset hlength hfresh
          simp only [readWithin] at h
          split at h
          · cases h
            exact hstruct
          · have hplaced := hstruct.moveTo context offset
            have hrecord := record_moveTo context
              (.struct record offset (freshSlots context record.slots slots).left) offset
            split at h
            · rename_i own start parts _ hleft
              rw [hleft] at hplaced hrecord
              cases hrecord
              simp only [bind, Option.bind_eq_some_iff, pure, Option.some.injEq] at h
              obtain ⟨read, hread, rfl⟩ := h
              have hparts := fun child hmem =>
                hplaced.inside child (mem_children_struct.mpr hmem)
              obtain ⟨hcount, hchildren⟩ :=
                left_readSlots hparts (fun child hmem _ hstep => ih (hparts child hmem) hstep) hread
              exact shaped_struct hplaced _ hcount hchildren
            · cases h
              exact hplaced
      | .union record offset none =>
          simp only [readWithin] at h
          split at h
          · cases h
            exact hshaped
          · rename_i slot rest hslots
            split at h
            · cases h
              exact hshaped
            · rename_i fresh hfresh
              have hslot : record.slot? slot.name = some slot := by
                simp [TypeRecord.slot?, hslots]
              have hplaced := (shaped_of_create hfresh).moveTo context offset
              split at h
              · cases h
                exact .node ⟨hshaped.here, slot, hslot⟩ (by simpa using hplaced)
              · simp only [bind, Option.bind_eq_some_iff, pure, Option.some.injEq] at h
                obtain ⟨read, hread, rfl⟩ := h
                exact .node ⟨hshaped.here, slot, hslot⟩ (by simpa using ih hplaced hread)
      | .union record offset (some (name, child)) =>
          simp only [readWithin, bind, Option.bind_eq_some_iff, pure, Option.some.injEq] at h
          obtain ⟨read, hread, rfl⟩ := h
          exact .node hshaped.here (by simpa using ih (hshaped.inside child (by simp)) hread)
      | .array record offset items =>
          simp only [readWithin] at h
          split at h
          · cases h
            exact hshaped
          · simp only [bind, Option.bind_eq_some_iff, pure, Option.some.injEq] at h
            obtain ⟨read, hread, rfl⟩ := h
            refine .node hshaped.here fun item hmem => ?_
            refine left_readItems (fun index part hpart _ hstep => ?_) hread item hmem
            obtain ⟨start, -, hfresh⟩ := freshElement_eq_ok_iff.mp hpart
            exact ih hfresh.sound.shaped hstep

/-- Reading keeps the type of a value, also when it fails. -/
theorem record_of_readWithin {fuel : Nat} {value : Value} {update : Update Value}
    (h : readWithin context buffer fuel value = some update) :
    update.left.record = value.record := by
  cases fuel with
  | zero => contradiction
  | succ fuel =>
      match value with
      | .scalar record offset content =>
          simp only [readWithin] at h
          split at h <;> cases h <;> rfl
      | .struct record offset slots =>
          simp only [readWithin] at h
          split at h
          · cases h
            rfl
          · split at h
            · simp only [bind, Option.bind_eq_some_iff, pure, Option.some.injEq] at h
              obtain ⟨read, -, rfl⟩ := h
              rfl
            · cases h
              exact record_moveTo ..
      | .union record offset none =>
          simp only [readWithin] at h
          split at h
          · cases h
            rfl
          · split at h
            · cases h
              rfl
            · split at h
              · cases h
                rfl
              · simp only [bind, Option.bind_eq_some_iff, pure, Option.some.injEq] at h
                obtain ⟨read, -, rfl⟩ := h
                rfl
      | .union record offset (some (name, child)) =>
          simp only [readWithin, bind, Option.bind_eq_some_iff, pure, Option.some.injEq] at h
          obtain ⟨read, -, rfl⟩ := h
          rfl
      | .array record offset items =>
          simp only [readWithin] at h
          split at h
          · cases h
            rfl
          · simp only [bind, Option.bind_eq_some_iff, pure, Option.some.injEq] at h
            obtain ⟨read, -, rfl⟩ := h
            rfl

/-! ## More levels than needed -/

private theorem readSlots_mono {step more : Value → Option (Update Value)}
    (hmore : ∀ value update, step value = some update → more value = some update)
    {entries : List (Option Value)} {update : Update (List (Option Value))}
    (h : readSlots step entries = some update) : readSlots more entries = some update := by
  induction entries generalizing update with
  | nil => exact h
  | cons entry rest ih =>
      cases entry with
      | none =>
          simp only [readSlots, bind, Option.bind_eq_some_iff] at h ⊢
          obtain ⟨others, hothers, hpure⟩ := h
          exact ⟨others, ih hothers, hpure⟩
      | some child =>
          simp only [readSlots, bind, Option.bind_eq_some_iff] at h ⊢
          obtain ⟨read, hread, hrest⟩ := h
          refine ⟨read, hmore child read hread, ?_⟩
          split
          · rename_i failure houtcome
            simpa only [houtcome] using hrest
          · rename_i houtcome
            simp only [houtcome, Option.bind_eq_some_iff] at hrest ⊢
            obtain ⟨others, hothers, hpure⟩ := hrest
            exact ⟨others, ih hothers, hpure⟩

private theorem readItems_mono {step more : Value → Option (Update Value)}
    (hmore : ∀ value update, step value = some update → more value = some update)
    {make : Nat → Except Error Value} {count number : Nat} {update : Update (List Value)}
    (h : readItems step make count number = some update) :
    readItems more make count number = some update := by
  induction count generalizing number update with
  | zero => exact h
  | succ count ih =>
      unfold readItems at h ⊢
      split
      · rename_i failure hfailure
        simpa only [hfailure] using h
      · rename_i part hpart
        simp only [hpart, bind, Option.bind_eq_some_iff] at h ⊢
        obtain ⟨read, hread, hrest⟩ := h
        refine ⟨read, hmore part read hread, ?_⟩
        split
        · rename_i failure houtcome
          simpa only [houtcome] using hrest
        · rename_i houtcome
          simp only [houtcome, Option.bind_eq_some_iff] at hrest ⊢
          obtain ⟨others, hothers, hpure⟩ := hrest
          exact ⟨others, ih hothers, hpure⟩

theorem readWithin_succ {fuel : Nat} {value : Value} {update : Update Value}
    (h : readWithin context buffer fuel value = some update) :
    readWithin context buffer (fuel + 1) value = some update := by
  induction fuel generalizing value update with
  | zero => contradiction
  | succ fuel ih =>
      match value with
      | .scalar record offset content => exact h
      | .struct record offset slots =>
          rw [readWithin] at h ⊢
          dsimp only at h ⊢
          split
          · rename_i failure hfailure
            simpa only [hfailure] using h
          · rename_i hfresh
            simp only [hfresh] at h
            split
            · rename_i own start parts houtcome hleft
              simp only [houtcome, hleft, bind, Option.bind_eq_some_iff] at h ⊢
              obtain ⟨read, hread, hpure⟩ := h
              exact ⟨read, readSlots_mono (fun _ _ => ih) hread, hpure⟩
            · rename_i hother
              split at h
              · rename_i own start parts houtcome hleft
                exact absurd hleft (hother own start parts houtcome)
              · exact h
      | .union record offset none =>
          rw [readWithin] at h ⊢
          split
          · rename_i hslots
            simpa only [hslots] using h
          · rename_i slot rest hslots
            simp only [hslots] at h
            split
            · rename_i failure hfailure
              simpa only [hfailure] using h
            · rename_i fresh hfresh
              simp only [hfresh] at h
              dsimp only
              split
              · rename_i failure hfailure
                simpa only [hfailure] using h
              · rename_i houtcome
                simp only [houtcome, bind, Option.bind_eq_some_iff] at h ⊢
                obtain ⟨read, hread, hpure⟩ := h
                exact ⟨read, ih hread, hpure⟩
      | .union record offset (some (name, child)) =>
          simp only [readWithin, bind, Option.bind_eq_some_iff] at h ⊢
          obtain ⟨read, hread, hpure⟩ := h
          exact ⟨read, ih hread, hpure⟩
      | .array record offset items =>
          rw [readWithin] at h ⊢
          split
          · rename_i failure hfailure
            simpa only [hfailure] using h
          · rename_i length name stride hplan
            simp only [hplan] at h
            simp only [bind, Option.bind_eq_some_iff] at h ⊢
            obtain ⟨read, hread, hpure⟩ := h
            exact ⟨read, readItems_mono (fun _ _ => ih) hread, hpure⟩

theorem readWithin_mono {fuel more : Nat} (hle : fuel ≤ more) {value : Value}
    {update : Update Value} (h : readWithin context buffer fuel value = some update) :
    readWithin context buffer more value = some update := by
  induction hle with
  | refl => exact h
  | step _ ih => exact readWithin_succ ih

end BinarySchema.Value
