import BinarySchema.Proofs.Codec
import BinarySchema.Proofs.Session
import BinarySchema.Proofs.Value.Levels

/-!
# Reading into used values

What a value held before does not matter for a read, except for an active slot: a read makes all
parts anew, so it ends as a fresh read of the type at the same place does, whatever failed calls
have left behind.
-/

namespace BinarySchema

namespace Value

/-! ## Another record of the same type -/

def retype (record : TypeRecord) : Value → Value
  | .scalar _ offset content => .scalar record offset content
  | .struct _ offset slots => .struct record offset slots
  | .union _ offset active => .union record offset active
  | .array _ offset items => .array record offset items

@[simp] theorem retype_record (value : Value) : value.retype value.record = value := by
  cases value <;> rfl

@[simp] theorem retype_retype (value : Value) (record other : TypeRecord) :
    (value.retype record).retype other = value.retype other := by
  cases value <;> rfl

theorem retype_blank {record other : TypeRecord}
    (hrecord : ∃ constant, other = { record with value := constant }) (offset : UInt64) :
    (blank record offset).retype other = blank other offset := by
  obtain ⟨constant, rfl⟩ := hrecord
  unfold blank
  cases record.kind <;> rfl

variable {context : Context} {buffer : Buffer} {deeper : Value → Value → Prop}
  {value after : Value} {record : TypeRecord} {fuel : Nat}

/-- The value of a constant has no part in a read. -/
theorem ReadStep.retype (h : ReadStep context buffer deeper value after)
    (hrecord : ∃ constant, record = { value.record with value := constant }) :
    ReadStep context buffer deeper (value.retype record) (after.retype record) := by
  obtain ⟨constant, rfl⟩ := hrecord
  cases h with
  | scalar hread => exact .scalar hread
  | struct hparts hread =>
      exact .struct ⟨hparts.placements_eq, hparts.length_eq, hparts.fresh⟩ hread
  | first hslots hfresh hread => exact .first hslots hfresh hread
  | active hread => exact .active hread
  | array hlength helement hstride hcount hfresh hread =>
      exact .array hlength helement hstride hcount hfresh hread

/-! ## Nothing of the old contents -/

/-- One level of a read does not look at what the value holds. -/
theorem readStep_blank_iff (hshaped : value.ShapedHere) (hactive : value.active? = none) :
    ReadStep context buffer deeper (blank value.record value.offset) after ↔
      ReadStep context buffer deeper value after := by
  match value with
  | .scalar own offset content =>
      rw [Value.record, Value.offset, blank_of_isScalar hshaped]
      constructor <;> rintro ⟨hread⟩ <;> exact .scalar hread
  | .struct own offset slots =>
      simp only [Value.record, Value.offset, blank, hshaped.1]
      constructor <;> rintro (_ | ⟨hparts, hread⟩) <;> exact .struct hparts hread
  | .union own offset none =>
      have hkind : own.kind = .union := hshaped
      simp only [Value.record, Value.offset, blank, hkind]
  | .union _ _ (some _) => contradiction
  | .array own offset items =>
      have hkind : own.kind = .array := hshaped
      simp only [Value.record, Value.offset, blank, hkind]
      constructor <;> intro h <;> cases h with
      | array hlength helement hstride hcount hfresh hread =>
          exact .array hlength helement hstride hcount hfresh hread

/-- A used value is read as the blank value of its type at its place is. -/
theorem readWithin_eq_done_iff (hshaped : value.Shaped) (hactive : value.active? = none)
    (hsame : value.record.Same record) :
    readWithin context buffer fuel value = some (.done after) ↔
      ∃ fresh, readWithin context buffer fuel (blank record value.offset) = some (.done fresh) ∧
        after = fresh.retype value.record := by
  cases fuel with
  | zero => simp [readWithin]
  | succ fuel =>
      have hblank : (blank record value.offset).ShapedHere :=
        shapedHere_blank (hsame.kind_eq ▸ kind_ne_const_of_shaped hshaped) _
      -- equal types may differ in their constants, so each read is a read of the other type's value
      have hrecord := hsame.exists_value
      have hback : ∃ constant, value.record = { record with value := constant } := by
        obtain ⟨constant, hrecord⟩ := hrecord
        exact ⟨value.record.value, by rw [hrecord]⟩
      constructor
      · intro h
        have hstep :=
          (readStep_blank_iff hshaped.here hactive).mpr (readStep_of_readWithin hshaped.here h)
        have hfresh : ReadStep _ _ _ ((blank value.record value.offset).retype record)
            (after.retype record) := hstep.retype (by simpa using hrecord)
        rw [retype_blank hrecord] at hfresh
        refine ⟨_, readWithin_of_readStep hblank hfresh, ?_⟩
        have hafter : after.record = value.record := record_of_readWithin h
        rw [retype_retype, ← hafter, retype_record]
      · rintro ⟨fresh, h, rfl⟩
        have hstep := (readStep_of_readWithin hblank h).retype (by simpa using hback)
        rw [retype_blank hback, readStep_blank_iff hshaped.here hactive] at hstep
        exact readWithin_of_readStep hshaped.here hstep

/-- A struct that is read well has places for its slots. -/
theorem exists_placements_of_readWithin (hshaped : value.ShapedHere)
    (hkind : value.record.kind = .struct)
    (h : readWithin context buffer fuel value = some (.done after)) :
    ∃ placements, context.slotPlacements value.record = .ok placements := by
  obtain ⟨own, offset, slots, rfl⟩ := exists_eq_struct hshaped hkind
  cases fuel with
  | zero => contradiction
  | succ fuel =>
      cases readStep_of_readWithin hshaped h with
      | struct hparts _ => exact ⟨_, hparts.placements_eq⟩

/-- A read of the value ends well exactly if a fresh read of its type at its place does, and leaves
what that read gives. -/
def ReadsAsFresh (context : Context) (buffer : Buffer) (value : Value) : Prop :=
  ∀ record, context.resolve? value.record.name = some record → value.record.Same record →
    ∀ after, value.read context buffer = some (.done after) ↔
      ∃ fresh, context.read value.record.name buffer value.offset = some (.ok fresh) ∧
        fresh.record = record ∧ after = fresh.retype value.record

theorem readsAsFresh (hshaped : value.Shaped) (hactive : value.active? = none) (buffer : Buffer) :
    value.ReadsAsFresh context buffer := by
  intro record hresolve hsame after
  rw [read_eq_some_iff hshaped]
  constructor
  · rintro ⟨fuel, h⟩
    obtain ⟨fresh, hfresh, hafter⟩ := (readWithin_eq_done_iff hshaped hactive hsame).mp h
    have hpart : FreshPart context value.record.name value.offset (blank record value.offset) := by
      refine freshPart_blank hresolve (hsame.kind_eq ▸ kind_ne_const_of_shaped hshaped)
        (fun hkind => ?_) value.offset
      rw [← hsame.slotPlacements_eq]
      exact exists_placements_of_readWithin hshaped.here (hsame.kind_eq.trans hkind) h
    refine ⟨fresh, hpart.read_eq_ok_iff.mpr ⟨fuel, hfresh⟩, ?_, hafter⟩
    exact (record_of_readWithin hfresh).trans (record_blank record value.offset)
  · rintro ⟨fresh, hread, -, hafter⟩
    obtain ⟨part, fuel, hpart, hfresh⟩ := readWithin_of_read hread
    obtain ⟨found, hfound, -, rfl⟩ := hpart.eq_blank
    cases hresolve.symm.trans hfound
    exact ⟨fuel, (readWithin_eq_done_iff hshaped hactive hsame).mpr ⟨fresh, hfresh, hafter⟩⟩

/-- A union with an active slot is read as its child is and keeps the slot. -/
theorem read_active (context : Context) (buffer : Buffer) (record : TypeRecord) (offset : UInt64)
    (name : String) (child : Value) :
    (Value.union record offset (some (name, child))).read context buffer =
      (child.read context buffer).map
        (Update.within fun moved => .union record offset (some (name, moved))) := by
  unfold Value.read
  simp only [activePath, Nat.add_right_comm _ 1, readWithin]
  cases readWithin context buffer _ child <;> rfl

end Value

namespace Session

variable {initial : Context} {session : Session}

/-- A value of a session without an active slot is read as a fresh one of its type at its place,
whatever it held.  A union with an active slot keeps it, and its child is read as a fresh one. -/
theorem read_used (hrun : Run (start initial) session) (buffer : Buffer) :
    (∀ value, session.Contains value → value.active? = none →
      value.ReadsAsFresh session.context buffer) ∧
    ∀ record offset name child, session.Contains (.union record offset (some (name, child))) →
      (Value.union record offset (some (name, child))).read session.context buffer =
        (child.read session.context buffer).map
          (Update.within fun moved => .union record offset (some (name, moved))) ∧
      (child.active? = none → child.ReadsAsFresh session.context buffer) := by
  constructor
  · intro value hvalue hactive
    exact Value.readsAsFresh (shaped_of_contains hrun hvalue) hactive buffer
  · intro record offset name child hunion
    refine ⟨Value.read_active _ _ record offset name child, fun hactive => ?_⟩
    have hshaped := shaped_of_contains hrun hunion
    exact Value.readsAsFresh (hshaped.inside child (by simp)) hactive buffer

/-- The body of a frame with a number in its second choice. -/
def usedBody (number : UInt64) : Value :=
  .union (.union "choice" [⟨"small", "byte"⟩, ⟨"large", "word"⟩]) 2
    (some ("large", .scalar { TypeRecord.base "word" 2 .unsigned with order := .big } 2
      (some (.uint number))))

/-- A frame of which only the body was ever set. -/
def usedFrame : Value :=
  .struct (Value.frameValue 0).record 0 [none, some (usedBody 7), none]

/-- Nothing of the frame is left, while the body alone keeps its choice. -/
theorem read_used_frame :
    ∃ session, Run (start frameContext) session ∧ session.held "frame" = some usedFrame ∧
      usedFrame.read session.context (.replicate 16 1) = some (.done (.frameValue 0)) ∧
      (usedBody 7).read session.context (.replicate 16 1) = some (.done (usedBody 257)) := by
  have hwrap : Value.wrap frameContext (Value.frameValue 0).record
      (.fields [("body", .fields [("large", .scalar (.uint 7))])]) = .ok usedFrame := rfl
  obtain ⟨session, hrun, hcontext, hheld⟩ := cleanRun_wrap rfl hwrap "frame"
  have hframe : session.Contains usedFrame := ⟨"frame", usedFrame, hheld, .refl⟩
  have hbody : session.Contains (usedBody 7) :=
    ⟨"frame", usedFrame, hheld, .single (by simp [usedFrame])⟩
  obtain ⟨hreads, hactive⟩ := read_used hrun.run (.replicate 16 1)
  have hwhole := hreads usedFrame hframe rfl
  obtain ⟨hread, hchild⟩ := hactive _ _ _ _ hbody
  have hword := hchild rfl
  rw [hcontext] at hwhole hread hword
  have hfresh : Value.FreshPart frameContext "word" 2
      (.scalar { TypeRecord.base "word" 2 .unsigned with order := .big } 2 none) := ⟨_, rfl, rfl⟩
  have hnumber := (hword _ rfl (.refl _) _).mpr
    ⟨_, hfresh.read_eq_ok_iff.mpr ⟨1, rfl⟩, rfl, rfl⟩
  refine ⟨session, hrun.run, hheld, ?_, ?_⟩ <;> rw [hcontext]
  · exact (hwhole _ rfl (.refl _) _).mpr ⟨_, Value.read_frame, rfl, rfl⟩
  · rw [usedBody, hread, hnumber]
    rfl

end Session

end BinarySchema
