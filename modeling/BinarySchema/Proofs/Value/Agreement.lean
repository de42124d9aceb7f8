import BinarySchema.Proofs.Layout.Agreement
import BinarySchema.Proofs.Value.Levels

/-!
# Values in contexts that agree

Two contexts that agree on the types of a value and of everything inside it place, read, measure and
write it alike.  What a type name means is thus settled by the types that it leads to: records
loaded under other names and, for a type without words, the platform have no influence.
-/

namespace BinarySchema

namespace Context

variable {first second : Context} {name : String} {record : TypeRecord}

theorem AgreeOn.create_eq (h : first.AgreeOn second name) :
    first.create name = second.create name := by
  simp only [create, h.require_eq]

theorem AgreeAt.scalarCodec_eq (h : first.AgreeAt second record) :
    first.scalarCodec record = second.scalarCodec record := by
  unfold scalarCodec
  cases record.representation with
  | none => rfl
  | some representation =>
      cases hsize : record.size with
      | none => rfl
      | some declared =>
          cases declared with
          | bytes count => rfl
          | native => simp only [h.words hsize]

end Context

namespace Value

variable {first second : Context} {name : String} {value : Value} {buffer : Buffer}

theorem exists_reference_of_child {context : Context} {child : Value} (hshaped : value.ShapedHere)
    (htyped : value.TypedHere context) (hmem : child ∈ value.children) :
    ∃ part ∈ value.record.references, child.OfType context part := by
  match value with
  | .scalar .. | .union _ _ none => contradiction
  | .struct record offset slots =>
      obtain ⟨index, hindex⟩ := List.getElem?_of_mem (mem_children_struct.mp hmem)
      obtain ⟨slot, hslot, htype⟩ := htyped index child hindex
      exact ⟨slot.typeName,
        TypeRecord.typeName_mem_references (.inl hshaped.1) (List.mem_of_getElem? hslot), htype⟩
  | .union record offset (some (active, part)) =>
      cases List.mem_singleton.mp hmem
      obtain ⟨slot, hslot, htype⟩ := htyped
      have hmem := List.mem_of_find?_eq_some hslot
      exact ⟨slot.typeName, TypeRecord.typeName_mem_references (.inr hshaped.1) hmem, htype⟩
  | .array record offset items =>
      obtain ⟨part, helement, htype⟩ := htyped child hmem
      exact ⟨part, TypeRecord.element_mem_references hshaped helement, htype⟩

/-! ## Values of types that are agreed on -/

structure AgreeHere (first second : Context) (value : Value) : Prop where
  shaped : value.ShapedHere
  agree : first.AgreeAt second value.record

abbrev AgreeIn (first second : Context) (value : Value) : Prop :=
  value.Everywhere (AgreeHere first second)

theorem agreeIn_of_ofType (hshaped : value.Shaped) (htyped : value.WellTyped first)
    (htype : value.OfType first name) (h : first.AgreeOn second name) :
    value.AgreeIn first second := by
  induction hshaped generalizing name with
  | @node value here inside ih =>
      obtain ⟨record, hresolve, hsame⟩ := htype
      have hagree := (h.agreeAt hresolve).of_same hsame
      refine .node ⟨here, hagree⟩ fun child hmem => ?_
      obtain ⟨part, hpart, hchild⟩ := exists_reference_of_child here htyped.here hmem
      exact ih child hmem (htyped.inside child hmem) hchild (hagree.parts part hpart)

theorem FreshPart.agreeIn {start : UInt64} (hfresh : FreshPart first name start value)
    (h : first.AgreeOn second name) : value.AgreeIn first second :=
  agreeIn_of_ofType hfresh.sound.shaped hfresh.sound.typed hfresh.ofType h

theorem agreeIn_of_create (hcreate : first.create name = .ok value)
    (h : first.AgreeOn second name) : value.AgreeIn first second := by
  obtain ⟨record, hresolve, hempty⟩ := create_eq_ok_iff.mp hcreate
  have hsound : value.Sound first := sound_of_empty hempty
  exact agreeIn_of_ofType hsound.shaped hsound.typed
    ⟨record, hresolve, .inl (record_of_empty hempty)⟩ h

theorem AgreeIn.moveTo (h : value.AgreeIn first second) (context : Context) (offset : UInt64) :
    (value.moveTo context offset).left.AgreeIn first second := by
  refine everywhere_of_unplaced_eq (fun part => ?_) (unplaced_moveTo value offset) h
  constructor
  · rintro ⟨hshaped, hagree⟩
    exact ⟨shapedHere_unplaced.mp hshaped, record_unplaced part ▸ hagree⟩
  · rintro ⟨hshaped, hagree⟩
    exact ⟨shapedHere_unplaced.mpr hshaped, (record_unplaced part).symm ▸ hagree⟩

/-! ## Moving -/

private theorem moveSlots_eq {slots : List (Option Value)} {offset : UInt64}
    {placements : List Placement}
    (h : ∀ child, some child ∈ slots → ∀ start,
      child.moveTo first start = child.moveTo second start) :
    moveSlots first offset placements slots = moveSlots second offset placements slots := by
  induction slots generalizing placements with
  | nil => cases placements <;> rfl
  | cons entry rest ih =>
      have ih := fun placements => @ih placements fun child hmem => h child (.tail _ hmem)
      cases placements with
      | nil => rfl
      | cons placement placements =>
          cases entry with
          | none => simp only [moveSlots, ih]
          | some child => simp only [moveSlots, ih, h child (.head _)]

private theorem moveItems_eq {items : List Value} {offset stride : UInt64} {index : Nat}
    (h : ∀ item ∈ items, ∀ start, item.moveTo first start = item.moveTo second start) :
    moveItems first offset stride index items = moveItems second offset stride index items := by
  induction items generalizing index with
  | nil => rfl
  | cons item rest ih =>
      have ih := fun index => @ih index fun other hmem => h other (.tail _ hmem)
      simp only [moveItems, ih, h item (.head _)]

theorem AgreeIn.moveTo_eq (h : value.AgreeIn first second) (offset : UInt64) :
    value.moveTo first offset = value.moveTo second offset := by
  induction value using Value.induction generalizing offset with
  | scalar | unset => rfl
  | active record own name child ih =>
      simp only [Value.moveTo, ih (h.inside child (by simp))]
  | struct record own slots ih =>
      have hslots : ∀ child, some child ∈ slots → ∀ start,
          child.moveTo first start = child.moveTo second start :=
        fun child hmem => ih child hmem (h.inside child (mem_children_struct.mpr hmem))
      simp only [Value.moveTo, h.here.agree.slotPlacements_eq h.here.shaped.1, moveSlots_eq hslots]
  | array record own items ih =>
      cases items with
      | nil => rfl
      | cons item rest =>
          have hitems : ∀ other ∈ item :: rest, ∀ start,
              other.moveTo first start = other.moveTo second start :=
            fun other hmem => ih other hmem (h.inside other hmem)
          simp only [Value.moveTo, moveItems_eq hitems]
          cases helement : record.elementName with
          | error failure => rfl
          | ok element =>
              have href := TypeRecord.element_mem_references h.here.shaped
                (Context.elementName_eq_ok_iff.mp helement)
              simp only [(h.here.agree.parts element href).sizeOf_eq]

/-! ## Reading -/

private theorem freshSlots_eq {slots : List Slot} {entries : List (Option Value)}
    (h : ∀ slot ∈ slots, first.AgreeOn second slot.typeName) :
    freshSlots first slots entries = freshSlots second slots entries := by
  induction slots generalizing entries with
  | nil => rfl
  | cons slot slots ih =>
      cases entries with
      | nil => rfl
      | cons old rest =>
          simp only [freshSlots, (h slot (.head _)).create_eq,
            ih fun other hmem => h other (.tail _ hmem)]

private theorem freshElement_eq {offset stride : UInt64} (h : first.AgreeOn second name) :
    freshElement first name offset stride = freshElement second name offset stride := by
  funext index
  refine bind_congr_ok h.create_eq fun fresh hfresh => bind_congr_ok rfl fun start _ => ?_
  rw [(agreeIn_of_create hfresh h).moveTo_eq]

private theorem readSlots_congr {step step' : Value → Option (Update Value)}
    {entries : List (Option Value)}
    (h : ∀ child, some child ∈ entries → step child = step' child) :
    readSlots step entries = readSlots step' entries := by
  induction entries with
  | nil => rfl
  | cons entry rest ih =>
      have ih := ih fun child hmem => h child (.tail _ hmem)
      cases entry with
      | none => simp only [readSlots, ih]
      | some child => simp only [readSlots, ih, h child (.head _)]

private theorem readItems_congr {step step' : Value → Option (Update Value)}
    {make : Nat → Except Error Value} {count index : Nat}
    (h : ∀ index part, make index = .ok part → step part = step' part) :
    readItems step make count index = readItems step' make count index := by
  induction count generalizing index with
  | zero => rfl
  | succ count ih =>
      unfold readItems
      cases hmake : make index with
      | error failure => rfl
      | ok fresh => simp only [h index fresh hmake, ih]

/-- The parts of a struct that are made anew are agreed on like the slots that ask for them. -/
private theorem agreeIn_of_freshSlots {record : TypeRecord} {offset : UInt64}
    {entries created : List (Option Value)} (hkind : record.kind = .struct)
    (hlength : entries.length = record.slots.length) (h : first.AgreeAt second record)
    (hfresh : freshSlots first record.slots entries = .done created) :
    (Value.struct record offset created).AgreeIn first second := by
  obtain ⟨parts, rfl, hparts⟩ := freshSlots_eq_done hlength hfresh
  refine .node ⟨⟨hkind, by simp [hparts.length_eq]⟩, h⟩ fun child hmem => ?_
  have hmem : child ∈ parts := by simpa using hmem
  obtain ⟨slot, hslot, hcreate⟩ := exists_of_mem_forall₂ hparts hmem
  have href := TypeRecord.typeName_mem_references (.inl hkind) hslot
  exact agreeIn_of_create hcreate (h.parts _ href)

section

variable {fuel : Nat} {record : TypeRecord} {offset : UInt64}
  (ih : ∀ {part : Value}, part.AgreeIn first second →
    readWithin first buffer fuel part = readWithin second buffer fuel part)

include ih

private theorem readWithin_struct_eq {slots : List (Option Value)}
    (h : AgreeHere first second (.struct record offset slots)) :
    readWithin first buffer (fuel + 1) (.struct record offset slots) =
      readWithin second buffer (fuel + 1) (.struct record offset slots) := by
  obtain ⟨hkind, hlength⟩ := h.shaped
  have hslots : ∀ slot ∈ record.slots, first.AgreeOn second slot.typeName := fun slot hslot =>
    h.agree.parts _ (TypeRecord.typeName_mem_references (.inl hkind) hslot)
  simp only [readWithin, ← freshSlots_eq hslots]
  generalize hfresh : freshSlots first record.slots slots = fresh
  obtain ⟨created, outcome⟩ := fresh
  cases outcome with
  | error failure => rfl
  | ok _ =>
      have hcreated : (Value.struct record offset created).AgreeIn first second :=
        agreeIn_of_freshSlots hkind hlength h.agree hfresh
      have hmoved := hcreated.moveTo first offset
      simp only [← hcreated.moveTo_eq]
      split
      · rename_i parts _ hleft
        rw [hleft] at hmoved
        rw [readSlots_congr fun child hmem =>
          ih (hmoved.inside child (mem_children_struct.mpr hmem))]
      · rfl

private theorem readWithin_unset_eq (h : AgreeHere first second (.union record offset none)) :
    readWithin first buffer (fuel + 1) (.union record offset none) =
      readWithin second buffer (fuel + 1) (.union record offset none) := by
  simp only [readWithin]
  split
  · rfl
  · rename_i slot rest hslots
    have hmem : slot.typeName ∈ record.references :=
      TypeRecord.typeName_mem_references (.inr h.shaped) (by simp [hslots])
    have hslot : first.AgreeOn second slot.typeName := h.agree.parts _ hmem
    rw [← hslot.create_eq]
    split
    · rfl
    · rename_i fresh hfresh
      have hpart := agreeIn_of_create hfresh hslot
      rw [← hpart.moveTo_eq, ih (hpart.moveTo first offset)]

private theorem readWithin_array_eq {items : List Value}
    (h : AgreeHere first second (.array record offset items)) :
    readWithin first buffer (fuel + 1) (.array record offset items) =
      readWithin second buffer (fuel + 1) (.array record offset items) := by
  have hlength : readLength first record = readLength second record := by
    simp only [readLength, h.agree.limits_eq]
  simp only [readWithin, hlength]
  cases readLength second record with
  | error failure => rfl
  | ok length =>
      cases helement : record.elementName with
      | error failure => rfl
      | ok element =>
          have hpart : first.AgreeOn second element := h.agree.parts _ <|
            TypeRecord.element_mem_references h.shaped (Context.elementName_eq_ok_iff.mp helement)
          simp only [ok_bind, ← hpart.sizeOf_eq]
          cases first.sizeOf element with
          | error failure => rfl
          | ok stride =>
              have hitem : ∀ index part,
                  freshElement first element offset stride index = .ok part →
                  readWithin first buffer fuel part = readWithin second buffer fuel part := by
                intro index part hmake
                obtain ⟨start, -, hfresh⟩ := freshElement_eq_ok_iff.mp hmake
                exact ih (hfresh.agreeIn hpart)
              simp only [ok_bind, pure, Except.pure, ← freshElement_eq hpart,
                readItems_congr hitem]

end

/-- However many levels there are, a read takes the same course in both contexts. -/
theorem AgreeIn.readWithin_eq (h : value.AgreeIn first second) (fuel : Nat) :
    readWithin first buffer fuel value = readWithin second buffer fuel value := by
  induction fuel generalizing value with
  | zero => rfl
  | succ fuel ih =>
      match value with
      | .scalar record offset content =>
          have hcodec : first.scalarCodec record = second.scalarCodec record :=
            h.here.agree.scalarCodec_eq
          simp only [readWithin, readScalar, hcodec]
      | .struct record offset slots => exact readWithin_struct_eq ih h.here
      | .union record offset none => exact readWithin_unset_eq ih h.here
      | .union record offset (some (name, child)) =>
          simp only [readWithin, ih (h.inside child (by simp))]
      | .array record offset items => exact readWithin_array_eq ih h.here

theorem AgreeIn.read_eq (h : value.AgreeIn first second) (buffer : Buffer) :
    value.read first buffer = value.read second buffer := by
  have hshaped : value.Shaped := h.imp fun _ => AgreeHere.shaped
  ext update
  rw [read_eq_some_iff hshaped, read_eq_some_iff hshaped]
  simp only [h.readWithin_eq]

/-! ## Measuring and writing -/

private theorem slotStops_eq {slots : List (Option Value)}
    (h : ∀ child, some child ∈ slots → child.stop first = child.stop second) :
    slotStops first slots = slotStops second slots := by
  induction slots with
  | nil => rfl
  | cons entry rest ih =>
      have ih := ih fun child hmem => h child (.tail _ hmem)
      cases entry with
      | none => simp only [slotStops, ih]
      | some child => simp only [slotStops, ih, h child (.head _)]

private theorem itemStops_eq {items : List Value}
    (h : ∀ item ∈ items, item.stop first = item.stop second) :
    itemStops first items = itemStops second items := by
  induction items with
  | nil => rfl
  | cons item rest ih =>
      simp only [itemStops, h item (.head _), ih fun other hmem => h other (.tail _ hmem)]

theorem AgreeIn.stop_eq (h : value.AgreeIn first second) :
    value.stop first = value.stop second := by
  induction value using Value.induction with
  | scalar record offset content =>
      have hsize : first.sizeOfRecord record = second.sizeOfRecord record :=
        h.here.agree.sizeOfRecord_eq
      simp only [stop, hsize]
  | unset => rfl
  | active record offset name child ih => simp only [stop, ih (h.inside child (by simp))]
  | struct record offset slots ih =>
      simp only [stop, slotStops_eq fun child hmem =>
        ih child hmem (h.inside child (mem_children_struct.mpr hmem))]
  | array record offset items ih =>
      simp only [stop, itemStops_eq fun item hmem => ih item hmem (h.inside item hmem)]

theorem AgreeIn.encodedSize_eq (h : value.AgreeIn first second) :
    value.encodedSize first = value.encodedSize second := by
  simp only [encodedSize, h.here.agree.sizeOfRecord_eq, h.stop_eq]

private theorem writeSlots_eq {typeName : String} {declared : List Slot}
    {slots : List (Option Value)}
    (h : ∀ child, some child ∈ slots → ∀ buffer,
      child.write first buffer = child.write second buffer) :
    writeSlots first typeName buffer declared slots =
      writeSlots second typeName buffer declared slots := by
  induction slots generalizing declared buffer with
  | nil => cases declared <;> rfl
  | cons entry rest ih =>
      have ih := fun declared buffer => @ih buffer declared fun child hmem => h child (.tail _ hmem)
      cases declared with
      | nil => rfl
      | cons slot declared =>
          cases entry with
          | none => rfl
          | some child => simp only [writeSlots, ih, h child (.head _)]

private theorem writeItems_eq {items : List Value}
    (h : ∀ item ∈ items, ∀ buffer, item.write first buffer = item.write second buffer) :
    writeItems first buffer items = writeItems second buffer items := by
  induction items generalizing buffer with
  | nil => rfl
  | cons item rest ih =>
      have ih := fun buffer => @ih buffer fun other hmem => h other (.tail _ hmem)
      simp only [writeItems, ih, h item (.head _)]

theorem AgreeIn.write_eq (h : value.AgreeIn first second) (buffer : Buffer) :
    value.write first buffer = value.write second buffer := by
  induction value using Value.induction generalizing buffer with
  | scalar record offset content =>
      cases content with
      | none => rfl
      | some content =>
          have hcodec : first.scalarCodec record = second.scalarCodec record :=
            h.here.agree.scalarCodec_eq
          simp only [write, writeScalar, hcodec]
  | unset => rfl
  | active record offset name child ih => exact ih (h.inside child (by simp)) buffer
  | struct record offset slots ih =>
      exact writeSlots_eq fun child hmem =>
        ih child hmem (h.inside child (mem_children_struct.mpr hmem))
  | array record offset items ih =>
      simp only [write, writeItems_eq fun item hmem => ih item hmem (h.inside item hmem)]

end Value

/-! ## Results -/

namespace Context

variable {first second : Context} {name : String}

/-- The layout of a type, its fresh value and what is read as a value of it are the same in two
contexts, failures included, and what is read is written with the same outcome. -/
structure SameResults (first second : Context) (name : String) : Prop where
  sizeOf_eq : first.sizeOf name = second.sizeOf name
  fields_eq : first.fields name = second.fields name
  create_eq : first.create name = second.create name
  read_eq : ∀ buffer offset, first.read name buffer offset = second.read name buffer offset
  encodedSize_eq : ∀ {buffer offset value}, first.read name buffer offset = some (.ok value) →
    value.encodedSize first = value.encodedSize second
  write_eq : ∀ {buffer offset value}, first.read name buffer offset = some (.ok value) →
    ∀ target, value.write first target = value.write second target

private theorem AgreeOn.agreeIn_of_read {buffer : Buffer} {offset : UInt64} {value : Value}
    (h : first.AgreeOn second name) (hread : first.read name buffer offset = some (.ok value)) :
    value.AgreeIn first second := by
  obtain ⟨part, fuel, hfresh, hpart⟩ := Value.readWithin_of_read hread
  obtain ⟨hsound, hrecord, -⟩ := Value.sound_of_readWithin hfresh.sound hpart
  obtain ⟨record, hresolve, hsame⟩ := hfresh.ofType
  exact Value.agreeIn_of_ofType hsound.shaped hsound.typed ⟨record, hresolve, hrecord ▸ hsame⟩ h

private theorem AgreeOn.read_eq (h : first.AgreeOn second name) (buffer : Buffer)
    (offset : UInt64) : first.read name buffer offset = second.read name buffer offset := by
  have hplaced : (first.create name >>= fun fresh => (fresh.moveTo first offset).result) =
      second.create name >>= fun fresh => (fresh.moveTo second offset).result :=
    bind_congr_ok h.create_eq fun fresh hfresh => by
      rw [(Value.agreeIn_of_create hfresh h).moveTo_eq]
  simp only [Context.read, ← hplaced]
  cases hvalue : first.create name >>= fun fresh => (fresh.moveTo first offset).result with
  | error failure => rfl
  | ok value =>
      obtain ⟨fresh, hfresh, hmove⟩ := bind_eq_ok_iff.mp hvalue
      have hpart : Value.FreshPart first name offset value :=
        ⟨fresh, hfresh, Update.result_eq_ok_iff.mp hmove⟩
      simp only [(hpart.agreeIn h).read_eq]

theorem AgreeOn.sameResults (h : first.AgreeOn second name) : first.SameResults second name where
  sizeOf_eq := h.sizeOf_eq
  fields_eq := h.fields_eq
  create_eq := h.create_eq
  read_eq := h.read_eq
  encodedSize_eq hread := (h.agreeIn_of_read hread).encodedSize_eq
  write_eq hread := (h.agreeIn_of_read hread).write_eq

/-- Only the types that a name leads to decide what it means.  It makes no difference which other
types are loaded, replaced or discarded, nor for which platform, where no type is as wide as a
word. -/
theorem results_of_reachable_types (first : Context) (name : String) :
    (∀ second, first.AgreeOn second name → first.SameResults second name) ∧
      (∀ records, (∀ record ∈ records, ¬first.Reaches name record.name) →
        first.SameResults (first.load records false) name) ∧
      (∀ records, (∀ other, first.Reaches name other →
          Registry.lastNamed? records other = first.registry.get? other) →
        first.SameResults (first.load records true) name) ∧
      ∀ platform, first.Throughout (fun record => record.size ≠ some .native) name →
        first.SameResults { first with platform } name :=
  ⟨fun _ h => h.sameResults, fun _ h => (agreeOn_load h).sameResults,
    fun _ h => (agreeOn_discard h).sameResults,
    fun platform h => (agreeOn_platform h platform).sameResults⟩

/-- The frame means the same next to another number and on a platform with wider words. -/
theorem results_of_frame_types :
    let other : Context :=
      { frameContext.load [.base "extra" 8 .unsigned] false with platform := .x86_64 }
    frameContext.wordSize ≠ other.wordSize ∧ frameContext.AgreeOn other "frame" ∧
      frameContext.SameResults other "frame" ∧
      frameContext.SameResults (frameContext.load [.base "extra" 8 .unsigned] false) "frame" ∧
      frameContext.SameResults (frameContext.load frameRecords true) "frame" ∧
      frameContext.SameResults { frameContext with platform := .x86_64 } "frame" := by
  intro other
  have hextra : ∀ record ∈ [TypeRecord.base "extra" 8 .unsigned],
      ¬frameContext.Reaches "frame" record.name := by
    intro record hmem hreaches
    cases List.mem_singleton.mp hmem
    exact absurd (mem_of_reaches_frame hreaches) (by decide)
  have hkept : ∀ name, frameContext.Reaches "frame" name →
      Registry.lastNamed? frameRecords name = frameContext.registry.get? name := by
    have hall : ∀ name ∈ ["frame", "word", "choice", "level[2]", "byte", "level"],
        Registry.lastNamed? frameRecords name = frameContext.registry.get? name := by decide
    exact fun name hreaches => hall name (mem_of_reaches_frame hreaches)
  have hwords : frameContext.Throughout (fun record => record.size ≠ some .native) "frame" :=
    throughout_frame (by decide) (by decide)
  have hagree : frameContext.AgreeOn other "frame" :=
    ⟨rfl, (agreeOn_load hextra).resolve_eq, .inr hwords⟩
  obtain ⟨hother, hload, hdiscard, hplatform⟩ := results_of_reachable_types frameContext "frame"
  exact ⟨by decide, hagree, hother other hagree, hload _ hextra, hdiscard _ hkept,
    hplatform .x86_64 hwords⟩

end Context

end BinarySchema
