import BinarySchema.Proofs.Layout.Depth
import BinarySchema.Proofs.Value.Visits

/-!
# Enough levels for every read

The fuel of a read is as good as any other: a read that has a result with some number of levels has
the same one with its own fuel.  On the way to a part that needs all the levels, the numbers of
levels that the parts need strictly fall, so no type is met twice at one offset.
-/

namespace BinarySchema.Value

variable {context : Context} {buffer : Buffer} {value : Value} {fuel : Nat}

theorem FreshPart.unique {name : String} {start : UInt64} {one other : Value}
    (hone : FreshPart context name start one) (hother : FreshPart context name start other) :
    one = other := by
  obtain ⟨record, hresolve, -, rfl⟩ := hone.eq_blank
  obtain ⟨found, hfound, -, rfl⟩ := hother.eq_blank
  cases hresolve.symm.trans hfound
  rfl

/-- A value that needs one level more has a path of as many places below it. -/
private theorem exists_places_of_eq_none (hshaped : value.ShapedHere)
    (hactive : value.active? = none) (hnone : readWithin context buffer fuel value = none)
    (hread : readWithin context buffer (fuel + 1) value ≠ none) :
    ∃ places : List (String × UInt64), places.length = fuel ∧
      (∀ place ∈ places.head?, place.1 ∈ value.record.references) ∧
      places.IsChain (fun whole part => context.RefersTo whole.1 part.1) ∧ places.Nodup ∧
      ∀ place ∈ places, ∀ part, FreshPart context place.1 place.2 part →
        readWithin context buffer fuel part ≠ none := by
  induction fuel generalizing value with
  | zero => exact ⟨[], by simp⟩
  | succ fuel ih =>
      obtain ⟨child, hvisit, hchild⟩ := exists_visit_of_eq_none hshaped hnone
      obtain ⟨part, start, ⟨-, hpart, -⟩, hfresh⟩ := hvisit.exists_freshPart hshaped hactive
      have hneeds := hvisit.ne_none hshaped hread
      obtain ⟨record, hresolve, -, hblank⟩ := hfresh.eq_blank
      obtain ⟨places, hlength, hstart, hpath, hnodup, hplaces⟩ :=
        ih hfresh.sound.shaped.here (hblank ▸ active?_blank record start) hchild hneeds
      rw [hblank, record_blank] at hstart
      have hnew : (part, start) ∉ places := fun hmem => hplaces _ hmem child hfresh hchild
      refine ⟨(part, start) :: places, by simp [hlength], ?_, ?_,
        List.nodup_cons.mpr ⟨hnew, hnodup⟩, ?_⟩
      · rintro _ ⟨⟩
        exact value.record.sizeParts_subset_references hpart
      · exact List.isChain_cons.mpr ⟨fun next hnext => ⟨record, hresolve, hstart next hnext⟩, hpath⟩
      · refine List.forall_mem_cons.mpr
          ⟨fun other hother => hother.unique hfresh ▸ hneeds, fun place hmem other hother hnone => ?_⟩
        obtain ⟨update, hupdate⟩ := Option.ne_none_iff_exists'.mp (hplaces place hmem other hother)
        rw [readWithin_mono (Nat.le_succ fuel) hupdate] at hnone
        contradiction

/-- Away from active slots, what is read with some number of levels is read with the fuel. -/
private theorem readWithin_readFuel (hshaped : value.ShapedHere) (hactive : value.active? = none)
    {update : Update Value} (h : readWithin context buffer fuel value = some update) :
    readWithin context buffer (context.readFuel value.record) value = some update := by
  classical
  have hreads : ∃ fuel, readWithin context buffer fuel value ≠ none := ⟨fuel, by simp [h]⟩
  obtain ⟨least, hleast⟩ : ∃ least, Nat.find hreads = least + 1 :=
    Nat.exists_eq_succ_of_ne_zero fun hzero => by
      simpa [hzero, readWithin] using Nat.find_spec hreads
  have hneeds : readWithin context buffer (least + 1) value ≠ none :=
    hleast ▸ Nat.find_spec hreads
  have hbefore : readWithin context buffer least value = none :=
    not_not.mp (Nat.find_min hreads (hleast ▸ Nat.lt_succ_self least))
  obtain ⟨places, hlength, hstart, hpath, hnodup, -⟩ :=
    exists_places_of_eq_none hshaped hactive hbefore hneeds
  have hbound := Context.length_places_lt_readFuel hstart hpath hnodup
  obtain ⟨found, hfound⟩ := Option.ne_none_iff_exists'.mp hneeds
  have hfuel := readWithin_mono (show least + 1 ≤ context.readFuel value.record by omega) hfound
  have hboth := readWithin_mono (Nat.le_max_left fuel (context.readFuel value.record)) h
  rw [readWithin_mono (Nat.le_max_right fuel (context.readFuel value.record)) hfuel] at hboth
  rw [hfuel, hboth]

/-- The fuel of a read finds what any number of levels finds. -/
theorem read_eq_some_iff (hshaped : value.Shaped) {update : Update Value} :
    value.read context buffer = some update ↔
      ∃ fuel, readWithin context buffer fuel value = some update := by
  refine ⟨fun h => ⟨_, h⟩, ?_⟩
  rintro ⟨fuel, h⟩
  induction value using Value.induction generalizing fuel update with
  | active record offset name child ih =>
      cases fuel with
      | zero => contradiction
      | succ fuel =>
          simp only [readWithin, bind, Option.bind_eq_some_iff, pure, Option.some.injEq] at h
          obtain ⟨inner, hread, rfl⟩ := h
          have hinner := ih (hshaped.inside child (by simp)) fuel hread
          unfold Value.read at hinner ⊢
          simp only [activePath, Nat.add_right_comm _ 1, readWithin, hinner]
          rfl
  | scalar record offset content =>
      simpa [Value.read, activePath] using readWithin_readFuel hshaped.here rfl h
  | struct record offset slots ih =>
      simpa [Value.read, activePath] using readWithin_readFuel hshaped.here rfl h
  | unset record offset =>
      simpa [Value.read, activePath] using readWithin_readFuel hshaped.here rfl h
  | array record offset items ih =>
      simpa [Value.read, activePath] using readWithin_readFuel hshaped.here rfl h

/-- A named type is read as its fresh value is with any number of levels. -/
theorem FreshPart.read_eq_ok_iff {name : String} {start : UInt64} {part after : Value}
    (h : FreshPart context name start part) :
    context.read name buffer start = some (.ok after) ↔
      ∃ fuel, readWithin context buffer fuel part = some (.done after) := by
  rw [← read_eq_some_iff h.sound.shaped, h.read_eq, Option.map_eq_some_iff]
  simp only [Update.result_eq_ok_iff, exists_eq_right]

/-! ## Parts of values that were read -/

/-- The step of a read below which the parts of a value are read. -/
private theorem exists_step_of_read {name : String} {record : TypeRecord} {start : UInt64}
    {after : Value} (hresolve : context.resolve? name = some record)
    (h : context.read name buffer start = some (.ok after)) :
    ∃ fuel, ReadStep context buffer
      (fun part child => readWithin context buffer fuel part = some (.done child))
      (blank record start) after := by
  obtain ⟨part, fuel, hfresh, hread⟩ := readWithin_of_read h
  have hshaped := hfresh.sound.shaped.here
  obtain ⟨found, hfound, -, rfl⟩ := hfresh.eq_blank
  cases hresolve.symm.trans hfound
  cases fuel with
  | zero => contradiction
  | succ fuel => exact ⟨fuel, readStep_of_readWithin hshaped hread⟩

/-- An array holds as many elements as its length says, and each is what a read of its type gives
behind the elements before it. -/
theorem items_of_read {name element : String} {record : TypeRecord} {length start : UInt64}
    {after : Value} (hresolve : context.resolve? name = some record)
    (hkind : record.kind = .array) (hdeclared : record.length = some length)
    (hname : record.element = some element)
    (h : context.read name buffer start = some (.ok after)) :
    ∃ stride, after = .array record start after.items ∧ context.sizeOf element = .ok stride ∧
      after.items.length = length.toNat ∧
      ∀ (index : Nat) (item : Value), after.items[index]? = some item →
        ∃ place, place.toNat = start.toNat + index * stride.toNat ∧
          context.read element buffer place = some (.ok item) := by
  obtain ⟨fuel, hstep⟩ := exists_step_of_read hresolve h
  rw [blank, hkind] at hstep
  cases hstep with
  | @array _ _ _ stride _ _ _ _ hlength helement hstride hcount hparts hitems =>
      cases hname.symm.trans helement
      cases hdeclared.symm.trans (length_of_readLength hlength)
      refine ⟨stride, rfl, hstride, hitems.length_eq.symm.trans hcount, fun index item hitem => ?_⟩
      obtain ⟨part, hpart, hread⟩ := exists_getElem?_of_forall₂ hitems hitem
      obtain ⟨place, hplace, hfresh⟩ := hparts index part hpart
      exact ⟨place, elementOffset_eq_ok_iff.mp hplace,
        hfresh.read_eq_ok_iff.mpr ⟨fuel, hread⟩⟩

/-- A struct holds for each slot what a read of the slot's type gives at its place. -/
theorem slots_of_read {name : String} {record : TypeRecord} {start : UInt64} {after : Value}
    (hresolve : context.resolve? name = some record) (hkind : record.kind = .struct)
    (h : context.read name buffer start = some (.ok after)) :
    ∃ placements, ∃ children : List Value, context.slotPlacements record = .ok placements ∧
      after = .struct record start (children.map some) ∧
      children.length = record.slots.length ∧
      ∀ (index : Nat) (child : Value), children[index]? = some child →
        ∃ slot placement place, record.slots[index]? = some slot ∧
          placements[index]? = some placement ∧
          place.toNat = start.toNat + placement.offset.toNat ∧
          context.read slot.typeName buffer place = some (.ok child) := by
  obtain ⟨fuel, hstep⟩ := exists_step_of_read hresolve h
  rw [blank, hkind] at hstep
  cases hstep with
  | @struct _ _ _ placements _ children hparts hchildren =>
      refine ⟨placements, children, hparts.placements_eq, rfl,
        hchildren.length_eq.symm.trans hparts.length_eq, fun index child hchild => ?_⟩
      obtain ⟨part, hpart, hread⟩ := exists_getElem?_of_forall₂ hchildren hchild
      obtain ⟨slot, placement, place, hslot, hplacement, hplace, hfresh⟩ :=
        hparts.fresh index part hpart
      exact ⟨slot, placement, place, hslot, hplacement, addOffset_eq_ok_iff.mp hplace,
        hfresh.read_eq_ok_iff.mpr ⟨fuel, hread⟩⟩

/-! ### A frame of ones -/

def frameParts : List Value :=
  [.scalar { TypeRecord.base "word" 2 .unsigned with order := .big } 0 none,
    .union (.union "choice" [⟨"small", "byte"⟩, ⟨"large", "word"⟩]) 2 none,
    .array (.array "level[2]" "level" (some 2)) 8 []]

theorem slotParts_frame :
    SlotParts frameContext (frameValue 0).record 0 [⟨0, 2⟩, ⟨2, 2⟩, ⟨8, 8⟩] frameParts := by
  refine ⟨rfl, rfl, fun index part hpart => ?_⟩
  match index with
  | 0 | 1 | 2 =>
      cases hpart
      exact ⟨_, _, _, rfl, rfl, rfl, _, rfl, rfl⟩
  | index + 3 => contradiction

theorem read_frame : frameContext.read "frame" (.replicate 16 1) 0 = some (.ok (frameValue 0)) := by
  have hfresh : FreshPart frameContext "frame" 0 (blank (frameValue 0).record 0) := ⟨_, rfl, rfl⟩
  have hparts : List.Forall₂ (fun part child =>
      readWithin frameContext (.replicate 16 1) 2 part = some (.done child)) frameParts
        (frameValue 0).children :=
    .cons rfl (.cons rfl (.cons rfl .nil))
  refine hfresh.read_eq_ok_iff.mpr ⟨3, ?_⟩
  exact readWithin_of_readStep ⟨rfl, rfl⟩ (.struct slotParts_frame hparts)

end BinarySchema.Value
