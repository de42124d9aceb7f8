import BinarySchema.Proofs.Session

/-!
# Failed changes

A failure to replace a value or to append to it leaves no trace.  A failed move leaves parts in
other places, which a later move mends, and a failed assignment leaves besides at most the new
content of the slot that was assigned to.
-/

namespace BinarySchema

namespace Value

variable {context : Context} {value : Value}

/-- The second value is the first one with `part` in a slot, wherever their parts lie. -/
inductive SlotFilled (name : String) (part : Value) : Value → Value → Prop
  | struct {record : TypeRecord} {offset : UInt64} {slots filled : List (Option Value)}
      {index : Nat} {placed : Value} (hindex : record.slotIndex? name = some index)
      (hplaced : filled[index]? = some (some placed)) (hpart : placed.unplaced = part.unplaced)
      (hothers : ∀ other : Nat, other ≠ index →
        filled[other]?.map (·.map unplaced) = slots[other]?.map (·.map unplaced)) :
      SlotFilled name part (.struct record offset slots) (.struct record offset filled)
  | union {record : TypeRecord} {offset : UInt64} {active : Option (String × Value)}
      {placed : Value} (hpart : placed.unplaced = part.unplaced) :
      SlotFilled name part (.union record offset active)
        (.union record offset (some (name, placed)))

/-- However the placing ends, the slot is filled and nothing else has changed but places. -/
theorem slotFilled_put {name : String} {index : Nat} {slotType : TypeRecord}
    (hshaped : value.ShapedHere)
    (htarget : value.slotTarget context name = .ok (index, slotType)) (part : Value) :
    SlotFilled name part value
      ((value.put name index part).moveTo context value.offset).left := by
  have hplaces : ((value.put name index part).moveTo context value.offset).left.unplaced =
      (value.put name index part).unplaced := unplaced_moveTo ..
  have hoffset := offset_moveTo context (value.put name index part) value.offset
  obtain ⟨slot, hindex, -, hslot, -⟩ := slotTarget_eq_ok htarget
  generalize ((value.put name index part).moveTo context value.offset).left = left at *
  cases value with
  | scalar | array => contradiction
  | union record offset active =>
      obtain ⟨place, placed, rfl, hpart⟩ := exists_of_unplaced_active hplaces
      obtain rfl : place = offset := hoffset
      exact .union hpart
  | struct record offset slots =>
      obtain ⟨place, filled, rfl, hfilled⟩ := exists_of_unplaced_struct hplaces
      obtain rfl : place = offset := hoffset
      have hentries := fun number : Nat => congrArg (·[number]?) hfilled
      simp only [List.getElem?_map] at hentries
      have hlt : index < slots.length :=
        hshaped.2 ▸ (List.getElem?_eq_some_iff.mp hslot).1
      have hentry := hentries index
      simp only [List.getElem?_set_self hlt, Option.map_some] at hentry
      obtain ⟨entry, hplaced, hentry⟩ := Option.map_eq_some_iff.mp hentry
      obtain ⟨placed, rfl, hpart⟩ := Option.map_eq_some_iff.mp hentry
      refine .struct hindex hplaced hpart fun other hother => ?_
      rw [hentries other, List.getElem?_set_ne (Ne.symm hother)]

/-- A failed assignment comes to nothing, or it fails to place what it has put into the slot. -/
theorem left_setSlot_of_error {name : String} {input : Input} {failure : Error}
    (hshaped : value.ShapedHere)
    (h : (value.setSlot context name input).outcome = .error failure) :
    (value.setSlot context name input).left = value ∨
      ∃ slot slotType index part, value.record.slot? name = some slot ∧
        value.record.slotIndex? name = some index ∧
        context.resolve? slot.typeName = some slotType ∧
        wrap context slotType input = .ok part ∧
        ((value.put name index part).moveTo context value.offset).outcome = .error failure ∧
        SlotFilled name part value (value.setSlot context name input).left := by
  rcases setSlot_cases context value name input with
    ⟨failed, hset⟩ | ⟨index, slotType, part, htarget, hpart, hset⟩
  · exact .inl (hset ▸ rfl)
  · rw [hset] at h ⊢
    obtain ⟨slot, hindex, hslot, -, hresolve⟩ := slotTarget_eq_ok htarget
    exact .inr ⟨slot, slotType, index, part, hslot, hindex, hresolve, hpart, h,
      slotFilled_put hshaped htarget part⟩

end Value

namespace Session

variable {initial : Context} {session : Session} {value : Value}

/-- A value that fails to be replaced or appended to is as it was.  One that fails to be assigned
to is as it was too, unless the material was good for the slot and placing it failed; then the slot
holds what the material makes and all else has kept everything but places.  A failed move changes
nothing but places, and makes no difference to the moves after it. -/
theorem failures_contained (hrun : Run (start initial) session) (hvalue : session.Contains value)
    (context : Context) :
    (∀ input failure, (value.set context input).outcome = .error failure →
      (value.set context input).left = value) ∧
    (∀ input failure, (value.push context input).outcome = .error failure →
      (value.push context input).left = value) ∧
    (∀ name input failure, (value.setSlot context name input).outcome = .error failure →
      (value.setSlot context name input).left = value ∨
        ∃ slot slotType index part, value.record.slot? name = some slot ∧
          value.record.slotIndex? name = some index ∧
          context.resolve? slot.typeName = some slotType ∧
          Value.wrap context slotType input = .ok part ∧
          ((value.put name index part).moveTo context value.offset).outcome = .error failure ∧
          Value.SlotFilled name part value (value.setSlot context name input).left) ∧
    ∀ offset failure, (value.moveTo context offset).outcome = .error failure →
      (value.moveTo context offset).left.unplaced = value.unplaced ∧
      ∀ (later : Context) (place : UInt64),
        ((value.moveTo context offset).left.moveTo later place).result =
          (value.moveTo later place).result := by
  have hshaped := shaped_of_contains hrun hvalue
  refine ⟨fun _ _ => Value.left_set_of_error, fun _ _ => Value.left_push_of_error,
    fun _ _ _ => Value.left_setSlot_of_error hshaped.here, fun offset _ _ => ?_⟩
  have hplaces := @Value.unplaced_moveTo context value offset
  exact ⟨hplaces, fun _ place => Value.result_moveTo_congr hshaped hplaces place⟩

/-- An empty frame may lie so close to the end of all addresses that its levels have no place. -/
theorem failures_contained_frame :
    ∃ session value slotType part, Run (start frameContext) session ∧
      session.held "frame" = some value ∧ value.offset = 18446744073709551613 ∧
      (value.setSlot frameContext "levels" (.items [.scalar (.uint 1)])).outcome =
        .error (.offsetOverflow 18446744073709551613 8) ∧
      Value.wrap frameContext slotType (.items [.scalar (.uint 1)]) = .ok part ∧
      value.slot? "levels" = none ∧
      Value.SlotFilled "levels" part value
        (value.setSlot frameContext "levels" (.items [.scalar (.uint 1)])).left := by
  let record := (Value.frameValue 0).record
  let value := Value.struct record 18446744073709551613 [none, none, none]
  have hwrap : Value.wrap frameContext record (.fields []) =
      .ok (.struct record 0 [none, none, none]) := rfl
  obtain ⟨session, hrun, hcontext, hheld⟩ := cleanRun_wrap rfl hwrap "frame"
  have hmove : (Call.moveTo 18446744073709551613).run session.context (session.held "frame") =
      some (.done (some value)) := by
    rw [hcontext, hheld]
    rfl
  have hstep := Step.call "frame" (by simp [Call.material]) hmove
  have hnext := hrun.run.tail ⟨_, _, hstep⟩
  have hfailure : (value.setSlot frameContext "levels" (.items [.scalar (.uint 1)])).outcome =
      .error (.offsetOverflow 18446744073709551613 8) := rfl
  have hheld' := Function.update_self (β := fun _ => Option Value) "frame" (some value) session.held
  obtain ⟨-, -, hsetSlot, -⟩ :=
    failures_contained hnext ⟨"frame", value, hheld', .refl⟩ frameContext
  rcases hsetSlot _ _ _ hfailure with hsame |
    ⟨slot, slotType, index, part, -, -, -, hpart, -, hfilled⟩
  · have hslot := congrArg (Value.slot? · "levels") hsame
    contradiction
  · exact ⟨_, value, slotType, part, hnext, hheld', rfl, hfailure, hpart, rfl, hfilled⟩

end Session

end BinarySchema
