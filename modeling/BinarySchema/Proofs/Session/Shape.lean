import BinarySchema.Proofs.Session

/-!
# Shapes through sessions

Whatever is called, in whatever order and under whatever schema, and also where calls fail: every
value that is held has the form of its own type down to its last part, and a call that changes a
value leaves its type alone.  Values carry the types that they were made of, so neither needs
anything of the context.
-/

namespace BinarySchema

/-! ## Lookups of slots -/

namespace Value

/-- A slot of any name, and every declared slot of a struct in turn, is found inside the entries. -/
def SlotsInRange : Value → Prop
  | .struct record _ slots =>
      (∀ name index, record.slotIndex? name = some index →
        index < record.slots.length ∧ index < slots.length) ∧
      ∀ index < record.slots.length, index < slots.length
  | value => ∀ name index, value.record.slotIndex? name = some index →
      index < value.record.slots.length

theorem slotsInRange_of_shapedHere {value : Value} (h : value.ShapedHere) :
    value.SlotsInRange := by
  have hdeclared : ∀ name index, value.record.slotIndex? name = some index →
      index < value.record.slots.length := fun name index hindex =>
    (List.findIdx?_eq_some_iff_getElem.mp hindex).1
  cases value with
  | scalar | union | array => exact hdeclared
  | struct record offset slots =>
      have hlength : slots.length = record.slots.length := h.2
      refine ⟨fun name index hindex => ?_, fun index hindex => hlength ▸ hindex⟩
      exact ⟨hdeclared name index hindex, hlength ▸ hdeclared name index hindex⟩

end Value

/-! ## Types of changed values -/

namespace Call

variable {context : Context} {call : Call} {value : Value} {change : Update Value}

/-- The call changes the value that a variable holds, instead of making another one. -/
def mutates : Call → Bool
  | .set _ | .setSlot .. | .push _ | .moveTo _ | .read _ => true
  | .create _ | .wrap .. | .fetch .. | .copy _ => false

def isSet : Call → Bool
  | .set _ => true
  | _ => false

private theorem record_of_setSlot (name : String) (input : Input) :
    (value.setSlot context name input).left.record = value.record := by
  unfold Value.setSlot Value.assignWith
  split
  · rfl
  · split
    · rfl
    · exact Value.record_assign ..

private theorem record_of_push (input : Input) :
    (value.push context input).left.record = value.record := by
  unfold Value.push
  split
  · rename_i next hnext
    obtain ⟨record, offset, items, -, -, -, -, -, rfl, -, -, -, -, rfl⟩ :=
      Value.pushWith_eq_ok hnext
    rfl
  · rfl

/-- A replacement may be taken as it is when its type compares as equal. -/
private theorem same_of_set {input : Input} (hmaterial : ∀ part ∈ input.embedded, part.Shaped) :
    (value.set context input).left.record.Same value.record := by
  refine Value.left_set (P := fun next => next.record.Same value.record) (.refl _)
    fun next hset => ?_
  obtain ⟨made, hmade, hmove⟩ := Value.set_eq_done hset
  exact Value.record_of_moveTo hmove ▸ ((Value.keptByMaking_shaped context).wrap hmaterial hmade).2

theorem record_of_changes (hmaterial : ∀ part ∈ call.material, part.Shaped)
    (h : call.Changes context value change) :
    change.left.record.Same value.record ∧
      (call.isSet = false → change.left.record = value.record) := by
  cases h with
  | set => exact ⟨same_of_set hmaterial, fun hset => by contradiction⟩
  | setSlot => exact ⟨.inl (record_of_setSlot ..), fun _ => record_of_setSlot ..⟩
  | push => exact ⟨.inl (record_of_push _), fun _ => record_of_push _⟩
  | moveTo => exact ⟨.inl (Value.record_moveTo ..), fun _ => Value.record_moveTo ..⟩
  | read hread =>
      exact ⟨.inl (Value.record_of_readWithin hread), fun _ => Value.record_of_readWithin hread⟩

end Call

/-! ## Runs -/

namespace Session

variable {context : Context} {session next : Session}

private theorem shaped_of_run (hrun : Run (start context) session) {name : String}
    {value part : Value} (hvalue : session.held name = some value) (hpart : part.PartOf value) :
    part.Shaped :=
  shaped_of_contains hrun ⟨name, value, hvalue, hpart⟩

private theorem record_of_step {name : String} {call : Call} {outcome : Except Error Unit}
    (hshaped : session.AllHeld Value.Shaped) (hmutates : call.mutates = true)
    (hstep : session.Step (.call name call) outcome next) :
    ∃ before after, session.held name = some before ∧ next.held name = some after ∧
      after.record.Same before.record ∧
      (call.isSet = false → after.record = before.record) := by
  cases hstep with
  | call _ hmaterial hrun =>
      have hparts : ∀ part ∈ call.material, part.Shaped := fun part hpart =>
        hshaped.of_contains (fun _ child hwhole => hwhole.inside child) (hmaterial part hpart)
      rcases Call.makes_or_changes hrun with
        ⟨result, hmakes, -⟩ | ⟨before, change, hbefore, hchanges, rfl⟩
      · cases hmakes <;> contradiction
      · exact ⟨before, change.left, hbefore, Function.update_self ..,
          Call.record_of_changes hparts hchanges⟩

/-- After any run every part of a held value fits its own type, and no slot is looked for outside of
the entries.  A call that changes a value keeps its type, whether it succeeds or fails; only where a
value is replaced by another one may the types be merely equal. -/
theorem shapes_kept (context : Context) :
    (∀ session, Run (start context) session → ∀ name value, session.held name = some value →
      ∀ part : Value, part.PartOf value →
        part.record.kind ≠ .const ∧ part.ShapedHere ∧ part.SlotsInRange) ∧
    ∀ session next name call outcome, Run (start context) session →
      session.Step (.call name call) outcome next → call.mutates = true →
      ∃ before after, session.held name = some before ∧ next.held name = some after ∧
        after.record.Same before.record ∧
        (call.isSet = false → after.record = before.record) := by
  constructor
  · intro session hrun name value hvalue part hpart
    have hshaped := shaped_of_run hrun hvalue hpart
    exact ⟨Value.kind_ne_const_of_shaped hshaped, hshaped.here,
      Value.slotsInRange_of_shapedHere hshaped.here⟩
  · intro session next name call outcome hrun hstep hmutates
    exact record_of_step (allHeld_shaped_of_run (allHeld_start context _) hrun) hmutates hstep

/-- A frame that is moved to where it has no room keeps its type and stays in shape. -/
theorem shapes_kept_frame :
    ∃ session next failure, Run (start frameContext) session ∧
      session.held "frame" = some (.frameValue 0) ∧
      session.Step (.call "frame" (.moveTo 18446744073709551615)) (.error failure) next ∧
      (∀ part : Value, part.PartOf (.frameValue 0) →
        part.record.kind ≠ .const ∧ part.ShapedHere ∧ part.SlotsInRange) ∧
      ∃ after, next.held "frame" = some after ∧ after.record = (Value.frameValue 0).record := by
  obtain ⟨session, hrun, hcontext, hheld⟩ := cleanRun_frame
  have hmove : (Call.moveTo 18446744073709551615).run session.context (session.held "frame") =
      some (((Value.frameValue 0).moveTo frameContext 18446744073709551615).within some) := by
    rw [hcontext, hheld]
    rfl
  have hstep := Step.call "frame" (by simp [Call.material]) hmove
  have hfailure : (((Value.frameValue 0).moveTo frameContext 18446744073709551615).within
      some).outcome = .error (.offsetOverflow 18446744073709551615 2) := by
    rfl
  rw [hfailure] at hstep
  obtain ⟨hheldShaped, hkept⟩ := shapes_kept frameContext
  obtain ⟨before, after, hbefore, hafter, -, hrecord⟩ :=
    hkept session _ "frame" (.moveTo 18446744073709551615) _ hrun.run hstep rfl
  cases hheld.symm.trans hbefore
  exact ⟨session, _, _, hrun.run, hheld, hstep, hheldShaped session hrun.run "frame" _ hheld, after,
    hafter, hrecord rfl⟩

end Session

end BinarySchema
