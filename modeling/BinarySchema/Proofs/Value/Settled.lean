import BinarySchema.Proofs.Value.Reading

/-!
# Settled values

A settled value is one that a move to its own place leaves as it is.  Whatever has been moved is
settled, and so are the parts of everything that is made or read without a failure; a value itself
need not be, since a new struct has no parts to place and its layout may still have none.
-/

namespace BinarySchema.Value

variable {context : Context} {record : TypeRecord} {offset : UInt64}

def Settled (context : Context) (value : Value) : Prop :=
  value.moveTo context value.offset = .done value

/-! ## Moving twice -/

private theorem moveSlots_of_moveSlots {placements : List Placement}
    {slots moved : List (Option Value)}
    (ih : ∀ child, some child ∈ slots → ∀ {start after},
      child.moveTo context start = .done after → after.moveTo context start = .done after)
    (h : moveSlots context offset placements slots = .done moved) :
    moveSlots context offset placements moved = .done moved := by
  induction slots generalizing placements moved with
  | nil =>
      cases placements <;> cases h
      all_goals rfl
  | cons entry rest ihrest =>
      have ihrest := fun {placements moved} =>
        @ihrest placements moved fun child hmem => ih child (.tail _ hmem)
      cases placements with
      | nil =>
          cases h
          rfl
      | cons placement placements =>
          cases entry with
          | none =>
              obtain ⟨others, hothers, rfl⟩ := Update.within_eq_done_iff.mp h
              exact Update.within_eq_done_iff.mpr ⟨others, ihrest hothers, rfl⟩
          | some child =>
              unfold moveSlots at h
              split at h
              · rename_i start hstart
                obtain ⟨first, others, hfirst, hothers, rfl⟩ := Update.followedBy_eq_done_iff.mp h
                simp only [moveSlots, hstart]
                exact Update.followedBy_eq_done_iff.mpr
                  ⟨first, others, ih child (.head _) hfirst, ihrest hothers, rfl⟩
              · exact absurd h (Update.failed_ne_done _ _ _)

private theorem moveItems_of_moveItems {stride : UInt64} {number : Nat} {items moved : List Value}
    (ih : ∀ item ∈ items, ∀ {start after},
      item.moveTo context start = .done after → after.moveTo context start = .done after)
    (h : moveItems context offset stride number items = .done moved) :
    moveItems context offset stride number moved = .done moved := by
  induction items generalizing number moved with
  | nil =>
      cases h
      rfl
  | cons item rest ihrest =>
      unfold moveItems at h
      split at h
      · rename_i start hstart
        obtain ⟨first, others, hfirst, hothers, rfl⟩ := Update.followedBy_eq_done_iff.mp h
        simp only [id_eq, moveItems, hstart]
        exact Update.followedBy_eq_done_iff.mpr
          ⟨first, others, ih item (.head _) hfirst,
            ihrest (fun child hmem => ih child (.tail _ hmem)) hothers, rfl⟩
      · exact absurd h (Update.failed_ne_done _ _ _)

theorem moveTo_of_moveTo {value after : Value} (h : value.moveTo context offset = .done after) :
    after.moveTo context offset = .done after := by
  induction value using Value.induction generalizing offset after with
  | scalar | unset =>
      cases h
      rfl
  | active record own name child ih =>
      obtain ⟨moved, hmoved, rfl⟩ := moveTo_active_eq_done_iff.mp h
      exact moveTo_active_eq_done_iff.mpr ⟨moved, ih hmoved, rfl⟩
  | struct record own slots ih =>
      obtain ⟨placements, moved, hplacements, hmoved, rfl⟩ := moveTo_struct_eq_done_iff.mp h
      have hagain := moveSlots_of_moveSlots (fun child hmem => ih child hmem) hmoved
      exact moveTo_struct_eq_done_iff.mpr ⟨placements, moved, hplacements, hagain, rfl⟩
  | array record own items ih =>
      cases items with
      | nil =>
          cases h
          rfl
      | cons first rest =>
          obtain ⟨name, stride, moved, helement, hstride, hmoved, rfl⟩ :=
            moveTo_array_eq_done_iff.mp h
          have hagain := moveItems_of_moveItems (fun item hmem => ih item hmem) hmoved
          cases moved with
          | nil => rfl
          | cons =>
              exact moveTo_array_eq_done_iff.mpr ⟨name, stride, _, helement, hstride, hagain, rfl⟩

/-- What a move leaves is settled. -/
theorem settled_of_moveTo {value after : Value} (h : value.moveTo context offset = .done after) :
    after.Settled context := by
  rw [Settled, offset_of_moveTo h]
  exact moveTo_of_moveTo h

/-! ## Parts of settled values -/

theorem Settled.inside {value child : Value} (h : value.Settled context)
    (hshaped : value.ShapedHere) (hmem : child ∈ value.children) : child.Settled context := by
  match value with
  | .scalar .. | .union _ _ none => contradiction
  | .union own place (some (name, part)) =>
      obtain ⟨moved, hmoved, heq⟩ := moveTo_active_eq_done_iff.mp h
      cases heq
      exact List.mem_singleton.mp hmem ▸ settled_of_moveTo hmoved
  | .struct own place slots =>
      obtain ⟨placements, moved, hplacements, hmoved, heq⟩ := moveTo_struct_eq_done_iff.mp h
      cases heq
      have hlength : slots.length = placements.length :=
        hshaped.2.trans (Context.length_slotPlacements hplacements).symm
      obtain ⟨index, hchild⟩ := List.getElem?_of_mem (mem_children_struct.mp hmem)
      obtain ⟨_, _, _, _, _, _, hmove⟩ := getElem?_moveSlots hlength hmoved hchild
      exact settled_of_moveTo hmove
  | .array own place [] => contradiction
  | .array own place (first :: rest) =>
      obtain ⟨name, stride, moved, -, -, hmoved, heq⟩ := moveTo_array_eq_done_iff.mp h
      cases heq
      obtain ⟨index, hchild⟩ := List.getElem?_of_mem hmem
      obtain ⟨_, _, _, _, hmove⟩ := getElem?_moveItems hmoved hchild
      exact settled_of_moveTo hmove

/-- The part in each slot has its place and is left as it is by a move there. -/
def SlotsSettled (context : Context) (offset : UInt64) (placements : List Placement)
    (slots : List (Option Value)) : Prop :=
  ∀ (index : Nat) (child : Value), slots[index]? = some (some child) →
    ∃ placement start, placements[index]? = some placement ∧
      addOffset offset placement.offset = .ok start ∧ child.moveTo context start = .done child

theorem slotsSettled_of_moveSlots {placements : List Placement} {slots : List (Option Value)}
    (hlength : slots.length = placements.length)
    (h : moveSlots context offset placements slots = .done slots) :
    SlotsSettled context offset placements slots := by
  intro index child hchild
  obtain ⟨twin, placement, start, htwin, hplacement, hstart, hmove⟩ :=
    getElem?_moveSlots hlength h hchild
  cases hchild.symm.trans htwin
  exact ⟨placement, start, hplacement, hstart, hmove⟩

theorem SlotsSettled.moveSlots_eq {placements : List Placement} {slots : List (Option Value)}
    (h : SlotsSettled context offset placements slots) :
    moveSlots context offset placements slots = .done slots := by
  induction slots generalizing placements with
  | nil => cases placements <;> rfl
  | cons entry rest ih =>
      cases placements with
      | nil => rfl
      | cons placement placements =>
          have ih := @ih placements fun index child hchild => h (index + 1) child hchild
          cases entry with
          | none => exact Update.within_eq_done_iff.mpr ⟨rest, ih, rfl⟩
          | some child =>
              obtain ⟨_, start, ⟨⟩, hstart, hmove⟩ := h 0 child rfl
              simp only [moveSlots, hstart]
              exact Update.followedBy_eq_done_iff.mpr ⟨child, rest, hmove, ih, rfl⟩

private theorem moveItems_eq_self {stride : UInt64} {number : Nat} {items : List Value}
    (hitems : ∀ (index : Nat) (item : Value), items[index]? = some item →
      ∃ start, elementOffset offset (number + index) stride = .ok start ∧
        item.moveTo context start = .done item) :
    moveItems context offset stride number items = .done items := by
  induction items generalizing number with
  | nil => rfl
  | cons item rest ih =>
      obtain ⟨start, hstart, hmove⟩ := hitems 0 item rfl
      rw [Nat.add_zero] at hstart
      simp only [moveItems, hstart]
      refine Update.followedBy_eq_done_iff.mpr
        ⟨item, rest, hmove, ih fun index other hother => ?_, rfl⟩
      exact Nat.add_right_comm number 1 index ▸ hitems (index + 1) other hother

/-- A value made or read without a failure: sound, with parts that are settled. -/
structure AtRest (context : Context) (value : Value) : Prop where
  sound : value.Sound context
  parts : ∀ child ∈ value.children, child.Settled context

theorem AtRest.settled_struct {slots : List (Option Value)} {placements : List Placement}
    (h : (Value.struct record offset slots).AtRest context)
    (hplacements : context.slotPlacements record = .ok placements) :
    (Value.struct record offset slots).Settled context := by
  have hslots : SlotsSettled context offset placements slots := by
    intro index child hchild
    obtain ⟨-, placement, -, hplacement, -, hplace⟩ := h.sound.slot hplacements hchild
    have hmem : child ∈ (Value.struct record offset slots).children :=
      mem_children_struct.mpr (List.mem_of_getElem? hchild)
    exact ⟨placement, child.offset, hplacement, addOffset_eq_ok_iff.mpr hplace,
      h.parts child hmem⟩
  exact moveTo_struct_eq_done_iff.mpr
    ⟨placements, slots, hplacements, hslots.moveSlots_eq, rfl⟩

theorem AtRest.settled_active {name : String} {child : Value}
    (h : (Value.union record offset (some (name, child))).AtRest context) :
    (Value.union record offset (some (name, child))).Settled context := by
  have hchild := h.parts child (by simp)
  have hplace : child.offset = offset := h.sound.placed.here
  rw [Settled, hplace] at hchild
  exact moveTo_active_eq_done_iff.mpr ⟨child, hchild, rfl⟩

theorem AtRest.settled_array {items : List Value}
    (h : (Value.array record offset items).AtRest context) :
    (Value.array record offset items).Settled context := by
  cases items with
  | nil => rfl
  | cons first rest =>
      obtain ⟨name, stride, helement, hstride, -⟩ := h.sound.placed.here 0 first rfl
      refine moveTo_array_eq_done_iff.mpr ⟨name, stride, _, helement, hstride, ?_, rfl⟩
      refine moveItems_eq_self fun index item hitem => ⟨item.offset, ?_, ?_⟩
      · rw [Nat.zero_add]
        exact elementOffset_eq_ok_iff.mpr (h.sound.item helement hstride hitem).2
      · exact h.parts item (List.mem_of_getElem? hitem)

/-! ## Values at rest -/

theorem atRest_of_settled {value : Value} (hsound : value.Sound context)
    (h : value.Settled context) : value.AtRest context :=
  ⟨hsound, fun _ hmem => h.inside hsound.shaped.here hmem⟩

theorem atRest_of_childless {value : Value} (hshaped : value.Shaped) (h : value.children = []) :
    value.AtRest context :=
  ⟨sound_of_childless hshaped h, by simp [h]⟩

theorem keptByMaking_atRest (context : Context) : KeptByMaking context (AtRest context) where
  empty h := atRest_of_childless (shaped_of_empty h) (children_of_empty h)
  scalar _ _ hscalar := atRest_of_childless (.node hscalar (by simp)) rfl
  assign hvalue htarget hchild hsame hassign := by
    have hsound :=
      (keptByMaking_sound context).assign hvalue.sound htarget hchild.sound hsame hassign
    rw [assign_eq_moveTo_put htarget] at hassign
    exact atRest_of_settled hsound (settled_of_moveTo hassign)
  append harray htype hchild hsame hstart hplaced := by
    have hsound := (keptByMaking_sound context).append harray.sound htype hchild.sound hsame hstart
      hplaced
    refine ⟨hsound, fun part hpart => ?_⟩
    rcases List.mem_append.mp hpart with hmem | hmem
    · exact harray.parts part hmem
    · exact List.mem_singleton.mp hmem ▸ settled_of_moveTo hplaced
  moveTo hvalue hmove :=
    atRest_of_settled ((keptByMaking_sound context).moveTo hvalue.sound hmove)
      (settled_of_moveTo hmove)
  inside hvalue hmem :=
    atRest_of_settled (hvalue.sound.inside hmem) (hvalue.parts _ hmem)

theorem FreshPart.atRest {name : String} {start : UInt64} {part : Value}
    (h : FreshPart context name start part) : part.AtRest context := by
  have hsound := h.sound
  obtain ⟨fresh, -, hmove⟩ := h
  exact atRest_of_settled hsound (settled_of_moveTo hmove)

/-- What is read into a value at rest is settled, the value included. -/
theorem settled_of_readWithin {buffer : Buffer} {fuel : Nat} {value after : Value}
    (hvalue : value.AtRest context)
    (h : readWithin context buffer fuel value = some (.done after)) : after.Settled context := by
  induction fuel generalizing value after with
  | zero => contradiction
  | succ fuel ih =>
      have hsound := (sound_of_readWithin hvalue.sound h).1
      cases readStep_of_readWithin hvalue.sound.shaped.here h with
      | scalar => rfl
      -- what is read are fresh parts, which are at rest, except for the content of an active slot
      | struct hparts hread =>
          refine AtRest.settled_struct ⟨hsound, fun child hmem => ?_⟩ hparts.placements_eq
          obtain ⟨index, hchild⟩ := List.getElem?_of_mem (mem_children_struct.mp hmem)
          simp only [List.getElem?_map, Option.map_eq_some_iff, Option.some.injEq,
            exists_eq_right] at hchild
          obtain ⟨part, hpart, hstep⟩ := exists_getElem?_of_forall₂ hread hchild
          obtain ⟨_, _, _, _, _, _, hfresh⟩ := hparts.fresh index part hpart
          exact ih hfresh.atRest hstep
      | first _ hfresh hread =>
          exact AtRest.settled_active ⟨hsound, by simpa using ih hfresh.atRest hread⟩
      | @active _ _ _ part _ hread =>
          have hpart : part.AtRest context := (keptByMaking_atRest context).inside hvalue (by simp)
          exact AtRest.settled_active ⟨hsound, by simpa using ih hpart hread⟩
      | array _ _ _ _ hfresh hread =>
          refine AtRest.settled_array ⟨hsound, fun child hmem => ?_⟩
          obtain ⟨index, hchild⟩ := List.getElem?_of_mem hmem
          obtain ⟨part, hpart, hstep⟩ := exists_getElem?_of_forall₂ hread hchild
          obtain ⟨_, _, hfresh⟩ := hfresh index part hpart
          exact ih hfresh.atRest hstep

theorem atRest_of_readWithin {buffer : Buffer} {fuel : Nat} {value after : Value}
    (hvalue : value.AtRest context)
    (h : readWithin context buffer fuel value = some (.done after)) : after.AtRest context :=
  atRest_of_settled (sound_of_readWithin hvalue.sound h).1 (settled_of_readWithin hvalue h)

end BinarySchema.Value
