import BinarySchema.Proofs.Session
import BinarySchema.Proofs.Value.Content
import BinarySchema.Proofs.Value.Settled

/-!
# Assignments in any order

An assignment to a slot of a struct places all slots anew.  In a value at rest that changes nothing
but the slot assigned to, and what goes into that slot does not depend on the others.  So a list of
assignments succeeds, and leaves what it leaves, whatever the order of its entries for different
slots.
-/

namespace BinarySchema

namespace Input

variable {entries others : List (String × Input)}

theorem lastNamed?_eq_getLast? (entries : List (String × Input)) (name : String) :
    lastNamed? entries name =
      ((entries.filter fun entry => entry.1 == name).getLast?).map Prod.snd := by
  rw [lastNamed?, ← List.head?_filter, List.filter_reverse, List.head?_reverse]

theorem mem_of_filter_eq
    (h : ∀ name, others.filter (fun entry => entry.1 == name) =
      entries.filter fun entry => entry.1 == name) : ∀ entry ∈ others, entry ∈ entries := by
  intro entry hentry
  have hmem : entry ∈ others.filter fun other => other.1 == entry.1 :=
    List.mem_filter.mpr ⟨hentry, beq_self_eq_true entry.1⟩
  exact List.mem_of_mem_filter (h entry.1 ▸ hmem)

theorem lastNamed?_of_mem_iff
    (h : ∀ name input, (name, input) ∈ others ↔ lastNamed? entries name = some input)
    (name : String) : lastNamed? others name = lastNamed? entries name := by
  cases hother : lastNamed? others name with
  | some input => exact ((h name input).mp (mem_of_lastNamed? hother)).symm
  | none =>
      refine (Option.eq_none_iff_forall_ne_some.mpr fun input hinput => ?_).symm
      exact not_mem_of_lastNamed? hother input ((h name input).mpr hinput)

end Input

namespace Value

variable {context : Context} {record : TypeRecord} {offset : UInt64} {slots : List (Option Value)}
  {entries others : List (String × Input)} {name : String} {input : Input} {index : Nat}
  {value after child moved : Value}

/-- The assignments one after another, up to the first that fails. -/
def setSlots (context : Context) (entries : List (String × Input)) (value : Value) :
    Except Error Value :=
  entries.foldlM (fun current entry => (current.setSlot context entry.1 entry.2).result) value

theorem setSlots_cons_eq_ok_iff :
    value.setSlots context ((name, input) :: entries) = .ok after ↔
      ∃ next, value.setSlot context name input = .done next ∧
        next.setSlots context entries = .ok after := by
  simp only [setSlots, List.foldlM_cons, bind_eq_ok_iff, Update.result_eq_ok_iff]

/-! ## One assignment -/

/-- When all slots are settled but one, only that one is moved. -/
theorem moveSlots_set_eq_done_iff {placement : Placement} {placements : List Placement}
    {filled : List (Option Value)} (hsettled : SlotsSettled context offset placements slots)
    (hlt : index < slots.length) (hplacement : placements[index]? = some placement) :
    moveSlots context offset placements (slots.set index (some child)) = .done filled ↔
      ∃ start moved, addOffset offset placement.offset = .ok start ∧
        child.moveTo context start = .done moved ∧ filled = slots.set index (some moved) := by
  induction slots generalizing placements index filled with
  | nil => contradiction
  | cons entry rest ih =>
      cases placements with
      | nil => contradiction
      | cons first placements =>
          have hrest : SlotsSettled context offset placements rest :=
            fun number own hown => hsettled (number + 1) own hown
          cases index with
          | zero =>
              cases hplacement
              simp only [List.set_cons_zero, moveSlots]
              split
              · rename_i start hstart
                rw [Update.followedBy_eq_done_iff]
                constructor
                · rintro ⟨moved, others, hmove, hothers, rfl⟩
                  cases hrest.moveSlots_eq.symm.trans hothers
                  exact ⟨start, moved, hstart, hmove, rfl⟩
                · rintro ⟨place, moved, hplace, hmove, rfl⟩
                  cases hstart.symm.trans hplace
                  exact ⟨moved, rest, hmove, hrest.moveSlots_eq, rfl⟩
              · rename_i failure hfailure
                simp [hfailure]
          | succ index =>
              have ih := fun {filled} => @ih index placements filled hrest
                (Nat.lt_of_succ_lt_succ hlt) hplacement
              cases entry with
              | none =>
                  constructor
                  · intro h
                    obtain ⟨filled, hfilled, rfl⟩ := Update.within_eq_done_iff.mp h
                    obtain ⟨start, moved, hstart, hmove, rfl⟩ := ih.mp hfilled
                    exact ⟨start, moved, hstart, hmove, rfl⟩
                  · rintro ⟨start, moved, hstart, hmove, rfl⟩
                    have hfilled := ih.mpr ⟨start, moved, hstart, hmove, rfl⟩
                    exact Update.within_eq_done_iff.mpr ⟨_, hfilled, rfl⟩
              | some own =>
                  obtain ⟨_, place, ⟨⟩, hplace, hown⟩ := hsettled 0 own rfl
                  simp only [List.set_cons_succ, moveSlots, hplace,
                    Update.followedBy_eq_done_iff, hown]
                  constructor
                  · rintro ⟨_, filled, ⟨⟩, hfilled, rfl⟩
                    obtain ⟨start, moved, hstart, hmove, rfl⟩ := ih.mp hfilled
                    exact ⟨start, moved, hstart, hmove, rfl⟩
                  · rintro ⟨start, moved, hstart, hmove, rfl⟩
                    exact ⟨own, _, rfl, ih.mpr ⟨start, moved, hstart, hmove, rfl⟩, rfl⟩

/-- What an assignment puts into which slot of a struct, whatever the struct holds. -/
def Fills (context : Context) (record : TypeRecord) (offset : UInt64) (name : String)
    (input : Input) (index : Nat) (moved : Value) : Prop :=
  ∃ slotType child placements placement start,
    (Value.struct record offset []).slotTarget context name = .ok (index, slotType) ∧
    wrap context slotType input = .ok child ∧ context.slotPlacements record = .ok placements ∧
    placements[index]? = some placement ∧ addOffset offset placement.offset = .ok start ∧
    child.moveTo context start = .done moved

theorem Fills.unique {other : Nat} {twin : Value}
    (h : Fills context record offset name input index moved)
    (hother : Fills context record offset name input other twin) :
    other = index ∧ twin = moved := by
  obtain ⟨slotType, child, placements, placement, start, htarget, hchild, hplacements, hplacement,
    hstart, hmove⟩ := h
  obtain ⟨_, _, _, _, _, htarget', hchild', hplacements', hplacement', hstart', hmove'⟩ := hother
  cases htarget.symm.trans htarget'
  cases hchild.symm.trans hchild'
  cases hplacements.symm.trans hplacements'
  cases hplacement.symm.trans hplacement'
  cases hstart.symm.trans hstart'
  cases hmove.symm.trans hmove'
  exact ⟨rfl, rfl⟩

theorem Fills.slotIndex (h : Fills context record offset name input index moved) :
    record.slotIndex? name = some index := by
  obtain ⟨slotType, _, _, _, _, htarget, -⟩ := h
  obtain ⟨-, hindex, -⟩ := slotTarget_eq_ok htarget
  exact hindex

/-- An assignment to a settled struct changes one slot and nothing else. -/
theorem setSlot_settled_iff (hsettled : (Value.struct record offset slots).Settled context)
    (hlength : slots.length = record.slots.length) :
    (Value.struct record offset slots).setSlot context name input = .done after ↔
      ∃ index moved, Fills context record offset name input index moved ∧
        after = .struct record offset (slots.set index (some moved)) := by
  obtain ⟨placements, _, hplacements, hmoved, ⟨⟩⟩ := moveTo_struct_eq_done_iff.mp hsettled
  have hcount : slots.length = placements.length :=
    hlength.trans (Context.length_slotPlacements hplacements).symm
  have hslots := slotsSettled_of_moveSlots hcount hmoved
  rw [← Update.result_eq_ok_iff, setSlot, result_assignWith_eq_ok_iff]
  constructor
  · rintro ⟨index, slotType, child, htarget, hchild, hassign⟩
    rw [assign] at hassign
    obtain ⟨_, filled, hsame, hfilled, rfl⟩ := moveTo_struct_eq_done_iff.mp hassign
    cases hplacements.symm.trans hsame
    obtain ⟨slot, -, -, hslot, -⟩ := slotTarget_eq_ok htarget
    have hlt : index < slots.length := hlength ▸ (List.getElem?_eq_some_iff.mp hslot).1
    have hplacement : placements[index]? = some _ := List.getElem?_eq_getElem (hcount ▸ hlt)
    obtain ⟨start, moved, hstart, hmove, rfl⟩ :=
      (moveSlots_set_eq_done_iff hslots hlt hplacement).mp hfilled
    exact ⟨index, moved, ⟨slotType, child, placements, _, start, htarget, hchild, hplacements,
      hplacement, hstart, hmove⟩, rfl⟩
  · rintro ⟨index, moved, ⟨slotType, child, _, placement, start, htarget, hchild, hsame, hplacement,
      hstart, hmove⟩, rfl⟩
    cases hplacements.symm.trans hsame
    have hlt : index < slots.length := hcount ▸ (List.getElem?_eq_some_iff.mp hplacement).1
    have hfilled :=
      (moveSlots_set_eq_done_iff hslots hlt hplacement).mpr ⟨start, moved, hstart, hmove, rfl⟩
    refine ⟨index, slotType, child, htarget, hchild, ?_⟩
    rw [assign, moveTo_struct_eq_done_iff]
    exact ⟨placements, _, hplacements, hfilled, rfl⟩

theorem settled_of_setSlot (h : value.setSlot context name input = .done after) :
    after.Settled context := by
  obtain ⟨_, _, _, -, -, hmove⟩ := exists_put_of_setSlot h
  exact settled_of_moveTo hmove

/-- A struct at rest to which some slot can be assigned has places for its slots. -/
theorem AtRest.settled_of_setSlot (hrest : (Value.struct record offset slots).AtRest context)
    (h : (Value.struct record offset slots).setSlot context name input = .done after) :
    (Value.struct record offset slots).Settled context := by
  obtain ⟨_, _, _, -, -, hmove⟩ := exists_put_of_setSlot h
  obtain ⟨placements, -, hplacements, -⟩ := moveTo_struct_eq_done_iff.mp hmove
  exact hrest.settled_struct hplacements

/-! ## Lists of assignments -/

/-- Each slot holds what the last assignment to it puts there, or what it held before. -/
def FilledBy (context : Context) (record : TypeRecord) (offset : UInt64)
    (entries : List (String × Input)) (slots filled : List (Option Value)) : Prop :=
  ∀ index : Nat,
    (∃ name input moved, Input.lastNamed? entries name = some input ∧
      Fills context record offset name input index moved ∧ filled[index]? = some (some moved)) ∨
    ((∀ name, record.slotIndex? name = some index → Input.lastNamed? entries name = none) ∧
      filled[index]? = slots[index]?)

theorem filledBy_cons {filled : List (Option Value)} (hlength : slots.length = record.slots.length)
    (hfills : Fills context record offset name input index moved)
    (h : FilledBy context record offset entries (slots.set index (some moved)) filled) :
    FilledBy context record offset ((name, input) :: entries) slots filled := by
  have hindex := hfills.slotIndex
  intro position
  rcases h position with ⟨other, last, part, hlast, hpart, hfilled⟩ | ⟨hnone, hfilled⟩
  · exact .inl ⟨other, last, part, by rw [Input.lastNamed?_cons, hlast, Option.some_or], hpart,
      hfilled⟩
  · rcases eq_or_ne index position with rfl | hne
    · have hlt : index < slots.length :=
        hlength ▸ (List.findIdx?_eq_some_iff_getElem.mp hindex).1
      rw [List.getElem?_set_self hlt] at hfilled
      exact .inl ⟨name, input, moved, by simp [Input.lastNamed?_cons, hnone name hindex], hfills,
        hfilled⟩
    · rw [List.getElem?_set_ne hne] at hfilled
      refine .inr ⟨fun other hother => ?_, hfilled⟩
      have hname : name ≠ other := by
        rintro rfl
        exact hne (Option.some.inj (hindex.symm.trans hother))
      rw [Input.lastNamed?_cons, hnone other hother, if_neg hname, Option.none_or]

/-- A list of assignments that succeeds is made of such as can be made on their own, and leaves what
they put into their slots. -/
theorem filledBy_of_setSlots (hsettled : (Value.struct record offset slots).Settled context)
    (hlength : slots.length = record.slots.length)
    (h : (Value.struct record offset slots).setSlots context entries = .ok after) :
    (∀ entry ∈ entries, ∃ index moved,
      Fills context record offset entry.1 entry.2 index moved) ∧
    ∃ filled, after = .struct record offset filled ∧
      FilledBy context record offset entries slots filled := by
  induction entries generalizing slots with
  | nil =>
      cases h
      exact ⟨by simp, slots, rfl, fun index => .inr ⟨fun _ _ => rfl, rfl⟩⟩
  | cons entry rest ih =>
      obtain ⟨next, hnext, h⟩ := setSlots_cons_eq_ok_iff.mp h
      obtain ⟨index, moved, hfills, rfl⟩ := (setSlot_settled_iff hsettled hlength).mp hnext
      obtain ⟨hrest, filled, rfl, hfilled⟩ :=
        ih (settled_of_setSlot hnext) (by rw [List.length_set, hlength]) h
      exact ⟨List.forall_mem_cons.mpr ⟨⟨index, moved, hfills⟩, hrest⟩, filled, rfl,
        filledBy_cons hlength hfills hfilled⟩

/-- No assignment can spoil the ones after it. -/
theorem exists_setSlots (hsettled : (Value.struct record offset slots).Settled context)
    (hlength : slots.length = record.slots.length)
    (hfills : ∀ entry ∈ entries, ∃ index moved,
      Fills context record offset entry.1 entry.2 index moved) :
    ∃ after, (Value.struct record offset slots).setSlots context entries = .ok after := by
  induction entries generalizing slots with
  | nil => exact ⟨_, rfl⟩
  | cons entry rest ih =>
      obtain ⟨⟨index, moved, hentry⟩, hrest⟩ := List.forall_mem_cons.mp hfills
      have hnext := (setSlot_settled_iff hsettled hlength).mpr ⟨index, moved, hentry, rfl⟩
      obtain ⟨after, hafter⟩ :=
        ih (settled_of_setSlot hnext) (by rw [List.length_set, hlength]) hrest
      exact ⟨after, setSlots_cons_eq_ok_iff.mpr ⟨_, hnext, hafter⟩⟩

theorem FilledBy.unique {filled twin : List (Option Value)}
    (hlast : ∀ name, Input.lastNamed? others name = Input.lastNamed? entries name)
    (h : FilledBy context record offset entries slots filled)
    (hother : FilledBy context record offset others slots twin) : twin = filled := by
  refine List.ext_getElem? fun index => ?_
  -- both lists assign to the slot, and then the same, or neither does
  rcases h index with ⟨name, input, moved, hinput, hfills, hfilled⟩ | ⟨hnone, hfilled⟩ <;>
    rcases hother index with ⟨other, last, part, hlast', hpart, htwin⟩ | ⟨hnone', htwin⟩
  · obtain ⟨slot, hslot, rfl⟩ := name_of_slotIndex? hfills.slotIndex
    obtain ⟨_, hsame, rfl⟩ := name_of_slotIndex? hpart.slotIndex
    cases hslot.symm.trans hsame
    rw [hlast, hinput] at hlast'
    cases hlast'
    obtain ⟨-, rfl⟩ := hfills.unique hpart
    rw [hfilled, htwin]
  · rw [← hlast, hnone' name hfills.slotIndex] at hinput
    contradiction
  · rw [hlast, hnone other hpart.slotIndex] at hlast'
    contradiction
  · rw [hfilled, htwin]

/-- Lists of assignments that end with the same ones for each name leave the same struct. -/
theorem setSlots_congr (hrest : (Value.struct record offset slots).AtRest context)
    (hmem : ∀ entry ∈ others, entry ∈ entries)
    (hlast : ∀ name, Input.lastNamed? others name = Input.lastNamed? entries name)
    (h : (Value.struct record offset slots).setSlots context entries = .ok after) :
    (Value.struct record offset slots).setSlots context others = .ok after := by
  cases entries with
  | nil =>
      obtain rfl : others = [] := List.eq_nil_iff_forall_not_mem.mpr fun entry hentry =>
        List.not_mem_nil (hmem entry hentry)
      exact h
  | cons entry rest =>
      have hlength := hrest.sound.shaped.here.2
      obtain ⟨next, hnext, -⟩ := setSlots_cons_eq_ok_iff.mp h
      have hsettled := hrest.settled_of_setSlot hnext
      obtain ⟨hfills, filled, rfl, hfilled⟩ := filledBy_of_setSlots hsettled hlength h
      obtain ⟨made, hmade⟩ :=
        exists_setSlots hsettled hlength fun entry hentry => hfills entry (hmem entry hentry)
      obtain ⟨-, twin, rfl, htwin⟩ := filledBy_of_setSlots hsettled hlength hmade
      rw [hmade, hfilled.unique hlast htwin]

/-- Of the assignments to a union the last one counts, and nothing before it. -/
theorem setSlots_union {active other : Option (String × Value)} {last : String × Input}
    (hlast : entries.getLast? = some last)
    (h : (Value.union record offset active).setSlots context entries = .ok after) :
    (Value.union record offset other).setSlots context [last] = .ok after := by
  induction entries generalizing active with
  | nil => contradiction
  | cons entry rest ih =>
      obtain ⟨next, hnext, h⟩ := setSlots_cons_eq_ok_iff.mp h
      obtain ⟨index, slotType, child, htarget, hchild, hassign⟩ :=
        result_assignWith_eq_ok_iff.mp (Update.result_eq_ok_iff.mpr hnext)
      cases rest with
      | nil =>
          cases hlast
          refine setSlots_cons_eq_ok_iff.mpr ⟨next, ?_, h⟩
          rw [← Update.result_eq_ok_iff, setSlot, result_assignWith_eq_ok_iff]
          exact ⟨index, slotType, child, htarget, hchild, hassign⟩
      | cons second rest =>
          rw [assign] at hassign
          obtain ⟨moved, -, rfl⟩ := moveTo_active_eq_done_iff.mp hassign
          exact ih (List.getLast?_cons_cons ▸ hlast) h

end Value

namespace Session

variable {context : Context} {session : Session}

/-- A list of assignments to a struct that succeeds may be put into any order that keeps the
entries of each name in turn, or be cut down to the last entry of each name; each assignment changes
the slot of its name and no other.  What a union holds after some assignments a new one holds after
the last of them. -/
theorem setSlots_any_order (hrun : CleanRun (start context) session) :
    (∀ record offset slots, session.Contains (.struct record offset slots) →
      (∀ entries after, (Value.struct record offset slots).setSlots context entries = .ok after →
        (∀ others : List (String × Input),
          (∀ name, others.filter (fun entry => entry.1 == name) =
            entries.filter fun entry => entry.1 == name) →
          (Value.struct record offset slots).setSlots context others = .ok after) ∧
        ∀ lasts : List (String × Input),
          (∀ name input, (name, input) ∈ lasts ↔ Input.lastNamed? entries name = some input) →
          (Value.struct record offset slots).setSlots context lasts = .ok after) ∧
      ∀ name input after,
        (Value.struct record offset slots).setSlot context name input = .done after →
        ∃ index moved, record.slotIndex? name = some index ∧
          after = .struct record offset (slots.set index (some moved))) ∧
    ∀ record offset active, session.Contains (.union record offset active) →
      ∀ entries last after, entries.getLast? = some last →
        (Value.union record offset active).setSlots context entries = .ok after →
        ∃ fresh placed, Value.empty record = .ok fresh ∧
          fresh.moveTo context offset = .done placed ∧
          placed.setSlots context [last] = .ok after := by
  have hkept : Call.KeptByCalls context (Value.AtRest context) :=
    ⟨Value.keptByMaking_atRest context, Value.atRest_of_readWithin⟩
  constructor
  · intro record offset slots hvalue
    have hrest := kept_of_cleanRun hkept hrun hvalue
    refine ⟨fun entries after h => ⟨fun others hothers => ?_, fun lasts hlasts => ?_⟩,
      fun name input after h => ?_⟩
    · refine Value.setSlots_congr hrest (Input.mem_of_filter_eq hothers) (fun name => ?_) h
      rw [Input.lastNamed?_eq_getLast?, hothers, ← Input.lastNamed?_eq_getLast?]
    · refine Value.setSlots_congr hrest (fun entry hentry => ?_)
        (Input.lastNamed?_of_mem_iff hlasts) h
      exact Input.mem_of_lastNamed? ((hlasts entry.1 entry.2).mp hentry)
    · obtain ⟨index, moved, hfills, hafter⟩ :=
        (Value.setSlot_settled_iff (hrest.settled_of_setSlot h) hrest.sound.shaped.here.2).mp h
      exact ⟨index, moved, hfills.slotIndex, hafter⟩
  · intro record offset active hvalue entries last after hlast h
    have hkind : record.kind = .union := by
      have hshaped := (shaped_of_contains hrun.run hvalue).here
      cases active with
      | none => exact hshaped
      | some => exact hshaped.1
    exact ⟨.union record 0 none, .union record offset none, by simp [Value.empty, hkind], rfl,
      Value.setSlots_union hlast h⟩

def tagEntry (number : UInt64) : String × Input :=
  ("tag", .scalar (.uint number))

def levelsEntry : String × Input :=
  ("levels", .items [.scalar (.uint 1)])

def largeEntry (number : UInt64) : String × Input :=
  ("large", .scalar (.uint number))

/-- The tag of a frame is assigned twice, with its levels in between; so is a slot of its body. -/
theorem setSlots_any_order_frame :
    ∃ session record active, CleanRun (start frameContext) session ∧
      session.held "frame" = some (.frameValue 0) ∧ session.Contains (.union record 2 active) ∧
      (∃ after,
        (Value.frameValue 0).setSlots frameContext [tagEntry 1, levelsEntry, tagEntry 2] =
          .ok after ∧
        (Value.frameValue 0).setSlots frameContext [levelsEntry, tagEntry 1, tagEntry 2] =
          .ok after ∧
        (Value.frameValue 0).setSlots frameContext [levelsEntry, tagEntry 2] = .ok after) ∧
      (∃ index moved,
        (Value.frameValue 0).setSlot frameContext "tag" (.scalar (.uint 1)) =
          .done ((Value.frameValue 0).put "tag" index moved)) ∧
      ∃ fresh placed after, Value.empty record = .ok fresh ∧
        fresh.moveTo frameContext 2 = .done placed ∧
        (Value.union record 2 active).setSlots frameContext [largeEntry 1, largeEntry 2] =
          .ok after ∧
        placed.setSlots frameContext [largeEntry 2] = .ok after := by
  obtain ⟨session, hrun, -, hheld⟩ := cleanRun_frame
  have hframe : session.Contains (.frameValue 0) := ⟨"frame", .frameValue 0, hheld, .refl⟩
  have hbody : session.Contains (.union (.union "choice" [⟨"small", "byte"⟩, ⟨"large", "word"⟩]) 2
      (some ("small", .scalar (.base "byte" 1 .unsigned) 2 (some (.uint 1))))) :=
    ⟨"frame", .frameValue 0, hheld, .single (by simp [Value.frameValue])⟩
  obtain ⟨hstruct, hunion⟩ := setSlots_any_order hrun
  obtain ⟨hlists, hslot⟩ := hstruct _ _ _ hframe
  obtain ⟨hothers, hlasts⟩ := hlists [tagEntry 1, levelsEntry, tagEntry 2] _ rfl
  have hfilters : ∀ name, [levelsEntry, tagEntry 1, tagEntry 2].filter (·.1 == name) =
      [tagEntry 1, levelsEntry, tagEntry 2].filter (·.1 == name) := by
    intro name
    by_cases htag : "tag" = name
    · subst htag
      rfl
    · simp [tagEntry, List.filter_cons, htag]
  have hlast : ∀ name input, (name, input) ∈ [levelsEntry, tagEntry 2] ↔
      Input.lastNamed? [tagEntry 1, levelsEntry, tagEntry 2] name = some input := by
    intro name input
    simp only [tagEntry, levelsEntry, Input.lastNamed?_cons]
    by_cases htag : "tag" = name
    · subst htag
      simp [Input.lastNamed?, eq_comm]
    · by_cases hlevels : "levels" = name
      · subst hlevels
        simp [Input.lastNamed?, eq_comm]
      · simp [Input.lastNamed?, htag, hlevels, Ne.symm htag, Ne.symm hlevels]
  obtain ⟨index, moved, -, hmoved⟩ := hslot "tag" (.scalar (.uint 1)) _ rfl
  obtain ⟨fresh, placed, hfresh, hplaced, hafter⟩ :=
    hunion _ _ _ hbody [largeEntry 1, largeEntry 2] _ _ rfl rfl
  exact ⟨session, _, _, hrun, hheld, hbody, ⟨_, rfl, hothers _ hfilters, hlasts _ hlast⟩,
    ⟨index, moved, congrArg Update.done hmoved⟩, fresh, placed, _, hfresh, hplaced, rfl, hafter⟩

end Session

end BinarySchema
