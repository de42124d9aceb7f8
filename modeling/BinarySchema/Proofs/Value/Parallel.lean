import BinarySchema.Proofs.Value.Extent

/-!
# Values side by side

Two values with the same parts, node by node, whose types, places and scalars are related.  Where one
of them lies in a correct place, the other can be moved to every place that is not behind it: the
offsets of the first show that no offset of the second leaves the range of a word.
-/

namespace BinarySchema.Value

/-- The same shapes throughout, nothing unset, with types, offsets and scalars related. -/
inductive Parallel (types : TypeRecord → TypeRecord → Prop) (places : UInt64 → UInt64 → Prop)
    (scalars : Scalar → Scalar → Prop) : Value → Value → Prop
  | scalar {record other : TypeRecord} {offset place : UInt64} {content stored : Scalar}
      (htypes : types record other) (hplaces : places offset place)
      (hscalars : scalars content stored) :
      Parallel types places scalars (.scalar record offset (some content))
        (.scalar other place (some stored))
  | struct {record other : TypeRecord} {offset place : UInt64} {parts twins : List Value}
      (htypes : types record other) (hplaces : places offset place)
      (hparts : List.Forall₂ (Parallel types places scalars) parts twins) :
      Parallel types places scalars (.struct record offset (parts.map some))
        (.struct other place (twins.map some))
  | union {record other : TypeRecord} {offset place : UInt64} {name : String} {part twin : Value}
      (htypes : types record other) (hplaces : places offset place)
      (hpart : Parallel types places scalars part twin) :
      Parallel types places scalars (.union record offset (some (name, part)))
        (.union other place (some (name, twin)))
  | array {record other : TypeRecord} {offset place : UInt64} {items twins : List Value}
      (htypes : types record other) (hplaces : places offset place)
      (hitems : List.Forall₂ (Parallel types places scalars) items twins) :
      Parallel types places scalars (.array record offset items) (.array other place twins)

variable {types types' : TypeRecord → TypeRecord → Prop} {places places' : UInt64 → UInt64 → Prop}
  {scalars scalars' : Scalar → Scalar → Prop} {value twin : Value}

namespace Parallel

theorem of_struct {record : TypeRecord} {offset : UInt64} {slots : List (Option Value)}
    (h : Parallel types places scalars (.struct record offset slots) twin) :
    ∃ other place parts twins, slots = parts.map some ∧ twin = .struct other place (twins.map some) ∧
      types record other ∧ places offset place ∧
      List.Forall₂ (Parallel types places scalars) parts twins := by
  cases h with
  | struct htypes hplaces hparts => exact ⟨_, _, _, _, rfl, rfl, htypes, hplaces, hparts⟩

/-- Two values parallel to a third are parallel to each other. -/
theorem combine {left right : Value} {types'' : TypeRecord → TypeRecord → Prop}
    {places'' : UInt64 → UInt64 → Prop} {scalars'' : Scalar → Scalar → Prop}
    (hleft : Parallel types places scalars value left)
    (hright : Parallel types' places' scalars' value right)
    (htypes : ∀ a b c, types a b → types' a c → types'' b c)
    (hplaces : ∀ a b c, places a b → places' a c → places'' b c)
    (hscalars : ∀ a b c, scalars a b → scalars' a c → scalars'' b c) :
    Parallel types'' places'' scalars'' left right := by
  induction value using Value.induction generalizing left right with
  | unset record offset => cases hleft
  | scalar record offset content =>
      cases hleft with
      | scalar ht hp hs =>
          cases hright with
          | scalar ht' hp' hs' =>
              exact .scalar (htypes _ _ _ ht ht') (hplaces _ _ _ hp hp') (hscalars _ _ _ hs hs')
  | active record offset name child ih =>
      cases hleft with
      | union ht hp hpart =>
          cases hright with
          | union ht' hp' hpart' =>
              exact .union (htypes _ _ _ ht ht') (hplaces _ _ _ hp hp') (ih hpart hpart')
  | struct record offset slots ih =>
      obtain ⟨_, _, parts, lefts, rfl, rfl, ht, hp, hlefts⟩ := hleft.of_struct
      obtain ⟨_, _, others, rights, heq, rfl, ht', hp', hrights⟩ := hright.of_struct
      obtain rfl : parts = others :=
        List.map_injective_iff.mpr (Option.some_injective Value) heq
      exact .struct (htypes _ _ _ ht ht') (hplaces _ _ _ hp hp')
        (forall₂_of_both hlefts hrights fun part hmem _ _ =>
          ih part (List.mem_map_of_mem hmem))
  | array record offset items ih =>
      cases hleft with
      | array ht hp hlefts =>
          cases hright with
          | array ht' hp' hrights =>
              exact .array (htypes _ _ _ ht ht') (hplaces _ _ _ hp hp')
                (forall₂_of_both hlefts hrights fun item hmem _ _ => ih item hmem)

end Parallel

/-! ## Moves that end well -/

section

variable {α : Type} {context : Context} {offset stride : UInt64} {R : α → Value → Prop}

/-- Slots of which each can be moved to its place can be moved together. -/
theorem exists_moveSlots {parts : List α} {slots : List (Option Value)}
    {placements : List Placement} (hslots : parts.length = slots.length)
    (hplacements : slots.length = placements.length)
    (h : ∀ (index : Nat) (part : α) (child : Value) (placement : Placement),
      parts[index]? = some part → slots[index]? = some (some child) →
      placements[index]? = some placement →
      ∃ start after, addOffset offset placement.offset = .ok start ∧
        child.moveTo context start = .done after ∧ R part after) :
    ∃ moved, moveSlots context offset placements slots = .done moved ∧
      List.Forall₂ (fun part entry => ∀ after, entry = some after → R part after) parts moved := by
  induction slots generalizing parts placements with
  | nil =>
      cases List.length_eq_zero_iff.mp hslots
      cases List.length_eq_zero_iff.mp hplacements.symm
      exact ⟨[], rfl, .nil⟩
  | cons entry rest ih =>
      obtain ⟨part, parts, rfl⟩ := List.exists_cons_of_length_eq_add_one hslots
      obtain ⟨placement, placements, rfl⟩ :=
        List.exists_cons_of_length_eq_add_one hplacements.symm
      simp only [List.length_cons, Nat.add_right_cancel_iff] at hslots hplacements
      obtain ⟨others, hothers, hrest⟩ := ih hslots hplacements fun index => h (index + 1)
      cases entry with
      | none =>
          refine ⟨none :: others, ?_, .cons (by simp) hrest⟩
          rw [moveSlots, hothers]
          rfl
      | some child =>
          obtain ⟨start, after, hstart, hafter, hR⟩ := h 0 part child placement rfl rfl rfl
          refine ⟨some after :: others, ?_, .cons (by simpa using hR) hrest⟩
          rw [moveSlots, hstart]
          exact Update.followedBy_eq_done_iff.mpr ⟨after, others, hafter, hothers, rfl⟩

theorem exists_moveItems {parts : List α} {items : List Value} {number : Nat}
    (hlength : parts.length = items.length)
    (h : ∀ (index : Nat) (part : α) (item : Value), parts[index]? = some part →
      items[index]? = some item →
      ∃ start after, elementOffset offset (number + index) stride = .ok start ∧
        item.moveTo context start = .done after ∧ R part after) :
    ∃ moved, moveItems context offset stride number items = .done moved ∧
      List.Forall₂ R parts moved := by
  induction items generalizing parts number with
  | nil =>
      cases List.length_eq_zero_iff.mp hlength
      exact ⟨[], rfl, .nil⟩
  | cons item rest ih =>
      obtain ⟨part, parts, rfl⟩ := List.exists_cons_of_length_eq_add_one hlength
      simp only [List.length_cons, Nat.add_right_cancel_iff] at hlength
      obtain ⟨others, hothers, hrest⟩ : ∃ moved,
          moveItems context offset stride (number + 1) rest = .done moved ∧
            List.Forall₂ R parts moved :=
        ih hlength fun index part other hpart hother => by
          rw [Nat.add_right_comm]
          exact h (index + 1) part other hpart hother
      obtain ⟨start, after, hstart, hafter, hR⟩ := h 0 part item rfl rfl
      rw [Nat.add_zero] at hstart
      refine ⟨after :: others, ?_, .cons hR hrest⟩
      rw [moveItems, hstart]
      exact Update.followedBy_eq_done_iff.mpr ⟨after, others, hafter, hothers, rfl⟩

end

/-- The second of two places lies a distance before the first. -/
def Before (distance : Nat) (place earlier : UInt64) : Prop :=
  place.toNat = earlier.toNat + distance

theorem before_of_le {offset start : UInt64} (h : start.toNat ≤ offset.toNat) :
    Before (offset.toNat - start.toNat) offset start := by
  simp only [Before]
  omega

theorem exists_addOffset {offset delta place start : UInt64}
    (hplace : place.toNat = offset.toNat + delta.toNat) (hle : start.toNat ≤ offset.toNat) :
    ∃ earlier, addOffset start delta = .ok earlier ∧ earlier.toNat ≤ place.toNat ∧
      place.toNat - earlier.toNat = offset.toNat - start.toNat := by
  have hlimit : place.toNat < UInt64.size := place.toNat_lt
  have hlt : start.toNat + delta.toNat < UInt64.size := by omega
  have hsum := addOffset_of_lt hlt
  have hearlier := addOffset_eq_ok_iff.mp hsum
  exact ⟨_, hsum, by omega, by omega⟩

theorem exists_elementOffset {offset stride place start : UInt64} {index : Nat}
    (hplace : place.toNat = offset.toNat + index * stride.toNat)
    (hle : start.toNat ≤ offset.toNat) :
    ∃ earlier, elementOffset start index stride = .ok earlier ∧ earlier.toNat ≤ place.toNat ∧
      place.toNat - earlier.toNat = offset.toNat - start.toNat := by
  have hlimit : place.toNat < UInt64.size := place.toNat_lt
  have hlt : start.toNat + index * stride.toNat < UInt64.size := by omega
  have hearlier := UInt64.toNat_ofNat_of_lt' hlt
  refine ⟨_, elementOffset_eq_ok_iff.mpr hearlier, ?_, ?_⟩ <;> rw [hearlier] <;> omega

variable {context : Context}

theorem Sound.exists_placements {record : TypeRecord} {offset : UInt64} {parts : List Value}
    (h : (Value.struct record offset (parts.map some)).Sound context) :
    ∃ placements, context.slotPlacements record = .ok placements ∧
      placements.length = parts.length := by
  have hlength : (parts.map some).length = record.slots.length := h.shaped.here.2
  rw [List.length_map] at hlength
  cases parts with
  | nil =>
      have hnone : record.slots = [] := List.length_eq_zero_iff.mp hlength.symm
      exact ⟨[], by simp [Context.slotPlacements, Context.slotPlacementsAt, hnone, placeSlots], rfl⟩
  | cons part rest =>
      obtain ⟨placements, -, hplacements, -⟩ := h.placed.here 0 part rfl
      exact ⟨placements, hplacements, (Context.length_slotPlacements hplacements).trans hlength.symm⟩

/-- The second value can be moved to the place of the first one or before it, and lies by one
distance before it then. -/
def MovesBefore (context : Context) (types : TypeRecord → TypeRecord → Prop)
    (scalars : Scalar → Scalar → Prop) (value twin : Value) : Prop :=
  ∀ start : UInt64, start.toNat ≤ value.offset.toNat →
    ∃ moved, twin.moveTo context start = .done moved ∧
      Parallel types (Before (value.offset.toNat - start.toNat)) scalars value moved

section

variable {record other : TypeRecord} {offset start : UInt64}

theorem isSome_of_moveTo {slots moved : List (Option Value)}
    (h : (Value.struct record offset slots).moveTo context start =
      .done (.struct record start moved)) :
    moved.map Option.isSome = slots.map Option.isSome := by
  have hunplaced := unplaced_of_moveTo h
  simp only [unplaced, unplacedSlots_eq_map, Value.struct.injEq, true_and] at hunplaced
  have hmap := congrArg (List.map Option.isSome) hunplaced
  simpa [List.map_map, Function.comp_def] using hmap

/-- Slots that can each be moved before the parts of a sound struct can be moved together. -/
theorem exists_moveTo_struct (place : UInt64) {parts : List Value} {slots : List (Option Value)}
    (hsound : (Value.struct record offset (parts.map some)).Sound context)
    (hsame : record.Same other) (hlength : parts.length = slots.length)
    (hmoves : ∀ (index : Nat) (part twin : Value), parts[index]? = some part →
      slots[index]? = some (some twin) → MovesBefore context types scalars part twin)
    (hle : start.toNat ≤ offset.toNat) :
    ∃ moved, (Value.struct other place slots).moveTo context start =
        .done (.struct other start moved) ∧
      List.Forall₂ (fun part entry => ∀ after, entry = some after →
        Parallel types (Before (offset.toNat - start.toNat)) scalars part after) parts moved ∧
      moved.map Option.isSome = slots.map Option.isSome := by
  obtain ⟨placements, hplacements, hcount⟩ := hsound.exists_placements
  obtain ⟨moved, hmoved, hafters⟩ : ∃ moved,
      moveSlots context start placements slots = .done moved ∧
      List.Forall₂ (fun part entry => ∀ after, entry = some after →
        Parallel types (Before (offset.toNat - start.toNat)) scalars part after) parts moved := by
    refine exists_moveSlots hlength (hlength.symm.trans hcount.symm)
      fun index part twin placement hpart htwin hplacement => ?_
    have hentry : (parts.map some)[index]? = some (some part) := by simp [hpart]
    obtain ⟨-, found, -, hfound, -, hoffset⟩ := hsound.slot hplacements hentry
    cases hplacement.symm.trans hfound
    obtain ⟨earlier, hearlier, hbefore, hdistance⟩ := exists_addOffset hoffset hle
    obtain ⟨after, hafter, hparallel⟩ := hmoves index part twin hpart htwin earlier hbefore
    exact ⟨earlier, after, hearlier, hafter, hdistance ▸ hparallel⟩
  have hmove : (Value.struct other place slots).moveTo context start =
      .done (.struct other start moved) :=
    moveTo_struct_eq_done_iff.mpr
      ⟨placements, moved, hsame.slotPlacements_eq ▸ hplacements, hmoved, rfl⟩
  exact ⟨moved, hmove, hafters, isSome_of_moveTo hmove⟩

/-- What can be moved before an element of a sound array can be moved to the place of that element in
an array that starts no later. -/
theorem exists_moveTo_item {items : List Value} {name : String} {stride : UInt64} {index : Nat}
    {item twin : Value} (hsound : (Value.array record offset items).Sound context)
    (helement : record.element = some name) (hstride : context.sizeOf name = .ok stride)
    (hitem : items[index]? = some item) (hmoves : MovesBefore context types scalars item twin)
    (hle : start.toNat ≤ offset.toNat) :
    ∃ earlier after, elementOffset start index stride = .ok earlier ∧
      twin.moveTo context earlier = .done after ∧
      Parallel types (Before (offset.toNat - start.toNat)) scalars item after := by
  obtain ⟨-, hoffset⟩ := hsound.item helement hstride hitem
  obtain ⟨earlier, hearlier, hbefore, hdistance⟩ := exists_elementOffset hoffset hle
  obtain ⟨after, hafter, hparallel⟩ := hmoves earlier hbefore
  exact ⟨earlier, after, hearlier, hafter, hdistance ▸ hparallel⟩

end

/-- What is parallel to a sound value can be moved to the place of that value or before it. -/
theorem movesBefore_of_parallel (htypes : ∀ a b, types a b → a.Same b)
    (hsound : value.Sound context) (h : Parallel types places scalars value twin) :
    MovesBefore context types scalars value twin := by
  intro start hle
  induction value using Value.induction generalizing twin start with
  | unset record offset => cases h
  | scalar record offset content =>
      cases h with
      | @scalar _ other _ _ _ stored htype _ hscalar =>
          exact ⟨.scalar other start (some stored), rfl, .scalar htype (before_of_le hle) hscalar⟩
  | active record offset name child ih =>
      cases h with
      | union htype _ hpart =>
          obtain rfl : child.offset = offset := hsound.placed.here
          obtain ⟨moved, hmoved, hchild⟩ := ih (hsound.inside (by simp)) hpart start hle
          exact ⟨_, moveTo_active_eq_done_iff.mpr ⟨moved, hmoved, rfl⟩,
            .union htype (before_of_le hle) hchild⟩
  | struct record offset slots ih =>
      obtain ⟨other, place, parts, twins, rfl, rfl, htype, -, htwins⟩ := h.of_struct
      have hlength : parts.length = (twins.map some).length := by
        rw [List.length_map, htwins.length_eq]
      have hmoves : ∀ (index : Nat) (part twin : Value), parts[index]? = some part →
          (twins.map some)[index]? = some (some twin) →
          MovesBefore context types scalars part twin := by
        intro index part twin hpart htwin
        have hmem : some part ∈ parts.map some := List.mem_map_of_mem (List.mem_of_getElem? hpart)
        have htwin : twins[index]? = some twin := by simpa using htwin
        exact ih part hmem (hsound.inside (mem_children_struct.mpr hmem))
          (rel_of_forall₂ htwins hpart htwin)
      obtain ⟨moved, hmove, hafters, hset⟩ :=
        exists_moveTo_struct place hsound (htypes _ _ htype) hlength hmoves hle
      have hnone : none ∉ moved := by
        intro hmem
        have hunset := List.mem_map_of_mem (f := Option.isSome) hmem
        rw [hset] at hunset
        simp at hunset
      obtain ⟨afters, rfl⟩ := exists_map_some hnone
      rw [List.forall₂_map_right_iff] at hafters
      exact ⟨_, hmove,
        .struct htype (before_of_le hle) (hafters.imp fun _ after h => h after rfl)⟩
  | array record offset items ih =>
      cases h with
      | @array _ other _ _ _ twins htype _ htwins =>
          cases htwins with
          | nil => exact ⟨_, rfl, .array htype (before_of_le hle) .nil⟩
          | @cons first twin rest twins hfirst hrest =>
              have htwins := List.Forall₂.cons hfirst hrest
              obtain ⟨name, stride, helement, hstride, -⟩ := hsound.placed.here 0 first rfl
              obtain ⟨moved, hmoved, hafters⟩ : ∃ moved,
                  moveItems context start stride 0 (twin :: twins) = .done moved ∧
                  List.Forall₂ (Parallel types (Before (offset.toNat - start.toNat)) scalars)
                    (first :: rest) moved := by
                refine exists_moveItems htwins.length_eq fun index item twin hitem htwin => ?_
                have hmem := List.mem_of_getElem? hitem
                rw [Nat.zero_add]
                exact exists_moveTo_item hsound helement hstride hitem
                  (ih item hmem (hsound.inside hmem) (rel_of_forall₂ htwins hitem htwin)) hle
              refine ⟨.array other start moved, ?_, .array htype (before_of_le hle) hafters⟩
              exact moveTo_array_eq_done_iff.mpr ⟨name, stride, moved,
                (htypes _ _ htype).element_eq.symm.trans helement, hstride, hmoved, rfl⟩

end BinarySchema.Value
