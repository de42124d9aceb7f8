import BinarySchema.Proofs.Value.Make

/-!
# Sound values

A value is sound in a context when its shape, the types of its parts and their places all agree with
the context.  Every way of making a value from sound ones gives a sound one; the shape alone is kept
without regard to the context.
-/

namespace BinarySchema.Value

variable {context : Context}

/-- Every node fits its type, has parts of the resolved types, and lies at its place. -/
structure Sound (context : Context) (value : Value) : Prop where
  shaped : value.Shaped
  typed : value.WellTyped context
  placed : value.CorrectlyPlaced context

theorem Sound.inside {value child : Value} (h : value.Sound context)
    (hmem : child ∈ value.children) : child.Sound context :=
  ⟨h.shaped.inside child hmem, h.typed.inside child hmem, h.placed.inside child hmem⟩

/-- The part in a slot of a struct has the type of the slot and its place in the layout. -/
theorem Sound.slot {record : TypeRecord} {offset : UInt64} {slots : List (Option Value)}
    {placements : List Placement} (h : (Value.struct record offset slots).Sound context)
    (hplacements : context.slotPlacements record = .ok placements) {index : Nat} {child : Value}
    (hchild : slots[index]? = some (some child)) :
    ∃ slot placement, record.slots[index]? = some slot ∧ placements[index]? = some placement ∧
      child.OfType context slot.typeName ∧
      child.offset.toNat = offset.toNat + placement.offset.toNat := by
  obtain ⟨slot, hslot, htype⟩ := h.typed.here index child hchild
  obtain ⟨others, placement, hothers, hplacement, hoffset⟩ := h.placed.here index child hchild
  cases hplacements.symm.trans hothers
  exact ⟨slot, placement, hslot, hplacement, htype, hoffset⟩

/-- An element of an array has the type of the elements and its place in their row. -/
theorem Sound.item {record : TypeRecord} {offset stride : UInt64} {items : List Value}
    {name : String} (h : (Value.array record offset items).Sound context)
    (helement : record.element = some name) (hstride : context.sizeOf name = .ok stride)
    {index : Nat} {item : Value} (hitem : items[index]? = some item) :
    item.OfType context name ∧ item.offset.toNat = offset.toNat + index * stride.toNat := by
  obtain ⟨other, hother, htype⟩ := h.typed.here item (List.mem_of_getElem? hitem)
  obtain ⟨found, width, hfound, hwidth, hoffset⟩ := h.placed.here index item hitem
  cases helement.symm.trans hother
  cases helement.symm.trans hfound
  cases hstride.symm.trans hwidth
  exact ⟨htype, hoffset⟩

theorem kind_ne_const_of_shaped {value : Value} (h : value.Shaped) :
    value.record.kind ≠ .const := by
  have hhere := h.here
  match value with
  | .scalar record _ _ =>
      intro hkind
      rw [Value.record] at hkind
      simp [ShapedHere, hkind, Kind.isScalar] at hhere
  | .struct .. => simp [Value.record, hhere.1]
  | .union _ _ none => simp [Value.record, show _ = Kind.union from hhere]
  | .union _ _ (some _) => simp [Value.record, hhere.1]
  | .array .. => simp [Value.record, show _ = Kind.array from hhere]

/-! ## Values of a kind -/

section

variable {value : Value}

theorem exists_eq_scalar (hshaped : value.ShapedHere) (hkind : value.record.kind.isScalar = true) :
    ∃ record offset content, value = .scalar record offset content := by
  match value with
  | .scalar record offset content => exact ⟨record, offset, content, rfl⟩
  | .struct .. | .union _ _ none | .union _ _ (some _) | .array .. =>
      simp_all [ShapedHere, Value.record, Kind.isScalar]

theorem exists_eq_struct (hshaped : value.ShapedHere) (hkind : value.record.kind = .struct) :
    ∃ record offset slots, value = .struct record offset slots := by
  match value with
  | .struct record offset slots => exact ⟨record, offset, slots, rfl⟩
  | .scalar .. | .union _ _ none | .union _ _ (some _) | .array .. =>
      simp_all [ShapedHere, Value.record, Kind.isScalar]

theorem exists_eq_union (hshaped : value.ShapedHere) (hkind : value.record.kind = .union) :
    ∃ record offset active, value = .union record offset active := by
  match value with
  | .union record offset active => exact ⟨record, offset, active, rfl⟩
  | .scalar .. | .struct .. | .array .. => simp_all [ShapedHere, Value.record, Kind.isScalar]

theorem exists_eq_array (hshaped : value.ShapedHere) (hkind : value.record.kind = .array) :
    ∃ record offset items, value = .array record offset items := by
  match value with
  | .array record offset items => exact ⟨record, offset, items, rfl⟩
  | .scalar .. | .union _ _ none | .union _ _ (some _) | .struct .. =>
      simp_all [ShapedHere, Value.record, Kind.isScalar]

end

/-! ## Sound values from sound parts -/

theorem sound_struct {record : TypeRecord} {offset : UInt64} {slots : List (Option Value)}
    (hkind : record.kind = .struct) (hlength : slots.length = record.slots.length)
    (hparts : ∀ (index : Nat) (child : Value), slots[index]? = some (some child) →
      child.Sound context ∧
      (∃ slot, record.slots[index]? = some slot ∧ child.OfType context slot.typeName) ∧
      ∃ placements placement, context.slotPlacements record = .ok placements ∧
        placements[index]? = some placement ∧
        child.offset.toNat = offset.toNat + placement.offset.toNat) :
    (Value.struct record offset slots).Sound context := by
  have hinside : ∀ child ∈ (Value.struct record offset slots).children, child.Sound context := by
    intro child hmem
    obtain ⟨index, hindex⟩ := List.getElem?_of_mem (mem_children_struct.mp hmem)
    exact (hparts index child hindex).1
  exact ⟨.node ⟨hkind, hlength⟩ fun child hmem => (hinside child hmem).shaped,
    .node (fun index child hchild => (hparts index child hchild).2.1)
      fun child hmem => (hinside child hmem).typed,
    .node (fun index child hchild => (hparts index child hchild).2.2)
      fun child hmem => (hinside child hmem).placed⟩

theorem sound_active {record : TypeRecord} {offset : UInt64} {name : String} {slot : Slot}
    {child : Value} (hkind : record.kind = .union) (hslot : record.slot? name = some slot)
    (hchild : child.Sound context) (htype : child.OfType context slot.typeName)
    (hoffset : child.offset = offset) :
    (Value.union record offset (some (name, child))).Sound context :=
  ⟨.node ⟨hkind, slot, hslot⟩ (by simpa using hchild.shaped),
    .node ⟨slot, hslot, htype⟩ (by simpa using hchild.typed),
    .node hoffset (by simpa using hchild.placed)⟩

theorem sound_array {record : TypeRecord} {offset : UInt64} {items : List Value}
    (hkind : record.kind = .array)
    (hitems : ∀ (index : Nat) (item : Value), items[index]? = some item →
      item.Sound context ∧ ∃ name stride, record.element = some name ∧
        item.OfType context name ∧ context.sizeOf name = .ok stride ∧
        item.offset.toNat = offset.toNat + index * stride.toNat) :
    (Value.array record offset items).Sound context := by
  have hinside : ∀ item ∈ items, item.Sound context := by
    intro item hmem
    obtain ⟨index, hindex⟩ := List.getElem?_of_mem hmem
    exact (hitems index item hindex).1
  refine ⟨.node hkind fun item hmem => (hinside item hmem).shaped,
    .node ?_ fun item hmem => (hinside item hmem).typed,
    .node ?_ fun item hmem => (hinside item hmem).placed⟩
  · intro item hmem
    obtain ⟨index, hindex⟩ := List.getElem?_of_mem hmem
    obtain ⟨-, name, stride, helement, htype, -, -⟩ := hitems index item hindex
    exact ⟨name, helement, htype⟩
  · intro index item hindex
    obtain ⟨-, name, stride, helement, -, hstride, hoffset⟩ := hitems index item hindex
    exact ⟨name, stride, helement, hstride, hoffset⟩

theorem sound_of_childless {value : Value} (hshaped : value.Shaped) (h : value.children = []) :
    value.Sound context := by
  match value with
  | .scalar .. | .union _ _ none =>
      exact ⟨hshaped, .node trivial (by simp), .node trivial (by simp)⟩
  | .union _ _ (some _) => simp [children] at h
  | .struct record offset slots =>
      exact sound_struct hshaped.here.1 hshaped.here.2 fun index child hchild =>
        absurd hchild (getElem?_ne_of_childless h index child)
  | .array record offset items =>
      refine sound_array hshaped.here fun index item hitem => ?_
      have hmem : item ∈ (Value.array record offset items).children := List.mem_of_getElem? hitem
      rw [h] at hmem
      contradiction

/-! ## Fresh values -/

theorem children_of_empty {record : TypeRecord} {value : Value} (h : empty record = .ok value) :
    value.children = [] := by
  unfold empty at h
  split at h <;> first | contradiction | (cases h; simp [children])

theorem shaped_of_empty {record : TypeRecord} {value : Value} (h : empty record = .ok value) :
    value.Shaped := by
  refine .node ?_ (by simp [children_of_empty h])
  unfold empty at h
  split at h <;> rename_i hkind
  all_goals first
    | contradiction
    | (cases h; simp [ShapedHere, hkind, Kind.isScalar])

theorem sound_of_empty {record : TypeRecord} {value : Value} (h : empty record = .ok value) :
    value.Sound context :=
  sound_of_childless (shaped_of_empty h) (children_of_empty h)

/-! ## Filling a slot -/

/-- The value with `child` in a slot, before its parts are placed anew. -/
def put (name : String) (index : Nat) (value child : Value) : Value :=
  match value with
  | .struct record offset slots => .struct record offset (slots.set index (some child))
  | .union record offset _ => .union record offset (some (name, child))
  | value => value

theorem assign_eq_moveTo_put {value : Value} {name : String} {index : Nat} {slotType : TypeRecord}
    (htarget : value.slotTarget context name = .ok (index, slotType)) (child : Value) :
    value.assign context name index child =
      (value.put name index child).moveTo context value.offset := by
  cases value with
  | scalar => contradiction
  | array => contradiction
  | struct => rfl
  | union => rfl

/-- An assignment to a slot fails at once or fills the slot and places all parts anew. -/
theorem setSlot_cases (context : Context) (value : Value) (name : String) (input : Input) :
    (∃ failure, value.setSlot context name input = .failed value failure) ∨
      ∃ index slotType part, value.slotTarget context name = .ok (index, slotType) ∧
        wrap context slotType input = .ok part ∧
        value.setSlot context name input =
          (value.put name index part).moveTo context value.offset := by
  unfold setSlot assignWith
  split
  · rename_i failure _
    exact .inl ⟨failure, rfl⟩
  · rename_i index slotType htarget
    split
    · rename_i failure _
      exact .inl ⟨failure, rfl⟩
    · rename_i part hpart
      exact .inr ⟨index, slotType, part, htarget, hpart, assign_eq_moveTo_put htarget part⟩

theorem forall_set {P : Nat → Value → Prop} {slots : List (Option Value)} {number : Nat}
    {part : Value} (hpart : P number part)
    (hslots : ∀ (index : Nat) (child : Value), slots[index]? = some (some child) → P index child)
    (index : Nat) (child : Value)
    (hchild : (slots.set number (some part))[index]? = some (some child)) : P index child := by
  rw [List.getElem?_set] at hchild
  split at hchild
  · rename_i heq
    split at hchild
    · cases hchild
      exact heq ▸ hpart
    · contradiction
  · exact hslots index child hchild

theorem everywhere_put {P : Value → Prop} {value child : Value} {name : String}
    {index : Nat} {slotType : TypeRecord}
    (htarget : value.slotTarget context name = .ok (index, slotType))
    (hhere : P (value.put name index child)) (hvalue : value.Everywhere P)
    (hchild : child.Everywhere P) : (value.put name index child).Everywhere P := by
  refine .node hhere fun part hpart => ?_
  cases value with
  | scalar => contradiction
  | array => contradiction
  | union record offset active =>
      simp only [put, children_active, List.mem_singleton] at hpart
      exact hpart ▸ hchild
  | struct record offset slots =>
      rcases List.mem_or_eq_of_mem_set (mem_children_struct.mp hpart) with hmem | heq
      · exact hvalue.inside part (mem_children_struct.mpr hmem)
      · cases heq
        exact hchild

theorem shapedHere_put {value : Value} {name : String} {index : Nat} {slotType : TypeRecord}
    (htarget : value.slotTarget context name = .ok (index, slotType)) (hvalue : value.ShapedHere)
    (child : Value) : (value.put name index child).ShapedHere := by
  obtain ⟨slot, -, hslot, -, -⟩ := slotTarget_eq_ok htarget
  cases value with
  | scalar => contradiction
  | array => contradiction
  | struct record offset slots => exact ⟨hvalue.1, by rw [List.length_set]; exact hvalue.2⟩
  | union record offset active =>
      refine ⟨?_, slot, hslot⟩
      cases active with
      | none => exact hvalue
      | some entry => exact hvalue.1

theorem shaped_put {value child : Value} {name : String} {index : Nat} {slotType : TypeRecord}
    (htarget : value.slotTarget context name = .ok (index, slotType)) (hvalue : value.Shaped)
    (hchild : child.Shaped) : (value.put name index child).Shaped :=
  everywhere_put htarget (shapedHere_put htarget hvalue.here child) hvalue hchild

theorem wellTyped_put {value child : Value} {name : String} {index : Nat} {slotType : TypeRecord}
    (htarget : value.slotTarget context name = .ok (index, slotType))
    (hvalue : value.WellTyped context) (hchild : child.WellTyped context)
    (hsame : child.record.Same slotType) : (value.put name index child).WellTyped context := by
  refine everywhere_put htarget ?_ hvalue hchild
  obtain ⟨slot, -, hslot, hindex, hresolve⟩ := slotTarget_eq_ok htarget
  cases value with
  | scalar => contradiction
  | array => contradiction
  | union record offset active => exact ⟨slot, hslot, slotType, hresolve, hsame⟩
  | struct record offset slots =>
      exact forall_set ⟨slot, hindex, slotType, hresolve, hsame⟩ hvalue.here

/-! ## The elementary steps -/

theorem shaped_append {record : TypeRecord} {offset : UInt64} {items : List Value} {item : Value}
    (harray : (Value.array record offset items).Shaped) (hitem : item.Shaped) :
    (Value.array record offset (items ++ [item])).Shaped := by
  refine .node harray.here fun part hpart => ?_
  rcases List.mem_append.mp hpart with hmem | hmem
  · exact harray.inside part hmem
  · exact List.mem_singleton.mp hmem ▸ hitem

theorem shaped_of_moveTo {value after : Value} {offset : UInt64} (hshaped : value.Shaped)
    (h : value.moveTo context offset = .done after) : after.Shaped := by
  have hmoved := hshaped.moveTo context offset
  rwa [h] at hmoved

/-- A property of nodes that does not look at offsets is kept when fresh values have it and when it
stays as slots are filled and elements are appended. -/
theorem keptByMaking_everywhere {P : Value → Prop}
    (hplaces : ∀ value : Value, P value.unplaced ↔ P value)
    (hfresh : ∀ value : Value, value.Shaped → value.children = [] → P value)
    (hput : ∀ {value : Value} {name : String} {index : Nat} {slotType : TypeRecord},
      value.slotTarget context name = .ok (index, slotType) → P value →
      ∀ child, P (value.put name index child))
    (happend : ∀ {record offset items}, P (.array record offset items) →
      ∀ item, P (.array record offset (items ++ [item]))) :
    KeptByMaking context (Everywhere P) where
  empty h :=
    .node (hfresh _ (shaped_of_empty h) (children_of_empty h)) (by simp [children_of_empty h])
  scalar _ _ hscalar := .node (hfresh _ (.node hscalar (by simp)) rfl) (by simp)
  assign hvalue htarget hchild _ hassign := by
    rw [assign_eq_moveTo_put htarget] at hassign
    exact everywhere_of_unplaced_eq hplaces (unplaced_of_moveTo hassign)
      (everywhere_put htarget (hput htarget hvalue.here _) hvalue hchild)
  append harray _ hchild _ _ hplaced := by
    refine .node (happend harray.here _) fun part hpart => ?_
    rcases List.mem_append.mp hpart with hmem | hmem
    · exact harray.inside part hmem
    · exact List.mem_singleton.mp hmem ▸
        everywhere_of_unplaced_eq hplaces (unplaced_of_moveTo hplaced) hchild
  moveTo hvalue hmove := everywhere_of_unplaced_eq hplaces (unplaced_of_moveTo hmove) hvalue
  inside hvalue hmem := hvalue.inside _ hmem

theorem keptByMaking_shaped (context : Context) : KeptByMaking context Shaped :=
  keptByMaking_everywhere (fun _ => shapedHere_unplaced) (fun _ hshaped _ => hshaped.here)
    shapedHere_put fun harray _ => harray

theorem sound_of_moveTo {value after : Value} {offset : UInt64} (hshaped : value.Shaped)
    (htyped : value.WellTyped context) (h : value.moveTo context offset = .done after) :
    after.Sound context := by
  have htypes := htyped.moveTo context offset
  rw [h] at htypes
  exact ⟨shaped_of_moveTo hshaped h, htypes, correctlyPlaced_of_moveTo hshaped h⟩

private theorem sound_append {record element : TypeRecord} {offset stride start : UInt64}
    {items : List Value} {child placed : Value}
    (harray : (Value.array record offset items).Sound context)
    (htype : context.elementType record = .ok (element, stride)) (hchild : child.Sound context)
    (hsame : child.record.Same element)
    (hstart : elementOffset offset items.length stride = .ok start)
    (hplaced : child.moveTo context start = .done placed) :
    (Value.array record offset (items ++ [placed])).Sound context := by
  obtain ⟨name, helement, hresolve, hstride⟩ := elementType_eq_ok_iff.mp htype
  refine sound_array harray.shaped.here fun index item hitem => ?_
  rcases Nat.lt_or_ge index items.length with hlt | hge
  · rw [List.getElem?_append_left hlt] at hitem
    have hmem := List.mem_of_getElem? hitem
    obtain ⟨element, helement', htype⟩ := harray.typed.here item hmem
    obtain ⟨other, size, hother, hsize, hoffset⟩ := harray.placed.here index item hitem
    cases helement'.symm.trans hother
    exact ⟨harray.inside hmem, element, size, helement', htype, hsize, hoffset⟩
  · have hindex : index = items.length := by
      have := (List.getElem?_eq_some_iff.mp hitem).1
      simp only [List.length_append, List.length_singleton] at this
      omega
    subst hindex
    simp only [List.getElem?_concat_length, Option.some.injEq] at hitem
    subst hitem
    refine ⟨sound_of_moveTo hchild.shaped hchild.typed hplaced, name, stride, helement, ?_, ?_, ?_⟩
    · exact ⟨element, hresolve, record_of_moveTo hplaced ▸ hsame⟩
    · exact Context.sizeOf_eq_ok_iff.mpr ⟨element, hresolve, hstride⟩
    · rw [offset_of_moveTo hplaced]
      exact elementOffset_eq_ok_iff.mp hstart

theorem keptByMaking_sound (context : Context) : KeptByMaking context (Sound context) where
  empty := sound_of_empty
  scalar _ _ hscalar := ⟨.node hscalar (by simp), .node trivial (by simp), .node trivial (by simp)⟩
  assign hvalue htarget hchild hsame hassign := by
    rw [assign_eq_moveTo_put htarget] at hassign
    exact sound_of_moveTo (shaped_put htarget hvalue.shaped hchild.shaped)
      (wellTyped_put htarget hvalue.typed hchild.typed hsame) hassign
  append := sound_append
  moveTo hvalue hmove := sound_of_moveTo hvalue.shaped hvalue.typed hmove
  inside := Sound.inside

/-! ## Setters that may fail -/

/-- A failure to replace the contents leaves the value as it was. -/
theorem left_set_of_error {value : Value} {input : Input} {failure : Error}
    (h : (value.set context input).outcome = .error failure) :
    (value.set context input).left = value := by
  unfold set at h ⊢
  split
  · rfl
  · split
    · simp_all
    · rfl

theorem left_push_of_error {value : Value} {input : Input} {failure : Error}
    (h : (value.push context input).outcome = .error failure) :
    (value.push context input).left = value := by
  unfold push at h ⊢
  split
  · simp_all
  · rfl

theorem left_set {P : Value → Prop} {value : Value} {input : Input} (hvalue : P value)
    (hnext : ∀ next, value.set context input = .done next → P next) :
    P (value.set context input).left :=
  Update.left_of_atomic (fun _ => left_set_of_error) hvalue hnext

theorem left_push {P : Value → Prop} {value : Value} {input : Input} (hvalue : P value)
    (hnext : ∀ next, value.push context input = .done next → P next) :
    P (value.push context input).left :=
  Update.left_of_atomic (fun _ => left_push_of_error) hvalue hnext

theorem shaped_setSlot {value : Value} {name : String} {input : Input} (hvalue : value.Shaped)
    (hinput : ∀ existing ∈ input.embedded, existing.Shaped) :
    (value.setSlot context name input).left.Shaped := by
  rcases setSlot_cases context value name input with
    ⟨failure, hset⟩ | ⟨index, slotType, part, htarget, hpart, hset⟩ <;> rw [hset]
  · exact hvalue
  · have hshaped := ((keptByMaking_shaped context).wrap hinput hpart).1
    exact (shaped_put htarget hvalue hshaped).moveTo _ _

/-! ## Places after a success -/

theorem exists_put_of_setSlot {value next : Value} {name : String} {input : Input}
    (h : value.setSlot context name input = .done next) :
    ∃ index slotType part, value.slotTarget context name = .ok (index, slotType) ∧
      wrap context slotType input = .ok part ∧
      (value.put name index part).moveTo context value.offset = .done next := by
  rcases setSlot_cases context value name input with
    ⟨failure, hset⟩ | ⟨index, slotType, part, htarget, hpart, hset⟩
  · exact absurd (hset.symm.trans h) (Update.failed_ne_done _ _ _)
  · exact ⟨index, slotType, part, htarget, hpart, hset ▸ h⟩

/-- Assigning to a slot places the whole value, wherever its parts lay before. -/
theorem correctlyPlaced_of_setSlot {value next : Value} {name : String} {input : Input}
    (hvalue : value.Shaped) (hinput : ∀ existing ∈ input.embedded, existing.Shaped)
    (h : value.setSlot context name input = .done next) : next.CorrectlyPlaced context := by
  obtain ⟨index, slotType, part, htarget, hpart, hmove⟩ := exists_put_of_setSlot h
  have hshaped := ((keptByMaking_shaped context).wrap hinput hpart).1
  exact correctlyPlaced_of_moveTo (shaped_put htarget hvalue hshaped) hmove

theorem correctlyPlaced_of_set {value next : Value} {input : Input}
    (hinput : ∀ existing ∈ input.embedded, existing.Shaped)
    (h : value.set context input = .done next) : next.CorrectlyPlaced context := by
  obtain ⟨made, hmade, hmove⟩ := set_eq_done h
  exact correctlyPlaced_of_moveTo ((keptByMaking_shaped context).wrap hinput hmade).1 hmove

end BinarySchema.Value
