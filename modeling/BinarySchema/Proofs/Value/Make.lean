import BinarySchema.Proofs.Value.Move
import BinarySchema.Value.Wrap

/-!
# Making values

A property that the elementary steps keep (filling a slot, appending an element, moving) holds of
every value that can be made from raw material and from values that have it.  Making a value of some
type gives a value of that type.
-/

namespace BinarySchema

/-! ## Raw material -/

namespace Input

@[elab_as_elim]
theorem induction {motive : Input → Prop}
    (scalar : ∀ content, motive (.scalar content))
    (fields : ∀ entries, (∀ name input, (name, input) ∈ entries → motive input) →
      motive (.fields entries))
    (items : ∀ elements, (∀ input ∈ elements, motive input) → motive (.items elements))
    (value : ∀ existing, motive (.value existing)) :
    ∀ input, motive input
  | .scalar content => scalar content
  | .fields entries => fields entries fun _ input _ => induction scalar fields items value input
  | .items elements => items elements fun input _ => induction scalar fields items value input
  | .value existing => value existing
termination_by input => input
decreasing_by
  all_goals try decreasing_tactic
  have hlt := List.sizeOf_lt_of_mem ‹(_, input) ∈ entries›
  simp only [Prod.mk.sizeOf_spec] at hlt
  simp only [Input.fields.sizeOf_spec]
  omega

mutual

def embedded : Input → List Value
  | .scalar _ => []
  | .fields entries => embeddedFields entries
  | .items elements => embeddedItems elements
  | .value existing => [existing]

def embeddedFields : List (String × Input) → List Value
  | [] => []
  | (_, input) :: rest => embedded input ++ embeddedFields rest

def embeddedItems : List Input → List Value
  | [] => []
  | input :: rest => embedded input ++ embeddedItems rest

end

theorem embedded_subset_fields {entries : List (String × Input)} {name : String} {input : Input}
    (hmem : (name, input) ∈ entries) : input.embedded ⊆ (fields entries).embedded := by
  change input.embedded ⊆ embeddedFields entries
  induction entries with
  | nil => contradiction
  | cons entry rest ih =>
      obtain ⟨first, head⟩ := entry
      rcases List.mem_cons.mp hmem with heq | hmem
      · cases heq
        exact List.subset_append_left _ _
      · exact List.subset_append_of_subset_right _ (ih hmem)

theorem embedded_subset_items {elements : List Input} {input : Input}
    (hmem : input ∈ elements) : input.embedded ⊆ (items elements).embedded := by
  change input.embedded ⊆ embeddedItems elements
  induction elements with
  | nil => contradiction
  | cons head rest ih =>
      rcases List.mem_cons.mp hmem with rfl | hmem
      · exact List.subset_append_left _ _
      · exact List.subset_append_of_subset_right _ (ih hmem)

end Input

namespace Value

variable {context : Context}

/-! ## Elementary steps -/

theorem slotTarget_eq_ok {value : Value} {name : String} {index : Nat} {slotType : TypeRecord}
    (h : value.slotTarget context name = .ok (index, slotType)) :
    ∃ slot, value.record.slotIndex? name = some index ∧ value.record.slot? name = some slot ∧
      value.record.slots[index]? = some slot ∧
      context.resolve? slot.typeName = some slotType := by
  unfold slotTarget at h
  cases value with
  | scalar => contradiction
  | array => contradiction
  | struct | union =>
      simp only at h
      split at h
      · rename_i found slot hindex hslot
        obtain ⟨part, hpart, hpure⟩ := bind_eq_ok_iff.mp h
        simp only [pure, Except.pure, Except.ok.injEq, Prod.mk.injEq] at hpure
        obtain ⟨rfl, rfl⟩ := hpure
        refine ⟨slot, hindex, hslot, ?_, Context.require_eq_ok_iff.mp hpart⟩
        unfold TypeRecord.slotIndex? at hindex
        unfold TypeRecord.slot? at hslot
        rw [List.find?_eq_bind_findIdx?_getElem?, hindex] at hslot
        exact hslot
      · contradiction

/-- The first slot of a name is the target in a struct or union that declares the name. -/
theorem exists_slotTarget {value : Value} {name : String} {slot : Slot} {slotType : TypeRecord}
    (hshaped : value.ShapedHere) (hkind : value.record.kind = .struct ∨ value.record.kind = .union)
    (hslot : value.record.slot? name = some slot)
    (hresolve : context.resolve? slot.typeName = some slotType) :
    ∃ index, value.slotTarget context name = .ok (index, slotType) := by
  obtain ⟨index, hindex, -⟩ : ∃ index, value.record.slotIndex? name = some index ∧
      value.record.slots[index]? = some slot := by
    rw [TypeRecord.slot?, List.find?_eq_bind_findIdx?_getElem?, Option.bind_eq_some_iff] at hslot
    exact hslot
  refine ⟨index, ?_⟩
  cases value with
  | scalar | array =>
      rcases hkind with hkind | hkind <;> simp_all [ShapedHere, Value.record, Kind.isScalar]
  | struct | union =>
      simp only [slotTarget, hindex, hslot, Context.require_eq_ok_iff.mpr hresolve]
      rfl

theorem result_assignWith_eq_ok_iff {value next : Value} {name : String}
    {make : TypeRecord → Except Error Value} :
    (value.assignWith context name make).result = .ok next ↔
      ∃ index slotType child, value.slotTarget context name = .ok (index, slotType) ∧
        make slotType = .ok child ∧ value.assign context name index child = .done next := by
  unfold assignWith
  split
  · rename_i failure htarget
    simp [htarget]
  · rename_i index slotType htarget
    split
    · rename_i failure hmake
      simp only [Update.result_failed, reduceCtorEq, false_iff]
      rintro ⟨index, slotType, child, htarget', hmake', -⟩
      cases htarget.symm.trans htarget'
      rw [hmake] at hmake'
      contradiction
    · rename_i child hmake
      rw [Update.result_eq_ok_iff]
      constructor
      · intro h
        exact ⟨index, slotType, child, htarget, hmake, h⟩
      · rintro ⟨index, slotType, child, htarget', hmake', h⟩
        cases htarget.symm.trans htarget'
        cases hmake.symm.trans hmake'
        exact h

theorem elementType_eq_ok_iff {record element : TypeRecord} {stride : UInt64} :
    context.elementType record = .ok (element, stride) ↔
      ∃ name, record.element = some name ∧ context.resolve? name = some element ∧
        context.sizeOfRecord element = .ok stride := by
  simp only [Context.elementType, bind_eq_ok_iff, Context.elementName_eq_ok_iff,
    Context.require_eq_ok_iff, pure, Except.pure, Except.ok.injEq, Prod.mk.injEq]
  constructor
  · rintro ⟨name, hname, part, hpart, size, hsize, rfl, rfl⟩
    exact ⟨name, hname, hpart, hsize⟩
  · rintro ⟨name, hname, hpart, hsize⟩
    exact ⟨name, hname, element, hpart, stride, hsize, rfl, rfl⟩

theorem pushWith_array_eq_ok_iff {record : TypeRecord} {offset : UInt64} {items : List Value}
    {next : Value} {make : TypeRecord → Except Error Value} :
    (Value.array record offset items).pushWith context make = .ok next ↔
      ∃ element stride child start placed,
        context.elementType record = .ok (element, stride) ∧ make element = .ok child ∧
        elementOffset offset items.length stride = .ok start ∧
        child.moveTo context start = .done placed ∧
        next = .array record offset (items ++ [placed]) := by
  simp only [pushWith, bind_eq_ok_iff, pure, Except.pure, Except.ok.injEq,
    Update.result_eq_ok_iff]
  constructor
  · rintro ⟨⟨element, stride⟩, htype, child, hmake, start, hstart, placed, hplaced, rfl⟩
    exact ⟨element, stride, child, start, placed, htype, hmake, hstart, hplaced, rfl⟩
  · rintro ⟨element, stride, child, start, placed, htype, hmake, hstart, hplaced, rfl⟩
    exact ⟨(element, stride), htype, child, hmake, start, hstart, placed, hplaced, rfl⟩

theorem pushWith_eq_ok {value next : Value} {make : TypeRecord → Except Error Value}
    (h : value.pushWith context make = .ok next) :
    ∃ record offset items element stride child start placed,
      value = .array record offset items ∧ context.elementType record = .ok (element, stride) ∧
      make element = .ok child ∧ elementOffset offset items.length stride = .ok start ∧
      child.moveTo context start = .done placed ∧
      next = .array record offset (items ++ [placed]) := by
  cases value with
  | scalar => contradiction
  | struct => contradiction
  | union => contradiction
  | array record offset items =>
      obtain ⟨element, stride, child, start, placed, hpushed⟩ := pushWith_array_eq_ok_iff.mp h
      exact ⟨record, offset, items, element, stride, child, start, placed, rfl, hpushed⟩

theorem wrapFields_cons_eq_ok_iff {target made : Value} {name : String} {input : Input}
    {rest : List (String × Input)} :
    wrapFields context target ((name, input) :: rest) = .ok made ↔
      ∃ next, (target.assignWith context name fun slotType =>
          wrap context slotType input).result = .ok next ∧
        wrapFields context next rest = .ok made := by
  rw [wrapFields]
  cases (target.assignWith context name fun slotType => wrap context slotType input).result <;> simp

theorem wrapItems_cons_eq_ok_iff {target made : Value} {input : Input} {rest : List Input} :
    wrapItems context target (input :: rest) = .ok made ↔
      ∃ next, target.pushWith context (fun element => wrap context element input) = .ok next ∧
        wrapItems context next rest = .ok made := by
  rw [wrapItems]
  cases target.pushWith context fun element => wrap context element input <;> simp

@[simp] theorem record_assign (context : Context) (value child : Value) (name : String)
    (index : Nat) : (value.assign context name index child).left.record = value.record := by
  cases value with
  | scalar | array => rfl
  | struct | union => exact record_moveTo ..

theorem record_of_assign {value child next : Value} {name : String} {index : Nat}
    (h : value.assign context name index child = .done next) : next.record = value.record := by
  simpa [h] using record_assign context value child name index

/-! ## Conversions as material -/

theorem wrap_value (context : Context) (record : TypeRecord) (existing : Value) :
    wrap context record (.value existing) = convert context record existing := by
  rw [wrap]

/-- The set slots of a struct as entries. -/
def slotEntries (slots : List Slot) (entries : List (Option Value)) : List (String × Input) :=
  (slots.zip entries).filterMap fun part => part.2.map fun child => (part.1.name, .value child)

theorem mem_slotEntries {slots : List Slot} {entries : List (Option Value)} {name : String}
    {input : Input} :
    (name, input) ∈ slotEntries slots entries ↔ ∃ (index : Nat) (slot : Slot) (child : Value),
      slots[index]? = some slot ∧ entries[index]? = some (some child) ∧ slot.name = name ∧
      input = .value child := by
  rw [slotEntries, List.mem_filterMap]
  simp only [Option.map_eq_some_iff, Prod.exists, List.mem_iff_getElem?,
    List.getElem?_zip_eq_some, Prod.mk.injEq]
  constructor
  · rintro ⟨slot, _, ⟨index, hslot, hentry⟩, child, rfl, hname, rfl⟩
    exact ⟨index, slot, child, hslot, hentry, hname, rfl⟩
  · rintro ⟨index, slot, child, hslot, hentry, hname, rfl⟩
    exact ⟨slot, some child, ⟨index, hslot, hentry⟩, child, rfl, hname, rfl⟩

theorem convertSlots_eq_wrapFields (target : Value) (slots : List Slot)
    (entries : List (Option Value)) :
    convertSlots context target slots entries =
      wrapFields context target (slotEntries slots entries) := by
  induction slots generalizing target entries with
  | nil => cases entries <;> rfl
  | cons slot slots ih =>
      match entries with
      | [] => rfl
      | none :: rest => exact ih target rest
      | some child :: rest =>
          have hentries : slotEntries (slot :: slots) (some child :: rest) =
              (slot.name, .value child) :: slotEntries slots rest := rfl
          simp only [convertSlots, hentries, wrapFields, wrap_value, ih]

theorem convertItems_eq_wrapItems (target : Value) (items : List Value) :
    convertItems context target items = wrapItems context target (items.map .value) := by
  induction items generalizing target with
  | nil => rfl
  | cons item rest ih => simp only [convertItems, List.map_cons, wrapItems, wrap_value, ih]

/-- A conversion that ends well leaves a value of the same type as it is, or makes a value from the
parts of the old one. -/
inductive ConvertStep (context : Context) (record : TypeRecord) : Value → Value → Prop
  | same {existing : Value} (hequal : existing.record.equal record = true) :
      ConvertStep context record existing existing
  | scalar {other own : TypeRecord} {offset start : UInt64} {content fresh : Option Scalar}
      (hempty : empty record = .ok (.scalar own start fresh)) :
      ConvertStep context record (.scalar other offset content) (.scalar record 0 content)
  | unset {other own : TypeRecord} {offset start : UInt64} {fresh : Option (String × Value)}
      (hempty : empty record = .ok (.union own start fresh)) :
      ConvertStep context record (.union other offset none) (.union own start fresh)
  | active {other own : TypeRecord} {offset start : UInt64} {name : String} {child made : Value}
      {fresh : Option (String × Value)} (hempty : empty record = .ok (.union own start fresh))
      (hfill : wrapFields context (.union own start fresh) [(name, .value child)] = .ok made) :
      ConvertStep context record (.union other offset (some (name, child))) made
  | struct {other own : TypeRecord} {offset start : UInt64} {slots fresh : List (Option Value)}
      {made : Value} (hempty : empty record = .ok (.struct own start fresh))
      (hfill : wrapFields context (.struct own start fresh) (slotEntries other.slots slots) =
        .ok made) : ConvertStep context record (.struct other offset slots) made
  | array {other own : TypeRecord} {offset start : UInt64} {items fresh : List Value}
      {made : Value} (hempty : empty record = .ok (.array own start fresh))
      (hfill : wrapItems context (.array own start fresh) (items.map .value) = .ok made) :
      ConvertStep context record (.array other offset items) made

theorem convertStep_of_convert {record : TypeRecord} {existing made : Value}
    (h : convert context record existing = .ok made) :
    ConvertStep context record existing made := by
  match existing with
  | .scalar other offset content =>
      unfold convert at h
      split at h
      · cases h
        exact .same ‹_›
      · split at h <;> cases h
        exact .scalar ‹_›
  | .struct other offset slots =>
      unfold convert at h
      split at h
      · cases h
        exact .same ‹_›
      · split at h
        · contradiction
        · rw [convertSlots_eq_wrapFields] at h
          exact .struct ‹_› h
        · contradiction
  | .union other offset none =>
      unfold convert at h
      split at h
      · cases h
        exact .same ‹_›
      · split at h <;> cases h
        exact .unset ‹_›
  | .union other offset (some (name, child)) =>
      unfold convert at h
      split at h
      · cases h
        exact .same ‹_›
      · split at h
        · contradiction
        · exact .active ‹_› (wrapFields_cons_eq_ok_iff.mpr ⟨made, by simpa only [wrap_value], rfl⟩)
        · contradiction
  | .array other offset items =>
      unfold convert at h
      split at h
      · cases h
        exact .same ‹_›
      · split at h
        · contradiction
        · rw [convertItems_eq_wrapItems] at h
          exact .array ‹_› h
        · contradiction

/-! ## Properties kept by making values -/

/-- The elementary steps from which every way of making a value is put together lead from values
with a property to values with it. -/
structure KeptByMaking (context : Context) (I : Value → Prop) : Prop where
  empty : ∀ {record value}, Value.empty record = .ok value → I value
  scalar : ∀ {record} offset content, record.kind.isScalar = true →
    I (.scalar record offset content)
  assign : ∀ {value child next : Value} {name index slotType}, I value →
    value.slotTarget context name = .ok (index, slotType) → I child → child.record.Same slotType →
    value.assign context name index child = .done next → I next
  append : ∀ {record offset items element stride start} {child placed : Value},
    I (.array record offset items) → context.elementType record = .ok (element, stride) →
    I child → child.record.Same element → elementOffset offset items.length stride = .ok start →
    child.moveTo context start = .done placed → I (.array record offset (items ++ [placed]))
  moveTo : ∀ {value after : Value} {offset}, I value → value.moveTo context offset = .done after →
    I after
  inside : ∀ {value child : Value}, I value → child ∈ value.children → I child

theorem set_eq_done {value next : Value} {input : Input}
    (h : value.set context input = .done next) :
    ∃ made, wrap context value.record input = .ok made ∧
      made.moveTo context value.offset = .done next := by
  unfold set at h
  split at h
  · exact absurd h (Update.failed_ne_done _ _ _)
  · rename_i made hmade
    split at h
    · rename_i placed hplaced
      cases h
      exact ⟨made, hmade, Update.result_eq_ok_iff.mp hplaced⟩
    · exact absurd h (Update.failed_ne_done _ _ _)

theorem record_of_empty {record : TypeRecord} {value : Value} (h : empty record = .ok value) :
    value.record = record := by
  unfold empty at h
  split at h <;> first | contradiction | (cases h; rfl)

theorem isScalar_of_empty {record own : TypeRecord} {offset : UInt64} {content : Option Scalar}
    (h : empty record = .ok (.scalar own offset content)) : record.kind.isScalar = true := by
  unfold empty at h
  split at h <;> rename_i hkind <;> simp_all [Kind.isScalar]

/-- What is made for a type has the property and is of that type. -/
def MakesKept (I : Value → Prop) (make : TypeRecord → Except Error Value) : Prop :=
  ∀ record made, make record = .ok made → I made ∧ made.record.Same record

namespace KeptByMaking

variable {I : Value → Prop} (hkept : KeptByMaking context I)

include hkept

theorem assignWith {value next : Value} {name : String} {make : TypeRecord → Except Error Value}
    (hvalue : I value) (hmake : MakesKept I make)
    (h : (value.assignWith context name make).result = .ok next) :
    I next ∧ next.record = value.record := by
  obtain ⟨index, slotType, child, htarget, hchild, hassign⟩ := result_assignWith_eq_ok_iff.mp h
  obtain ⟨hchild, hsame⟩ := hmake slotType child hchild
  exact ⟨hkept.assign hvalue htarget hchild hsame hassign, record_of_assign hassign⟩

theorem pushWith {value next : Value} {make : TypeRecord → Except Error Value} (hvalue : I value)
    (hmake : MakesKept I make) (h : value.pushWith context make = .ok next) :
    I next ∧ next.record = value.record := by
  obtain ⟨record, offset, items, element, stride, child, start, placed, rfl, htype, hchild, hstart,
    hplaced, rfl⟩ := pushWith_eq_ok h
  obtain ⟨hchild, hsame⟩ := hmake element child hchild
  exact ⟨hkept.append hvalue htype hchild hsame hstart hplaced, rfl⟩

private theorem wrapFields {target made : Value} {entries : List (String × Input)}
    (htarget : I target)
    (hentries : ∀ name input, (name, input) ∈ entries →
      MakesKept I fun record => wrap context record input)
    (h : wrapFields context target entries = .ok made) :
    I made ∧ made.record = target.record := by
  induction entries generalizing target with
  | nil =>
      cases h
      exact ⟨htarget, rfl⟩
  | cons entry rest ih =>
      obtain ⟨name, input⟩ := entry
      obtain ⟨next, hnext, h⟩ := wrapFields_cons_eq_ok_iff.mp h
      obtain ⟨hnext, hrecord⟩ := hkept.assignWith htarget (hentries name input (.head _)) hnext
      obtain ⟨hmade, hsame⟩ :=
        ih hnext (fun name input hmem => hentries name input (.tail _ hmem)) h
      exact ⟨hmade, hsame.trans hrecord⟩

private theorem wrapItems {target made : Value} {elements : List Input} (htarget : I target)
    (helements : ∀ input ∈ elements, MakesKept I fun record => wrap context record input)
    (h : wrapItems context target elements = .ok made) :
    I made ∧ made.record = target.record := by
  induction elements generalizing target with
  | nil =>
      cases h
      exact ⟨htarget, rfl⟩
  | cons input rest ih =>
      obtain ⟨next, hnext, h⟩ := wrapItems_cons_eq_ok_iff.mp h
      obtain ⟨hnext, hrecord⟩ := hkept.pushWith htarget (helements input (.head _)) hnext
      obtain ⟨hmade, hsame⟩ := ih hnext (fun input hmem => helements input (.tail _ hmem)) h
      exact ⟨hmade, hsame.trans hrecord⟩

/-- Converting a value with the property gives one with it, of the wanted type. -/
theorem convert {record : TypeRecord} {existing made : Value} (hexisting : I existing)
    (h : convert context record existing = .ok made) : I made ∧ made.record.Same record := by
  induction existing using Value.induction generalizing record made with
  | scalar other offset content =>
      cases convertStep_of_convert h with
      | same hequal => exact ⟨hexisting, .inr hequal⟩
      | scalar hempty => exact ⟨hkept.scalar 0 content (isScalar_of_empty hempty), .refl _⟩
  | unset other offset =>
      cases convertStep_of_convert h with
      | same hequal => exact ⟨hexisting, .inr hequal⟩
      | unset hempty => exact ⟨hkept.empty hempty, .inl (record_of_empty hempty)⟩
  | active other offset name child ih =>
      cases convertStep_of_convert h with
      | same hequal => exact ⟨hexisting, .inr hequal⟩
      | active hempty hfill =>
          have hchild : MakesKept I fun record => Value.wrap context record (.value child) :=
            fun record made hmake =>
              ih (hkept.inside hexisting (by simp)) (wrap_value .. ▸ hmake)
          obtain ⟨hmade, hrecord⟩ :=
            hkept.wrapFields (hkept.empty hempty) (by simpa using hchild) hfill
          exact ⟨hmade, .inl (hrecord.trans (record_of_empty hempty))⟩
  | struct other offset slots ih =>
      cases convertStep_of_convert h with
      | same hequal => exact ⟨hexisting, .inr hequal⟩
      | struct hempty hfill =>
          have hentries : ∀ name input, (name, input) ∈ slotEntries other.slots slots →
              MakesKept I fun record => Value.wrap context record input := by
            intro name input hmem record made hmake
            obtain ⟨index, -, child, -, hchild, -, rfl⟩ := mem_slotEntries.mp hmem
            have hmem := List.mem_of_getElem? hchild
            exact ih child hmem (hkept.inside hexisting (mem_children_struct.mpr hmem))
              (wrap_value .. ▸ hmake)
          obtain ⟨hmade, hrecord⟩ := hkept.wrapFields (hkept.empty hempty) hentries hfill
          exact ⟨hmade, .inl (hrecord.trans (record_of_empty hempty))⟩
  | array other offset items ih =>
      cases convertStep_of_convert h with
      | same hequal => exact ⟨hexisting, .inr hequal⟩
      | array hempty hfill =>
          have hitems : ∀ input ∈ items.map Input.value,
              MakesKept I fun record => Value.wrap context record input := by
            intro input hmem record made hmake
            obtain ⟨item, hitem, rfl⟩ := List.mem_map.mp hmem
            exact ih item hitem (hkept.inside hexisting hitem) (wrap_value .. ▸ hmake)
          obtain ⟨hmade, hrecord⟩ := hkept.wrapItems (hkept.empty hempty) hitems hfill
          exact ⟨hmade, .inl (hrecord.trans (record_of_empty hempty))⟩

/-- Raw material that embeds only values with the property makes a value with it, of the wanted
type. -/
theorem wrap {record : TypeRecord} {input : Input} {made : Value}
    (hinput : ∀ existing ∈ input.embedded, I existing)
    (h : wrap context record input = .ok made) : I made ∧ made.record.Same record := by
  induction input using Input.induction generalizing record made with
  | scalar content =>
      unfold Value.wrap at h
      split at h
      · contradiction
      · rename_i own start fresh hempty
        cases h
        exact ⟨hkept.scalar 0 (some content) (isScalar_of_empty hempty), .refl _⟩
      · contradiction
  | value existing =>
      rw [wrap_value] at h
      exact hkept.convert (hinput existing (by simp [Input.embedded])) h
  | fields entries ih =>
      have hentries : ∀ name input, (name, input) ∈ entries →
          MakesKept I fun record => Value.wrap context record input := by
        intro name input hmem record made hmake
        refine ih name input hmem (fun existing hexisting => hinput existing ?_) hmake
        exact Input.embedded_subset_fields hmem hexisting
      unfold Value.wrap at h
      split at h
      · contradiction
      · rename_i own start fresh hempty
        obtain ⟨hmade, hrecord⟩ := hkept.wrapFields (hkept.empty hempty) hentries h
        exact ⟨hmade, .inl (hrecord.trans (record_of_empty hempty))⟩
      · rename_i own start fresh hempty
        obtain ⟨hmade, hrecord⟩ := hkept.wrapFields (hkept.empty hempty) hentries h
        exact ⟨hmade, .inl (hrecord.trans (record_of_empty hempty))⟩
      · contradiction
  | items elements ih =>
      have helements : ∀ input ∈ elements,
          MakesKept I fun record => Value.wrap context record input := by
        intro input hmem record made hmake
        refine ih input hmem (fun existing hexisting => hinput existing ?_) hmake
        exact Input.embedded_subset_items hmem hexisting
      unfold Value.wrap at h
      split at h
      · contradiction
      · rename_i own start fresh hempty
        obtain ⟨hmade, hrecord⟩ := hkept.wrapItems (hkept.empty hempty) helements h
        exact ⟨hmade, .inl (hrecord.trans (record_of_empty hempty))⟩
      · contradiction

/-! ### Setters that end well -/

theorem setSlot {value next : Value} {name : String} {input : Input} (hvalue : I value)
    (hinput : ∀ existing ∈ input.embedded, I existing)
    (h : value.setSlot context name input = .done next) : I next :=
  (hkept.assignWith hvalue (fun _ _ hmake => hkept.wrap hinput hmake)
    (Update.result_eq_ok_iff.mpr h)).1

theorem push {value next : Value} {input : Input} (hvalue : I value)
    (hinput : ∀ existing ∈ input.embedded, I existing)
    (h : value.push context input = .done next) : I next := by
  unfold Value.push at h
  split at h
  · rename_i appended happended
    cases h
    exact (hkept.pushWith hvalue (fun _ _ hmake => hkept.wrap hinput hmake) happended).1
  · exact absurd h (Update.failed_ne_done _ _ _)

theorem set {value next : Value} {input : Input}
    (hinput : ∀ existing ∈ input.embedded, I existing)
    (h : value.set context input = .done next) : I next := by
  obtain ⟨made, hmade, hmove⟩ := set_eq_done h
  exact hkept.moveTo (hkept.wrap hinput hmade).1 hmove

end KeptByMaking

end Value

end BinarySchema
