import BinarySchema.Proofs.Value.FromDocument
import BinarySchema.Proofs.Value.Reload

/-!
# The content of made values

What a value holds apart from types and places: scalars, struct slots and the active slot by name,
elements in order.  A made value carries exactly the content of the material, of which the last
entry of a name counts; a value that is converted to another type keeps its content.
-/

namespace BinarySchema

namespace Value

inductive Content where
  | scalar (stored : Option Scalar)
  | struct (fields : String → Option Content)
  | union (active : Option (String × Content))
  | array (items : List Content)

mutual

def content : Value → Content
  | .scalar _ _ stored => .scalar stored
  | .struct record _ slots =>
      .struct fun name =>
        (record.slotIndex? name).bind fun index => (slotContents slots)[index]?.join
  | .union _ _ none => .union none
  | .union _ _ (some (name, child)) => .union (some (name, content child))
  | .array _ _ items => .array (itemContents items)

def slotContents : List (Option Value) → List (Option Content)
  | [] => []
  | none :: rest => none :: slotContents rest
  | some child :: rest => some (content child) :: slotContents rest

def itemContents : List Value → List Content
  | [] => []
  | item :: rest => content item :: itemContents rest

end

theorem slotContents_eq_map (slots : List (Option Value)) :
    slotContents slots = slots.map (·.map content) := by
  induction slots with
  | nil => rfl
  | cons entry rest ih => cases entry <;> simp [slotContents, ih]

theorem itemContents_eq_map (items : List Value) : itemContents items = items.map content := by
  induction items with
  | nil => rfl
  | cons item rest ih => simp [itemContents, ih]

variable {context : Context} {record : TypeRecord} {offset : UInt64}

@[simp] theorem content_struct (slots : List (Option Value)) :
    (Value.struct record offset slots).content =
      .struct fun name => ((Value.struct record offset slots).slot? name).map content := by
  simp only [content, slotContents_eq_map, slot?]
  congr 1
  funext name
  cases record.slotIndex? name with
  | none => rfl
  | some index =>
      rw [Option.bind_some, List.getElem?_map]
      exact Option.join_map_eq_map_join

@[simp] theorem content_array (items : List Value) :
    (Value.array record offset items).content = .array (items.map content) := by
  rw [content, itemContents_eq_map]

theorem content_unplaced (value : Value) : value.unplaced.content = value.content := by
  induction value using Value.induction with
  | scalar | unset => rfl
  | active own place name child ih => simp [unplaced, content, ih]
  | struct own place slots ih =>
      have hslots : slotContents (unplacedSlots slots) = slotContents slots := by
        rw [unplacedSlots_eq_map, slotContents_eq_map, slotContents_eq_map, List.map_map]
        refine List.map_congr_left fun entry hmem => ?_
        cases entry with
        | none => rfl
        | some child => simp [ih child hmem]
      simp only [unplaced, content, hslots]
  | array own place items ih => simpa [unplaced, unplacedItems_eq_map] using ih

theorem content_of_moveTo {value after : Value} {place : UInt64}
    (h : value.moveTo context place = .done after) : after.content = value.content := by
  rw [← content_unplaced, unplaced_of_moveTo h, content_unplaced]

end Value

namespace Input

/-- The last entry of a name. -/
def lastNamed? (entries : List (String × Input)) (name : String) : Option Input :=
  (entries.reverse.find? fun entry => entry.1 == name).map Prod.snd

theorem lastNamed?_cons (first name : String) (input : Input) (rest : List (String × Input)) :
    lastNamed? ((first, input) :: rest) name =
      (lastNamed? rest name).or (if first = name then some input else none) := by
  rw [lastNamed?, lastNamed?, List.reverse_cons, List.find?_append, Option.map_or]
  by_cases hname : first = name <;> simp [hname]

theorem mem_of_lastNamed? {entries : List (String × Input)} {name : String} {input : Input}
    (h : lastNamed? entries name = some input) : (name, input) ∈ entries := by
  obtain ⟨⟨other, found⟩, hfound, rfl⟩ := Option.map_eq_some_iff.mp h
  obtain rfl : other = name := by simpa using List.find?_some hfound
  exact List.mem_reverse.mp (List.mem_of_find?_eq_some hfound)

theorem not_mem_of_lastNamed? {entries : List (String × Input)} {name : String}
    (h : lastNamed? entries name = none) (input : Input) : (name, input) ∉ entries := by
  intro hmem
  rw [lastNamed?, Option.map_eq_none_iff, List.find?_eq_none] at h
  simpa using h _ (List.mem_reverse.mpr hmem)

/-- A value with the content holds all that the material says, and nothing else. -/
inductive Carries : Input → Value.Content → Prop
  | scalar (stored : Scalar) : Carries (.scalar stored) (.scalar (some stored))
  | struct {entries : List (String × Input)} {fields : String → Option Value.Content}
      (hfields : ∀ name, Option.Rel Carries (lastNamed? entries name) (fields name)) :
      Carries (.fields entries) (.struct fields)
  | unset : Carries (.fields []) (.union none)
  | active {entries : List (String × Input)} {name : String} {input : Input}
      {content : Value.Content} (hlast : entries.getLast? = some (name, input))
      (hcontent : Carries input content) :
      Carries (.fields entries) (.union (some (name, content)))
  | array {elements : List Input} {items : List Value.Content}
      (hitems : List.Forall₂ Carries elements items) : Carries (.items elements) (.array items)
  | value (existing : Value) : Carries (.value existing) existing.content

theorem carries_value_iff {existing : Value} {content : Value.Content} :
    Carries (.value existing) content ↔ content = existing.content := by
  constructor
  · intro h
    cases h
    rfl
  · rintro rfl
    exact .value existing

end Input

namespace Value

variable {context : Context} {record : TypeRecord} {offset : UInt64}

/-! ## Filling slots -/

theorem name_of_slotIndex? {name : String} {index : Nat} (h : record.slotIndex? name = some index) :
    ∃ slot, record.slots[index]? = some slot ∧ slot.name = name := by
  obtain ⟨hlt, hname, -⟩ := List.findIdx?_eq_some_iff_getElem.mp h
  exact ⟨_, List.getElem?_eq_getElem hlt, by simpa using hname⟩

theorem slot?_set {slots : List (Option Value)} {name : String} {index : Nat}
    (hlength : slots.length = record.slots.length) (hindex : record.slotIndex? name = some index)
    (child : Value) (other : String) :
    (Value.struct record offset (slots.set index (some child))).slot? other =
      if name = other then some child else (Value.struct record offset slots).slot? other := by
  obtain ⟨slot, hslot, hname⟩ := name_of_slotIndex? hindex
  have hlt : index < slots.length := hlength ▸ (List.getElem?_eq_some_iff.mp hslot).1
  by_cases hother : name = other
  · subst hother
    simp [slot?, hindex, hlt]
  · rw [if_neg hother]
    simp only [slot?]
    split
    · rename_i position hposition
      obtain ⟨twin, htwin, hsame⟩ := name_of_slotIndex? hposition
      have hne : index ≠ position := by
        rintro rfl
        cases hslot.symm.trans htwin
        exact hother (hname.symm.trans hsame)
      rw [List.getElem?_set_ne hne]
    · rfl

/-- The fields of a struct after an assignment are those before, but for the one assigned. -/
theorem content_of_assign_struct {slots : List (Option Value)} {name : String} {index : Nat}
    {slotType : TypeRecord} {child next : Value} (hlength : slots.length = record.slots.length)
    (htarget : (Value.struct record offset slots).slotTarget context name = .ok (index, slotType))
    (hassign : (Value.struct record offset slots).assign context name index child = .done next) :
    ∃ filled, next = .struct record offset filled ∧ filled.length = record.slots.length ∧
      ∀ other, (next.slot? other).map content = if name = other then some child.content
        else ((Value.struct record offset slots).slot? other).map content := by
  obtain ⟨-, hindex, -⟩ := slotTarget_eq_ok htarget
  rw [assign] at hassign
  obtain ⟨placements, filled, -, -, rfl⟩ := moveTo_struct_eq_done_iff.mp hassign
  have hset := isSome_of_moveTo hassign
  have hcontent := content_of_moveTo hassign
  rw [content_struct, content_struct, Content.struct.injEq] at hcontent
  refine ⟨filled, rfl, ?_, fun other => ?_⟩
  · simpa [hlength] using congrArg List.length hset
  · rw [congrFun hcontent other, slot?_set hlength hindex]
    split <;> rfl

/-- Whatever the material makes carries it. -/
def CarriedWhenMade (context : Context) (input : Input) : Prop :=
  ∀ record made, wrap context record input = .ok made → input.Carries made.content

theorem MakesPart.carries {name : String} {input : Input} {part : Value}
    (h : MakesPart context name input part) (hmade : CarriedWhenMade context input) :
    input.Carries part.content := by
  obtain ⟨slotType, made, -, hwrap, hplaces⟩ := h
  rw [← content_unplaced, hplaces, content_unplaced]
  exact hmade slotType made hwrap

/-- Each field of a filled struct is what the last entry of its name makes, or what was there. -/
theorem fields_of_wrapFields {slots : List (Option Value)} {entries : List (String × Input)}
    {made : Value} (hlength : slots.length = record.slots.length)
    (hentries : ∀ name input, (name, input) ∈ entries → CarriedWhenMade context input)
    (h : wrapFields context (.struct record offset slots) entries = .ok made) :
    ∃ fields, made.content = .struct fields ∧ ∀ name,
      (∃ input part, Input.lastNamed? entries name = some input ∧ fields name = some part ∧
        input.Carries part) ∨
      (Input.lastNamed? entries name = none ∧
        fields name = ((Value.struct record offset slots).slot? name).map content) := by
  induction entries generalizing slots with
  | nil =>
      cases h
      exact ⟨_, content_struct slots, fun name => .inr ⟨rfl, rfl⟩⟩
  | cons entry rest ih =>
      obtain ⟨first, input⟩ := entry
      obtain ⟨next, hnext, h⟩ := wrapFields_cons_eq_ok_iff.mp h
      obtain ⟨index, slotType, child, htarget, hchild, hassign⟩ :=
        result_assignWith_eq_ok_iff.mp hnext
      obtain ⟨filled, rfl, hfilled, hslots⟩ :=
        content_of_assign_struct hlength htarget hassign
      obtain ⟨fields, hmade, hfields⟩ :=
        ih hfilled (fun name input hmem => hentries name input (.tail _ hmem)) h
      -- a field of the rest is what the last entry makes, unless no later entry has its name
      refine ⟨fields, hmade, fun name => ?_⟩
      rw [Input.lastNamed?_cons]
      obtain ⟨last, part, hlast, hpart⟩ | ⟨hlast, hpart⟩ := hfields name
      · exact .inl ⟨last, part, by rw [hlast, Option.some_or], hpart⟩
      · rw [hlast, Option.none_or]
        rw [hslots] at hpart
        by_cases hname : first = name
        · rw [if_pos hname] at hpart ⊢
          exact .inl ⟨input, child.content, rfl, hpart,
            hentries first input (.head _) slotType child hchild⟩
        · rw [if_neg hname] at hpart ⊢
          exact .inr ⟨rfl, hpart⟩

theorem carries_of_wrapItems {elements : List Input} {made : Value}
    (helements : ∀ input ∈ elements, CarriedWhenMade context input)
    (h : wrapItems context (.array record offset []) elements = .ok made) :
    ∃ contents, made.content = .array contents ∧ List.Forall₂ Input.Carries elements contents := by
  obtain ⟨items, rfl, hitems⟩ := items_of_wrapItems h
  refine ⟨items.map content, by rw [content_array, List.nil_append], ?_⟩
  rw [List.forall₂_map_right_iff]
  refine forall₂_of_getElem? hitems.length_eq fun index input item hinput hitem => ?_
  obtain ⟨name, -, hmakes⟩ := rel_of_forall₂ hitems hinput hitem
  exact hmakes.carries (helements input (List.mem_of_getElem? hinput))

/-! ## Slots that are the first of their names -/

/-- Every slot that is set is the first of its name. -/
def FirstHere : Value → Prop
  | .struct record _ slots => ∀ (index : Nat) (child : Value), slots[index]? = some (some child) →
      ∀ slot, record.slots[index]? = some slot → record.slotIndex? slot.name = some index
  | _ => True

theorem firstHere_of_distinctHere {value : Value} (h : value.DistinctHere) : value.FirstHere := by
  match value with
  | .scalar .. | .union .. | .array .. => trivial
  | .struct .. => exact fun _ _ _ _ hslot => TypeRecord.slotIndex?_of_nodup h hslot

theorem firstHere_unplaced {value : Value} : value.unplaced.FirstHere ↔ value.FirstHere := by
  match value with
  | .scalar .. | .union _ _ none | .union _ _ (some _) | .array .. => rfl
  | .struct own place slots => exact forall_unplacedSlots_iff

theorem firstHere_of_childless {value : Value} (h : value.children = []) : value.FirstHere := by
  match value with
  | .scalar .. | .union .. | .array .. => trivial
  | .struct own place slots =>
      exact fun index child hchild => absurd hchild (getElem?_ne_of_childless h index child)

theorem firstHere_put {value : Value} {name : String} {index : Nat} {slotType : TypeRecord}
    (htarget : value.slotTarget context name = .ok (index, slotType)) (hvalue : value.FirstHere)
    (child : Value) : (value.put name index child).FirstHere := by
  obtain ⟨-, hindex, -⟩ := slotTarget_eq_ok htarget
  cases value with
  | scalar | array => contradiction
  | union => trivial
  | struct own place slots =>
      obtain ⟨found, hfound, rfl⟩ := name_of_slotIndex? hindex
      refine forall_set (fun slot hslot => ?_) hvalue
      cases hslot.symm.trans hfound
      exact hindex

theorem keptByMaking_first (context : Context) : KeptByMaking context (Everywhere FirstHere) :=
  keptByMaking_everywhere (fun _ => firstHere_unplaced) (fun _ _ => firstHere_of_childless)
    firstHere_put fun _ _ => trivial

/-! ## What made values carry -/

/-- The last entry of a name is the slot of that name. -/
theorem lastNamed?_slotEntries {slots : List (Option Value)}
    (hfirst : (Value.struct record offset slots).FirstHere) (name : String) :
    Input.lastNamed? (slotEntries record.slots slots) name =
      ((Value.struct record offset slots).slot? name).map .value := by
  have hslot : ∀ child, (Value.struct record offset slots).slot? name = some child ↔
      (name, .value child) ∈ slotEntries record.slots slots := by
    intro child
    rw [mem_slotEntries]
    constructor
    · intro h
      simp only [slot?] at h
      split at h
      · rename_i index hindex
        obtain ⟨slot, hslot, hname⟩ := name_of_slotIndex? hindex
        exact ⟨index, slot, child, hslot, Option.join_eq_some_iff.mp h, hname, rfl⟩
      · contradiction
    · rintro ⟨index, slot, part, hslot, hpart, rfl, hinput⟩
      cases hinput
      simp only [slot?, hfirst index child hpart slot hslot, hpart, Option.join_some]
  cases hlast : Input.lastNamed? (slotEntries record.slots slots) name with
  | some input =>
      have hmem := Input.mem_of_lastNamed? hlast
      obtain ⟨-, -, child, -, -, -, rfl⟩ := mem_slotEntries.mp hmem
      rw [(hslot child).mpr hmem]
      rfl
  | none =>
      cases hfound : (Value.struct record offset slots).slot? name with
      | none => rfl
      | some child => exact absurd ((hslot child).mp hfound) (Input.not_mem_of_lastNamed? hlast _)

theorem slot?_of_childless {value : Value} (h : value.children = []) (name : String) :
    value.slot? name = none := by
  match value with
  | .scalar .. | .union _ _ none | .array .. => rfl
  | .union _ _ (some _) => simp [children] at h
  | .struct own place slots =>
      rw [Option.eq_none_iff_forall_ne_some]
      intro child hchild
      simp only [slot?] at hchild
      split at hchild
      · exact getElem?_ne_of_childless h _ child (Option.join_eq_some_iff.mp hchild)
      · contradiction

theorem carriedWhenMade_value {existing : Value}
    (h : ∀ record made, convert context record existing = .ok made →
      made.content = existing.content) : CarriedWhenMade context (.value existing) := by
  intro record made hmade
  rw [wrap_value] at hmade
  exact Input.carries_value_iff.mpr (h record made hmade)

/-- A value keeps its content when it is converted to another type. -/
theorem content_of_convert {existing made : Value} (hfirst : existing.Everywhere FirstHere)
    (h : convert context record existing = .ok made) : made.content = existing.content := by
  induction existing using Value.induction generalizing record made with
  | scalar other place stored => cases convertStep_of_convert h <;> rfl
  | unset other place =>
      cases convertStep_of_convert h with
      | same => rfl
      | @unset _ own _ start fresh hempty =>
          rcases fresh with _ | ⟨name, part⟩
          · rfl
          · exact absurd (children_of_empty hempty) (by simp)
  | active other place name child ih =>
      cases convertStep_of_convert h with
      | same => rfl
      | active hempty hfill =>
          obtain ⟨slot, part, -, rfl, hmakes⟩ := active_of_wrapFields hfill rfl
          have hcarries : Input.Carries (.value child) part.content :=
            hmakes.carries (carriedWhenMade_value fun _ _ hmade =>
              ih (hfirst.inside child (by simp)) hmade)
          simp only [content, Input.carries_value_iff.mp hcarries]
  | struct other place slots ih =>
      cases convertStep_of_convert h with
      | same => rfl
      | struct hempty hfill =>
          have hentries : ∀ name input, (name, input) ∈ slotEntries other.slots slots →
              CarriedWhenMade context input := by
            intro name input hmem
            obtain ⟨index, -, child, -, hchild, -, rfl⟩ := mem_slotEntries.mp hmem
            have hmem := List.mem_of_getElem? hchild
            exact carriedWhenMade_value fun _ _ hmade =>
              ih child hmem (hfirst.inside child (mem_children_struct.mpr hmem)) hmade
          obtain ⟨fields, hmade, hfields⟩ :=
            fields_of_wrapFields (shaped_of_empty hempty).here.2 hentries hfill
          rw [hmade, content_struct, Content.struct.injEq]
          funext name
          have hlast := lastNamed?_slotEntries hfirst.here name
          obtain ⟨input, part, hinput, hpart, hcarries⟩ | ⟨hnone, hpart⟩ := hfields name
          · obtain ⟨child, hchild, rfl⟩ := Option.map_eq_some_iff.mp (hlast.symm.trans hinput)
            rw [hpart, hchild, Input.carries_value_iff.mp hcarries]
            rfl
          · rw [hpart, slot?_of_childless (children_of_empty hempty),
              Option.map_eq_none_iff.mp (hlast.symm.trans hnone)]
  | array other place items ih =>
      cases convertStep_of_convert h with
      | same => rfl
      | @array _ own _ start _ fresh made hempty hfill =>
          obtain rfl : fresh = [] := children_of_empty hempty
          have helements : ∀ input ∈ items.map Input.value, CarriedWhenMade context input := by
            intro input hmem
            obtain ⟨item, hitem, rfl⟩ := List.mem_map.mp hmem
            exact carriedWhenMade_value fun _ _ hmade =>
              ih item hitem (hfirst.inside item hitem) hmade
          obtain ⟨contents, hmade, hcontents⟩ := carries_of_wrapItems helements hfill
          rw [List.forall₂_map_left_iff] at hcontents
          have hsame : items.map content = contents.map id :=
            map_eq_map_of_forall₂ hcontents fun item part hcarries =>
              (Input.carries_value_iff.mp hcarries).symm
          rw [hmade, content_array, hsame, List.map_id]

theorem carries_of_fields {entries : List (String × Input)} {made : Value}
    (hentries : ∀ name input, (name, input) ∈ entries → CarriedWhenMade context input)
    (h : wrap context record (.fields entries) = .ok made) :
    Input.Carries (.fields entries) made.content := by
  rcases kind_of_wrap_fields h with hkind | hkind
  · rw [wrap_struct hkind] at h
    obtain ⟨fields, hmade, hfields⟩ := fields_of_wrapFields (by simp) hentries h
    rw [hmade]
    refine .struct fun name => ?_
    obtain ⟨input, part, hlast, hpart, hcarries⟩ | ⟨hlast, hpart⟩ := hfields name
    · rw [hlast, hpart]
      exact .some hcarries
    · rw [hlast, hpart, slot?_of_childless (by simp [children])]
      exact .none
  · rw [wrap_union hkind] at h
    cases hlast : entries.getLast? with
    | none =>
        cases List.getLast?_eq_none_iff.mp hlast
        cases h
        exact .unset
    | some entry =>
        obtain ⟨slot, child, -, rfl, hmakes⟩ := active_of_wrapFields h hlast
        have hmem := List.mem_of_getLast? hlast
        exact .active hlast (hmakes.carries (hentries entry.1 entry.2 hmem))

/-- Whatever is made from material carries it. -/
theorem carriedWhenMade {input : Input}
    (hfirst : ∀ existing ∈ input.embedded, existing.Everywhere FirstHere) :
    CarriedWhenMade context input := by
  induction input using Input.induction with
  | scalar stored =>
      intro record made h
      rw [wrap_scalar (isScalar_of_wrap h)] at h
      cases h
      exact .scalar stored
  | value existing =>
      exact carriedWhenMade_value fun _ _ hmade =>
        content_of_convert (hfirst existing (by simp [Input.embedded])) hmade
  | fields entries ih =>
      intro record made h
      refine carries_of_fields (fun name input hmem => ?_) h
      refine ih name input hmem fun existing hmember => ?_
      exact hfirst existing (Input.embedded_subset_fields hmem hmember)
  | items elements ih =>
      intro record made h
      have helements : ∀ input ∈ elements, CarriedWhenMade context input := fun input hmem =>
        ih input hmem fun existing hmember =>
          hfirst existing (Input.embedded_subset_items hmem hmember)
      rw [wrap_array (kind_of_wrap_items h)] at h
      obtain ⟨contents, hmade, hcontents⟩ := carries_of_wrapItems helements h
      exact hmade ▸ .array hcontents

/-- A made value is of the wanted type and carries exactly the content of the material; what is
converted to another type and back has the content that it had. -/
theorem content_of_wrap {input : Input} {made : Value}
    (hdistinct : ∀ existing ∈ input.embedded, existing.Everywhere DistinctHere)
    (h : wrap context record input = .ok made) :
    made.record.Same record ∧ input.Carries made.content ∧ made.Everywhere FirstHere ∧
      ((∀ existing ∈ input.embedded, existing.Shaped) → made.Shaped) ∧
      ∀ existing back, input = .value existing →
        wrap context existing.record (.value made) = .ok back →
          back.content = existing.content := by
  have hfirst : ∀ existing ∈ input.embedded, existing.Everywhere FirstHere :=
    fun existing hmem => (hdistinct existing hmem).imp fun _ => firstHere_of_distinctHere
  obtain ⟨hmade, hsame⟩ := (keptByMaking_first context).wrap hfirst h
  have hcarries := carriedWhenMade hfirst record made h
  refine ⟨hsame, hcarries, hmade,
    fun hshaped => ((keptByMaking_shaped context).wrap hshaped h).1, ?_⟩
  rintro existing back rfl hback
  rw [wrap_value] at hback
  rw [content_of_convert hmade hback, Input.carries_value_iff.mp hcarries]

/-- A frame with its slots in another order. -/
def turnedFrame (offset : UInt64) : Value :=
  let level := fun index : UInt64 => Value.scalar (.base "level" 4 .floating) (offset + 4 * index)
    (some (.float (.ofSingle 0x01010101)))
  .struct (.struct "turned" [⟨"levels", "level[2]"⟩, ⟨"tag", "word"⟩, ⟨"body", "choice"⟩]) offset
    [some (.array (.array "level[2]" "level" (some 2)) offset [level 0, level 1]),
    some (.scalar { TypeRecord.base "word" 2 .unsigned with order := .big } (offset + 8)
      (some (.uint 257))),
    some (.union (.union "choice" [⟨"small", "byte"⟩, ⟨"large", "word"⟩]) (offset + 10)
      (some ("small", .scalar (.base "byte" 1 .unsigned) (offset + 10) (some (.uint 1)))))]

theorem content_of_wrap_frame :
    wrap frameContext (turnedFrame 0).record (.value (frameValue 8)) = .ok (turnedFrame 0) ∧
      wrap frameContext (frameValue 8).record (.value (turnedFrame 0)) = .ok (frameValue 0) ∧
      (turnedFrame 0).content = (frameValue 8).content ∧
      (frameValue 0).content = (frameValue 8).content := by
  have hdistinct : ∀ existing ∈ (Input.value (frameValue 8)).embedded,
      existing.Everywhere DistinctHere := by
    simpa [Input.embedded] using distinct_frameValue 8
  have hmade : wrap frameContext (turnedFrame 0).record (.value (frameValue 8)) =
      .ok (turnedFrame 0) := rfl
  have hback : wrap frameContext (frameValue 8).record (.value (turnedFrame 0)) =
      .ok (frameValue 0) := rfl
  obtain ⟨-, hcarries, -, -, hreturn⟩ := content_of_wrap hdistinct hmade
  exact ⟨hmade, hback, Input.carries_value_iff.mp hcarries, hreturn _ _ rfl hback⟩

end Value

end BinarySchema
