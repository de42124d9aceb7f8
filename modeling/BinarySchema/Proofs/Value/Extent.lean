import BinarySchema.Proofs.Value.Confined
import BinarySchema.Proofs.Value.Document
import BinarySchema.Proofs.Value.Tail

/-!
# The extent of a value

The room that a value needs is found by a walk over its slots by name, with the sizes of the types;
a write goes over the slots in order, with the widths of the codecs.  A made value has its parts in
the first slots of their names, so the walk meets every scalar that a write could store, and a buffer
of the size it gives is never too small.
-/

namespace BinarySchema

namespace Value

variable {context : Context} {reached : UInt64}

/-! ## Parts found by name -/

theorem snd_mem_entriesByName {α : Type} {record : TypeRecord} {entries : List (Option α)}
    {index : Nat} {slot : Slot} {entry : α} (hslot : record.slots[index]? = some slot)
    (hfirst : record.slotIndex? slot.name = some index)
    (hentry : entries[index]? = some (some entry)) :
    some entry ∈ (record.entriesByName entries).map Prod.snd := by
  rw [TypeRecord.entriesByName, List.map_map, List.mem_map]
  exact ⟨slot, List.mem_of_getElem? hslot, by simp [hfirst, hentry]⟩

theorem mem_of_snd_mem_entriesByName {α : Type} {record : TypeRecord} {entries : List (Option α)}
    {entry : α} (h : some entry ∈ (record.entriesByName entries).map Prod.snd) :
    some entry ∈ entries := by
  simp only [TypeRecord.entriesByName, List.map_map, List.mem_map, Function.comp_apply,
    Option.bind_eq_some_iff, Option.join_eq_some_iff] at h
  obtain ⟨slot, -, index, -, hentry⟩ := h
  exact List.mem_of_getElem? hentry

/-- The parts of a struct are in the first slots of their names. -/
def NamedHere : Value → Prop
  | .struct record _ slots => ∀ (index : Nat) (child : Value), slots[index]? = some (some child) →
      ∃ slot, record.slots[index]? = some slot ∧ record.slotIndex? slot.name = some index
  | _ => True

theorem namedHere_unplaced {value : Value} : value.unplaced.NamedHere ↔ value.NamedHere := by
  match value with
  | .scalar .. | .union _ _ none | .union _ _ (some _) | .array .. => rfl
  | .struct record offset slots => exact forall_unplacedSlots_iff

theorem namedHere_put {value : Value} {name : String} {index : Nat} {slotType : TypeRecord}
    (htarget : value.slotTarget context name = .ok (index, slotType)) (hvalue : value.NamedHere)
    (child : Value) : (value.put name index child).NamedHere := by
  obtain ⟨slot, hindex, hslot, hfound, -⟩ := slotTarget_eq_ok htarget
  cases value with
  | scalar => contradiction
  | array => contradiction
  | union => trivial
  | struct record offset slots =>
      have hname : slot.name = name := by simpa using List.find?_some hslot
      subst hname
      exact forall_set ⟨slot, hfound, hindex⟩ hvalue

theorem namedHere_of_childless {value : Value} (h : value.children = []) : value.NamedHere := by
  match value with
  | .scalar .. | .union .. | .array .. => trivial
  | .struct record offset slots =>
      exact fun index child hchild => absurd hchild (getElem?_ne_of_childless h index child)

theorem keptByMaking_named (context : Context) :
    KeptByMaking context (Everywhere NamedHere) :=
  keptByMaking_everywhere (fun _ => namedHere_unplaced) (fun _ _ => namedHere_of_childless)
    namedHere_put fun _ _ => trivial

/-! ## The furthest end -/

theorem le_of_furthest {start : UInt64} {stops : List (Option (Except Error UInt64))}
    (h : furthest start stops = .ok reached) :
    start.toNat ≤ reached.toNat ∧ ∀ result, some result ∈ stops →
      ∃ stop : UInt64, result = .ok stop ∧ stop.toNat ≤ reached.toNat := by
  induction stops generalizing start with
  | nil =>
      cases h
      simp
  | cons entry rest ih =>
      match entry with
      | none => simpa using ih h
      | some (.error failure) => contradiction
      | some (.ok stop) =>
          obtain ⟨hstart, hrest⟩ := ih h
          rw [toNat_max] at hstart
          refine ⟨by omega, fun result hmem => ?_⟩
          rcases List.mem_cons.mp hmem with heq | hmem
          · cases heq
            exact ⟨stop, rfl, by omega⟩
          · exact hrest result hmem

theorem furthest_le {start : UInt64} {stops : List (Option (Except Error UInt64))} {limit : Nat}
    (h : furthest start stops = .ok reached) (hstart : start.toNat ≤ limit)
    (hstops : ∀ stop : UInt64, some (.ok stop) ∈ stops → stop.toNat ≤ limit) :
    reached.toNat ≤ limit := by
  induction stops generalizing start with
  | nil =>
      cases h
      exact hstart
  | cons entry rest ih =>
      have hrest := fun stop hmem => hstops stop (.tail _ hmem)
      match entry with
      | none => exact ih h hstart hrest
      | some (.error failure) => contradiction
      | some (.ok stop) =>
          have hstop := hstops stop (.head _)
          exact ih h (by rw [toNat_max]; omega) hrest

theorem slotStops_eq_map (slots : List (Option Value)) :
    slotStops context slots = slots.map (·.map (stop context)) := by
  induction slots with
  | nil => rfl
  | cons entry rest ih => cases entry <;> simp [slotStops, ih]

theorem itemStops_eq_map (items : List Value) :
    itemStops context items = items.map fun item => some (item.stop context) := by
  induction items with
  | nil => rfl
  | cons item rest ih => simp [itemStops, ih]

theorem eq_scalar_or (value : Value) :
    (∃ record offset content, value = .scalar record offset content) ∨
      ∀ record offset content, value ≠ .scalar record offset content := by
  cases value with
  | scalar record offset content => exact .inl ⟨record, offset, content, rfl⟩
  | struct | union | array => exact .inr (by simp)

/-- The ends of the parts of a value, as the walk meets them. -/
def partStops (context : Context) : Value → List (Option (Except Error UInt64))
  | .scalar .. => []
  | .struct record _ slots => (record.entriesByName (slotStops context slots)).map Prod.snd
  | .union _ _ none => []
  | .union _ _ (some (_, child)) => [some (child.stop context)]
  | .array _ _ items => itemStops context items

theorem stop_eq_furthest {value : Value}
    (hcomposite : ∀ record offset content, value ≠ .scalar record offset content) :
    value.stop context = furthest value.offset (value.partStops context) := by
  match value with
  | .scalar record offset content => exact absurd rfl (hcomposite record offset content)
  | .struct .. | .union _ _ none | .union _ _ (some _) | .array .. => rfl

theorem mem_partStops {value child : Value} (hnamed : value.NamedHere)
    (hmem : child ∈ value.children) : some (child.stop context) ∈ value.partStops context := by
  match value with
  | .scalar .. | .union _ _ none => contradiction
  | .union _ _ (some (_, part)) =>
      rw [List.mem_singleton.mp hmem]
      exact .head _
  | .array .. =>
      rw [partStops, itemStops_eq_map]
      exact List.mem_map_of_mem hmem
  | .struct record offset slots =>
      obtain ⟨index, hchild⟩ := List.getElem?_of_mem (mem_children_struct.mp hmem)
      obtain ⟨slot, hslot, hfirst⟩ := hnamed index child hchild
      exact snd_mem_entriesByName hslot hfirst (by simp [slotStops_eq_map, hchild])

theorem exists_child_of_mem_partStops {value : Value} {result : Except Error UInt64}
    (h : some result ∈ value.partStops context) :
    ∃ child ∈ value.children, child.stop context = result := by
  match value with
  | .scalar .. | .union _ _ none => contradiction
  | .union _ _ (some (_, part)) =>
      cases List.mem_singleton.mp h
      exact ⟨part, .head _, rfl⟩
  | .array .. => simpa [partStops, itemStops_eq_map] using h
  | .struct record offset slots =>
      have hmem := mem_of_snd_mem_entriesByName h
      simpa [slotStops_eq_map] using hmem

/-- The room for a value that starts at zero reaches to the end of its type and of its parts. -/
theorem exists_stop_of_encodedSize {value : Value} {size : UInt64} (hoffset : value.offset = 0)
    (h : value.encodedSize context = .ok size) :
    ∃ declared reached, context.sizeOfRecord value.record = .ok declared ∧
      value.stop context = .ok reached ∧ size.toNat = max declared.toNat reached.toNat := by
  simp only [encodedSize, bind_eq_ok_iff, hoffset, pure, Except.pure, Except.ok.injEq] at h
  obtain ⟨declared, hdeclared, reached, hreached, rfl⟩ := h
  exact ⟨declared, reached, hdeclared, hreached, by simp [toNat_max]⟩

/-! ## Scalars before the end -/

/-- No scalar of a value lies beyond the end that the walk finds. -/
theorem inside_of_stop {value : Value} (hnamed : value.Everywhere NamedHere)
    (h : value.stop context = .ok reached) :
    ∀ leaf ∈ value.leaves, leaf.Inside context 0 reached.toNat := by
  induction hnamed generalizing reached with
  | @node value hnamed _ ih =>
      rcases eq_scalar_or value with ⟨record, offset, content, rfl⟩ | hcomposite
      · simp only [stop, bind_eq_ok_iff] at h
        obtain ⟨size, hsize, hstop⟩ := h
        rw [addOffset_eq_ok_iff] at hstop
        intro leaf hleaf
        have hinside : leaf.Inside context offset.toNat (offset.toNat + size.toNat) :=
          List.mem_singleton.mp hleaf ▸ Leaf.inside_of_sizeOfRecord hsize
        exact hinside.mono (Nat.zero_le _) (Nat.le_of_eq hstop.symm)
      · rw [stop_eq_furthest hcomposite] at h
        rw [leaves_eq_flatMap hcomposite]
        intro leaf hleaf
        obtain ⟨child, hchild, hleaf⟩ := List.mem_flatMap.mp hleaf
        obtain ⟨stop, hstop, hle⟩ := (le_of_furthest h).2 _ (mem_partStops hnamed hchild)
        exact (ih child hchild hstop leaf hleaf).mono (Nat.le_refl _) hle

theorem CompleteHere.length_items {value : Value} (h : value.CompleteHere)
    (hshaped : value.ShapedHere) (hkind : value.record.kind = .array) :
    ∀ length ∈ value.record.length, value.items.length = length.toNat := by
  obtain ⟨record, offset, items, rfl⟩ := exists_eq_array hshaped hkind
  exact h

/-- The end that the walk finds in a complete value of a closed type is within the range of the
type. -/
theorem stop_le_of_closed {value : Value} {name : String} {size : UInt64}
    (hsound : value.Sound context) (hcomplete : value.Complete) (htype : value.OfType context name)
    (hclosed : context.Throughout TypeRecord.Closed name) (hsize : context.sizeOf name = .ok size)
    (h : value.stop context = .ok reached) :
    reached.toNat ≤ value.offset.toNat + size.toNat := by
  induction hcomplete generalizing name size reached with
  | @node value hhere _ ih =>
      obtain ⟨hrecord, hown, hparts⟩ := htype.closed hclosed hsize
      rcases eq_scalar_or value with ⟨record, offset, content, rfl⟩ | hcomposite
      · simp only [stop, bind_eq_ok_iff] at h
        obtain ⟨width, hwidth, hstop⟩ := h
        cases hrecord.symm.trans hwidth
        exact Nat.le_of_eq (addOffset_eq_ok_iff.mp hstop)
      · rw [stop_eq_furthest hcomposite] at h
        refine furthest_le h (Nat.le_add_right _ _) fun stop hstop => ?_
        obtain ⟨child, hchild, hreached⟩ := exists_child_of_mem_partStops hstop
        obtain ⟨part, width, hpart, hofType, hwidth, -, hend⟩ :=
          exists_range_of_child hsound hown hrecord (hhere.length_items hsound.shaped.here) hchild
        have hinside := ih child hchild (hsound.inside hchild) hofType (hparts part hpart) hwidth
          hreached
        omega

end Value

/-! ## Values of documents -/

namespace Context

variable {context : Context} {name : String} {size : UInt64} {value : Value}

/-- The size found for a value made from a document is room enough for a write of it, whatever the
declared sizes and however many elements open arrays have.  After a write that ends well the bytes
beside the scalars are zero; the size is not below the one of the type, and no other than that when
the parts of the type leave their sizes to their contents and its arrays have known lengths. -/
theorem encodedSize_suffices {record : TypeRecord} {document : Json.Document} {input : Input}
    (hresolve : context.resolve? name = some record)
    (hinput : Input.ofDocument document = .ok input)
    (hwrap : Value.wrap context record input = .ok value)
    (hsize : value.encodedSize context = .ok size) :
    (∀ start width length, (value.write context (.zeros size.toNat)).outcome ≠
        .error (.bufferTooSmall start width length)) ∧
      ∀ written, value.write context (.zeros size.toNat) = .done written →
        written.size = size.toNat ∧
        (∀ index < size.toNat, ¬value.Covers context index → written[index]? = some 0) ∧
        ∃ declared, context.sizeOf name = .ok declared ∧ declared ≤ size ∧
          (context.Throughout TypeRecord.Closed name → size = declared) := by
  have hraw := Input.embedded_of_ofDocument hinput
  have hnone : ∀ {I : Value → Prop}, ∀ existing ∈ input.embedded, I existing := by simp [hraw]
  obtain ⟨hnamed, hsame⟩ := (Value.keptByMaking_named context).wrap hnone hwrap
  have hsound := ((Value.keptByMaking_sound context).wrap hnone hwrap).1
  have hoffset := Value.offset_of_wrap hraw hwrap
  obtain ⟨declared, reached, hdeclared, hreached, htotal⟩ :=
    Value.exists_stop_of_encodedSize hoffset hsize
  have hsizeOf : context.sizeOf name = .ok declared :=
    sizeOf_eq_ok_iff.mpr ⟨record, hresolve, hsame.sizeOfRecord_eq.symm.trans hdeclared⟩
  have hconfined : Value.Confined context value.leaves 0 size.toNat (.zeros size.toNat)
      (value.write context (.zeros size.toNat)) :=
    Value.confined_of_inside fun leaf hleaf =>
      (Value.inside_of_stop hnamed hreached leaf hleaf).mono (Nat.le_refl _) (by omega)
  refine ⟨hconfined.hasRoom (by simp [Buffer.zeros]), fun written hwrite => ?_⟩
  obtain ⟨hcomplete, hleaves⟩ := (Value.write_eq_done_iff hsound.shaped).mp hwrite
  refine ⟨by simp [Value.size_of_writesAll hleaves, Buffer.zeros], fun index hindex hcovers => ?_,
    declared, hsizeOf, UInt64.le_iff_toNat_le.mpr (by omega), fun hclosed => ?_⟩
  · have hunchanged : written[index]? = (Buffer.zeros size.toNat)[index]? := by
      by_contra hchanged
      obtain ⟨leaf, hleaf, -, hcovered⟩ := Value.exists_covers_of_writesAll hleaves hchanged
      exact hcovers ⟨leaf, hleaf, hcovered⟩
    simp [hunchanged, Buffer.zeros, hindex]
  · have hle := Value.stop_le_of_closed hsound hcomplete ⟨record, hresolve, hsame⟩ hclosed hsizeOf
      hreached
    rw [hoffset, UInt64.toNat_zero, Nat.zero_add] at hle
    rw [← UInt64.toNat_inj]
    omega

def packetDocument : Json.Document :=
  .object [("count", .number (.integer 2)),
    ("words", .array [.number (.integer 513), .number (.integer 1027)])]

/-- The words of a packet lie beyond the size of its type. -/
theorem encodedSize_suffices_packet :
    ∃ input value written, Input.ofDocument packetDocument = .ok input ∧
      Value.wrap packetContext packetValue.record input = .ok value ∧
      value.encodedSize packetContext = .ok 5 ∧ packetContext.sizeOf "packet" = .ok 1 ∧
      value.write packetContext (.zeros 5) = .done written ∧ written.size = 5 ∧
      ∀ index < 5, ¬value.Covers packetContext index → written[index]? = some 0 := by
  let input : Input := .fields [("count", .scalar (.int 2)),
    ("words", .items [.scalar (.int 513), .scalar (.int 1027)])]
  have hresolve : packetContext.resolve? "packet" = some packetValue.record := rfl
  have hinput : Input.ofDocument packetDocument = .ok input := rfl
  obtain ⟨value, hwrap, hsize, houtcome⟩ : ∃ value : Value,
      Value.wrap packetContext packetValue.record input = .ok value ∧
      value.encodedSize packetContext = .ok 5 ∧
      (value.write packetContext (.zeros 5)).outcome = .ok () := ⟨_, rfl, rfl, rfl⟩
  obtain ⟨-, hwritten⟩ := encodedSize_suffices hresolve hinput hwrap hsize
  obtain ⟨hlength, hzeros, -⟩ := hwritten _ (Update.eq_done houtcome)
  exact ⟨input, value, _, hinput, hwrap, hsize, rfl, Update.eq_done houtcome, hlength, hzeros⟩

end Context

end BinarySchema
