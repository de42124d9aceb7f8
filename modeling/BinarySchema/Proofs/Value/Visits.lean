import BinarySchema.Proofs.Value.Descent

/-!
# What a read goes on to

The read of a value goes on to the reads of its parts, one after the other and as long as none fails.
It has no result with some number of levels exactly when one of the reads that it goes on to has none
with one level less.
-/

namespace BinarySchema

/-! ## The parts that reads and sizes take -/

namespace TypeRecord

/-- The types of the parts that a read takes from a buffer. -/
def readParts (record : TypeRecord) : List String :=
  match record.kind, record.length with
  | .union, _ => record.references.take 1
  | .array, some 0 => []
  | _, _ => record.references

/-- The types of the parts that the size is computed from where none is declared. -/
def sizeParts (record : TypeRecord) : List String :=
  match record.kind, record.length with
  | .array, none => []
  | _, _ => record.references

theorem readParts_subset_references (record : TypeRecord) :
    record.readParts ⊆ record.references := by
  unfold readParts
  split
  · exact List.take_subset _ _
  · exact List.nil_subset _
  · exact List.Subset.refl _

theorem sizeParts_subset_references (record : TypeRecord) :
    record.sizeParts ⊆ record.references := by
  unfold sizeParts
  split
  · exact List.nil_subset _
  · exact List.Subset.refl _

end TypeRecord

/-- A level of a read goes on to a part: that of a struct or array is known to have a size. -/
def Context.RecordDescends (context : Context) (record : TypeRecord) (part : String) : Prop :=
  part ∈ record.readParts ∧ part ∈ record.sizeParts ∧
    (record.kind = .union ∨ ∃ size, context.sizeOf part = .ok size)

namespace Value

variable {context : Context} {buffer : Buffer} {value child : Value} {fuel : Nat}

/-! ## Reads without failures -/

/-- With enough levels the value is read to its end. -/
def ReadsWell (context : Context) (buffer : Buffer) (value : Value) : Prop :=
  ∃ fuel after, readWithin context buffer fuel value = some (.done after)

theorem readWithin_unique {more : Nat} {update other : Update Value}
    (h : readWithin context buffer fuel value = some update)
    (hother : readWithin context buffer more value = some other) : update = other := by
  have hmost := readWithin_mono (Nat.le_max_left fuel more) h
  rw [readWithin_mono (Nat.le_max_right fuel more) hother] at hmost
  exact (Option.some.inj hmost).symm

theorem ReadsWell.outcome_eq {update : Update Value} (h : value.ReadsWell context buffer)
    (hread : readWithin context buffer fuel value = some update) : update.outcome = .ok () := by
  obtain ⟨more, after, hafter⟩ := h
  rw [readWithin_unique hread hafter]
  rfl

theorem readsWell_of_outcome {update : Update Value}
    (hread : readWithin context buffer fuel value = some update)
    (houtcome : update.outcome = .ok ()) : value.ReadsWell context buffer :=
  ⟨fuel, update.left, by rw [hread, ← Update.eq_done houtcome]⟩

/-! ## Going on -/

/-- The read of a value goes on to the read of a part: of a fresh one once all parts before it are
read, or of what an active slot holds. -/
inductive Visits (context : Context) (buffer : Buffer) : Value → Value → Prop
  | slot {record : TypeRecord} {offset : UInt64} {slots : List (Option Value)}
      {placements : List Placement} {parts : List Value} {index : Nat} {part : Value}
      (hparts : SlotParts context record offset placements parts)
      (hbefore : ∀ earlier ∈ parts.take index, earlier.ReadsWell context buffer)
      (hpart : parts[index]? = some part) : Visits context buffer (.struct record offset slots) part
  | first {record : TypeRecord} {offset : UInt64} {slot : Slot} {rest : List Slot} {part : Value}
      (hslots : record.slots = slot :: rest)
      (hfresh : FreshPart context slot.typeName offset part) :
      Visits context buffer (.union record offset none) part
  | active {record : TypeRecord} {offset : UInt64} {name : String} {part : Value} :
      Visits context buffer (.union record offset (some (name, part))) part
  | item {record : TypeRecord} {offset length stride : UInt64} {name : String} {items : List Value}
      {index : Nat} {part : Value} (hlength : readLength context record = .ok length)
      (helement : record.element = some name) (hstride : context.sizeOf name = .ok stride)
      (hindex : index < length.toNat)
      (hbefore : ∀ number < index, ∃ earlier,
        freshElement context name offset stride number = .ok earlier ∧
          earlier.ReadsWell context buffer)
      (hpart : freshElement context name offset stride index = .ok part) :
      Visits context buffer (.array record offset items) part

/-- A part of a value without an active slot is fresh, and of a type that the read descends to. -/
theorem Visits.exists_freshPart (h : Visits context buffer value child)
    (hshaped : value.ShapedHere) (hactive : value.active? = none) :
    ∃ part start, context.RecordDescends value.record part ∧
      FreshPart context part start child := by
  cases h with
  | active => contradiction
  | slot hparts _ hpart =>
      obtain ⟨slot, placement, start, hslot, hplacement, -, hfresh⟩ := hparts.fresh _ child hpart
      have hkind := hshaped.1
      have href := TypeRecord.typeName_mem_references (.inl hkind) (List.mem_of_getElem? hslot)
      have hsize := Context.slotPlacements_size hparts.placements_eq hslot hplacement
      refine ⟨slot.typeName, start, ⟨?_, ?_, .inr ⟨_, hsize⟩⟩, hfresh⟩
      · simpa [Value.record, TypeRecord.readParts, hkind] using href
      · simpa [Value.record, TypeRecord.sizeParts, hkind] using href
  | @first record offset slot rest _ hslots hfresh =>
      have hkind : record.kind = .union := hshaped
      refine ⟨slot.typeName, offset, ⟨?_, ?_, .inl hkind⟩, hfresh⟩
      · simp [Value.record, TypeRecord.readParts, TypeRecord.references, hkind, hslots]
      · simp [Value.record, TypeRecord.sizeParts, TypeRecord.references, hkind, hslots]
  | @item record offset length stride name items index _ hlength helement hstride hindex _ hpart =>
      have hkind : record.kind = .array := hshaped
      obtain ⟨start, -, hfresh⟩ := freshElement_eq_ok_iff.mp hpart
      have href := TypeRecord.element_mem_references hkind helement
      have hdeclared := length_of_readLength hlength
      have hne : length ≠ 0 := by
        rintro rfl
        contradiction
      refine ⟨name, start, ⟨?_, ?_, .inr ⟨stride, hstride⟩⟩, hfresh⟩
      · simpa [Value.record, TypeRecord.readParts, hkind, hdeclared, hne] using href
      · simpa [Value.record, TypeRecord.sizeParts, hkind, hdeclared] using href

/-! ## Reads without a result -/

private theorem exists_of_readSlots_eq_none {step : Value → Option (Update Value)}
    {parts : List Value} (h : readSlots step (parts.map some) = none) :
    ∃ index part, parts[index]? = some part ∧ step part = none ∧
      ∀ earlier ∈ parts.take index, ∃ update, step earlier = some update ∧
        update.outcome = .ok () := by
  induction parts with
  | nil => simp [readSlots] at h
  | cons part parts ih =>
      cases hstep : step part with
      | none => exact ⟨0, part, rfl, hstep, by simp⟩
      | some update =>
          obtain ⟨left, outcome⟩ := update
          simp only [List.map_cons, readSlots, hstep, bind, Option.bind_some] at h
          cases outcome with
          | error failure => simp at h
          | ok _ =>
              cases hrest : readSlots step (parts.map some) with
              | some others => simp [hrest] at h
              | none =>
                  obtain ⟨index, other, hother, hnone, hbefore⟩ := ih hrest
                  refine ⟨index + 1, other, hother, hnone, ?_⟩
                  exact List.forall_mem_cons.mpr ⟨⟨_, hstep, rfl⟩, hbefore⟩

private theorem ne_none_of_readSlots {step : Value → Option (Update Value)} {parts : List Value}
    {index : Nat} {part : Value} (h : readSlots step (parts.map some) ≠ none)
    (hpart : parts[index]? = some part)
    (hbefore : ∀ earlier ∈ parts.take index, ∀ update, step earlier = some update →
      update.outcome = .ok ()) : step part ≠ none := by
  induction parts generalizing index with
  | nil => contradiction
  | cons head parts ih =>
      cases hstep : step head with
      | none => simp [readSlots, hstep] at h
      | some update =>
          cases index with
          | zero =>
              cases hpart
              simp [hstep]
          | succ index =>
              obtain ⟨hhead, hbefore⟩ := List.forall_mem_cons.mp hbefore
              refine ih (fun hrest => h ?_) hpart hbefore
              simp only [List.map_cons, readSlots, hstep, bind, Option.bind_some, hhead _ hstep,
                hrest, Option.bind_none]

private theorem exists_of_readItems_eq_none {step : Value → Option (Update Value)}
    {make : Nat → Except Error Value} {count number : Nat}
    (h : readItems step make count number = none) :
    ∃ index part, index < count ∧ make (number + index) = .ok part ∧ step part = none ∧
      ∀ other < index, ∃ earlier update, make (number + other) = .ok earlier ∧
        step earlier = some update ∧ update.outcome = .ok () := by
  induction count generalizing number with
  | zero => simp [readItems] at h
  | succ count ih =>
      unfold readItems at h
      split at h
      · simp at h
      · rename_i part hpart
        cases hstep : step part with
        | none => exact ⟨0, part, Nat.succ_pos _, hpart, hstep, by simp⟩
        | some update =>
            obtain ⟨left, outcome⟩ := update
            simp only [hstep, bind, Option.bind_some] at h
            cases outcome with
            | error failure => simp at h
            | ok _ =>
                cases hrest : readItems step make count (number + 1) with
                | some others => simp [hrest] at h
                | none =>
                    obtain ⟨index, other, hlt, hother, hnone, hbefore⟩ := ih hrest
                    simp only [Nat.add_right_comm number 1] at hother hbefore
                    refine ⟨index + 1, other, Nat.succ_lt_succ hlt, hother, hnone, ?_⟩
                    intro earlier hearlier
                    cases earlier with
                    | zero => exact ⟨part, _, hpart, hstep, rfl⟩
                    | succ earlier => exact hbefore earlier (Nat.lt_of_succ_lt_succ hearlier)

private theorem ne_none_of_readItems {step : Value → Option (Update Value)}
    {make : Nat → Except Error Value} {count number index : Nat} {part : Value}
    (h : readItems step make count number ≠ none) (hindex : index < count)
    (hpart : make (number + index) = .ok part)
    (hbefore : ∀ other < index, ∃ earlier, make (number + other) = .ok earlier ∧
      ∀ update, step earlier = some update → update.outcome = .ok ()) : step part ≠ none := by
  induction count generalizing number index with
  | zero => contradiction
  | succ count ih =>
      cases index with
      | zero =>
          intro hnone
          refine h ?_
          have hmake : make number = .ok part := hpart
          simp [readItems, hmake, hnone]
      | succ index =>
          obtain ⟨earlier, hearlier, hwell⟩ := hbefore 0 (Nat.succ_pos _)
          have hmake : make number = .ok earlier := hearlier
          cases hstep : step earlier with
          | none => simp [readItems, hmake, hstep] at h
          | some update =>
              have hnumber : ∀ other, number + 1 + other = number + (other + 1) :=
                fun other => Nat.add_right_comm number 1 other
              refine ih (fun hrest => h ?_) (Nat.lt_of_succ_lt_succ hindex)
                ((hnumber index).symm ▸ hpart) fun other hlt => ?_
              · simp only [readItems, hmake, hstep, bind, Option.bind_some, hwell _ hstep, hrest,
                  Option.bind_none]
              · rw [hnumber]
                exact hbefore (other + 1) (Nat.succ_lt_succ hlt)

/-- A read that runs out of levels goes on to one that has run out of them with one level less. -/
theorem exists_visit_of_eq_none (hshaped : value.ShapedHere)
    (h : readWithin context buffer (fuel + 1) value = none) :
    ∃ child, Visits context buffer value child ∧ readWithin context buffer fuel child = none := by
  match value with
  | .scalar record offset content =>
      simp only [readWithin] at h
      split at h <;> contradiction
  | .struct record offset slots =>
      rcases readWithin_struct_cases context buffer fuel offset hshaped.2 with
        ⟨placements, parts, hparts, heq⟩ | ⟨_, _, heq⟩
      · rw [heq, Option.map_eq_none_iff] at h
        obtain ⟨index, child, hchild, hnone, hbefore⟩ := exists_of_readSlots_eq_none h
        refine ⟨child, .slot hparts (fun earlier hmem => ?_) hchild, hnone⟩
        obtain ⟨update, hread, houtcome⟩ := hbefore earlier hmem
        exact readsWell_of_outcome hread houtcome
      · rw [heq] at h
        contradiction
  | .union record offset none =>
      rcases readWithin_first_cases context buffer fuel record offset with
        ⟨slot, rest, child, hslots, hchild, heq⟩ | ⟨_, _, heq⟩
      · rw [heq, Option.map_eq_none_iff] at h
        exact ⟨child, .first hslots hchild, h⟩
      · rw [heq] at h
        contradiction
  | .union record offset (some (name, child)) =>
      simp only [readWithin, bind, pure] at h
      refine ⟨child, .active, ?_⟩
      cases hread : readWithin context buffer fuel child with
      | none => rfl
      | some update => simp [hread] at h
  | .array record offset items =>
      rcases readWithin_array_cases context buffer fuel record offset items with
        ⟨length, element, stride, hlength, helement, hstride, heq⟩ | ⟨_, _, heq⟩
      · rw [heq, Option.map_eq_none_iff] at h
        obtain ⟨index, child, hindex, hmake, hnone, hbefore⟩ := exists_of_readItems_eq_none h
        simp only [Nat.zero_add] at hmake hbefore
        refine ⟨child, .item hlength helement hstride hindex (fun number hlt => ?_) hmake, hnone⟩
        obtain ⟨earlier, update, hearlier, hread, houtcome⟩ := hbefore number hlt
        exact ⟨earlier, hearlier, readsWell_of_outcome hread houtcome⟩
      · rw [heq] at h
        contradiction

/-- Conversely, a read has no result when one that it goes on to has none. -/
theorem Visits.ne_none (h : Visits context buffer value child) (hshaped : value.ShapedHere)
    (hread : readWithin context buffer (fuel + 1) value ≠ none) :
    readWithin context buffer fuel child ≠ none := by
  cases h with
  | slot hparts hbefore hpart =>
      rw [readWithin_struct hshaped.2 hparts, ne_eq, Option.map_eq_none_iff] at hread
      exact ne_none_of_readSlots hread hpart fun earlier hmem _ => (hbefore earlier hmem).outcome_eq
  | first hslots hfresh =>
      rwa [readWithin_first hslots hfresh, ne_eq, Option.map_eq_none_iff] at hread
  | active =>
      intro hnone
      simp [readWithin, hnone] at hread
  | item hlength helement hstride hindex hbefore hpart =>
      rw [readWithin_array hlength helement hstride, ne_eq, Option.map_eq_none_iff] at hread
      refine ne_none_of_readItems hread hindex ((Nat.zero_add _).symm ▸ hpart) fun number hlt => ?_
      rw [Nat.zero_add]
      exact (hbefore number hlt).imp fun _ => And.imp_right fun hwell _ => hwell.outcome_eq

end Value

end BinarySchema
