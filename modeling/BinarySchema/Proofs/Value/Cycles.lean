import BinarySchema.Proofs.Value.Visits

/-!
# Types that contain themselves

The ways on which reads and sizes go from a type to its parts.  A read that comes back to a type has
come there through first slots of unions only, since all other ways down ask for a size, and a size
that depends on itself is never found.  So a type that meets itself on another way is not read well.
-/

namespace BinarySchema

open Relation

/-- A measure that falls with every step leaves no room for a cycle. -/
theorem not_of_cycle {α : Type} {R : α → α → Prop} {P : Nat → α → Prop} {a : α}
    (hcycle : TransGen R a a)
    (hstep : ∀ {bound a b}, P bound a → R a b → ∃ less < bound, P less b) (bound : Nat) :
    ¬P bound a := by
  induction bound using Nat.strong_induction_on with
  | _ bound ih =>
      intro h
      have hbelow : ∀ {b}, TransGen R a b → ∃ less < bound, P less b := by
        intro b hpath
        induction hpath with
        | single hab => exact hstep h hab
        | tail _ hbc ihpath =>
            obtain ⟨less, hless, hb⟩ := ihpath
            obtain ⟨least, hleast, hc⟩ := hstep hb hbc
            exact ⟨least, Nat.lt_trans hleast hless, hc⟩
      obtain ⟨less, hless, hagain⟩ := hbelow hcycle
      exact ih less hless hagain

/-! ## Ways from a type to its parts -/

namespace Context

variable {context : Context} {name part : String} {record : TypeRecord}

def ReadsInto (context : Context) (name part : String) : Prop :=
  ∃ record, context.resolve? name = some record ∧ part ∈ record.readParts

def SizesBy (context : Context) (name part : String) : Prop :=
  ∃ record, context.resolve? name = some record ∧ record.size = none ∧ part ∈ record.sizeParts

/-- A union and the type of its first slot. -/
def FirstSlot (context : Context) (name part : String) : Prop :=
  ∃ record, context.resolve? name = some record ∧ record.kind = .union ∧ part ∈ record.readParts

/-- A level of a read of a type goes on to a part of the named type. -/
def Descends (context : Context) (name part : String) : Prop :=
  ∃ record, context.resolve? name = some record ∧ context.RecordDescends record part

theorem Descends.refersTo (h : context.Descends name part) : context.RefersTo name part := by
  obtain ⟨record, hresolve, -, hpart, -⟩ := h
  exact ⟨record, hresolve, record.sizeParts_subset_references hpart⟩

/-! ## Cycles -/

private theorem exists_partSize_of_sizesBy {budget : Nat}
    (h : ∃ size, context.partSize budget name = .ok size) (hstep : context.SizesBy name part) :
    ∃ less < budget, ∃ size, context.partSize less part = .ok size := by
  obtain ⟨size, h⟩ := h
  obtain ⟨record, hresolve, hnone, hpart⟩ := hstep
  obtain ⟨other, hother, hsize⟩ := partSize_eq_ok_iff.mp h
  cases hresolve.symm.trans hother
  cases budget with
  | zero => simp [sizeWithin] at hsize
  | succ budget =>
      refine ⟨budget, Nat.lt_succ_self _, ?_⟩
      have href := record.sizeParts_subset_references hpart
      cases (sizeWithin_succ_eq_ok_iff hnone).mp hsize with
      | struct hkind hplaced =>
          obtain ⟨slot, hslot, rfl⟩ := TypeRecord.exists_slot_of_mem_references (.inl hkind) href
          exact exists_size_of_placeSlots hplaced slot hslot
      | union hkind hwidest =>
          obtain ⟨slot, hslot, rfl⟩ := TypeRecord.exists_slot_of_mem_references (.inr hkind) href
          exact (size_le_widestSlot hwidest slot hslot).imp fun _ => And.left
      | openArray hkind hlength => simp [TypeRecord.sizeParts, hkind, hlength] at hpart
      | array hkind hlength helement hstride =>
          cases helement.symm.trans (TypeRecord.element_of_mem_references hkind href)
          exact ⟨_, hstride⟩

/-- The size of the type depends on a type whose size depends on itself. -/
def SizedWithoutEnd (context : Context) (name : String) : Prop :=
  ∃ other, ReflTransGen context.SizesBy name other ∧ TransGen context.SizesBy other other

/-- A size that depends on itself is never found. -/
theorem SizedWithoutEnd.sizeOf_ne_ok (h : context.SizedWithoutEnd name) (size : UInt64) :
    context.sizeOf name ≠ .ok size := by
  obtain ⟨other, hpath, hcycle⟩ := h
  intro hsize
  obtain ⟨budget, hbudget⟩ : ∃ budget size, context.partSize budget other = .ok size := by
    clear hcycle
    induction hpath with
    | refl => exact ⟨_, size, hsize⟩
    | tail _ hstep ih =>
        obtain ⟨budget, hbudget⟩ := ih
        obtain ⟨less, -, hless⟩ := exists_partSize_of_sizesBy hbudget hstep
        exact ⟨less, hless⟩
  exact not_of_cycle hcycle exists_partSize_of_sizesBy budget hbudget

/-- No type with a declared size contains itself. -/
def DeclaredSizesEnd (context : Context) : Prop :=
  ∀ name record, context.resolve? name = some record → record.size ≠ none →
    ¬TransGen context.RefersTo name name

private theorem Descends.sizesBy (hdeclared : context.DeclaredSizesEnd)
    (h : context.Descends name part) (hback : ReflTransGen context.Descends part name) :
    context.SizesBy name part := by
  obtain ⟨record, hresolve, -, hpart, -⟩ := id h
  refine ⟨record, hresolve, Classical.byContradiction fun hsize => ?_, hpart⟩
  have hcycle : TransGen context.Descends name name := .head' h hback
  exact hdeclared name record hresolve hsize (hcycle.lift id fun _ _ => Descends.refersTo)

private theorem sizesBy_of_descends (hdeclared : context.DeclaredSizesEnd)
    (h : TransGen context.Descends name part) (hback : ReflTransGen context.Descends part name) :
    TransGen context.SizesBy name part := by
  induction h with
  | single hstep => exact .single (hstep.sizesBy hdeclared hback)
  | tail hpath hstep ih =>
      exact (ih (.head hstep hback)).tail
        (hstep.sizesBy hdeclared (hback.trans hpath.to_reflTransGen))

/-- A way down that is not through first slots alone comes to a type that has a size. -/
private theorem firstSlot_or_sized {last : String} (h : TransGen context.Descends name last) :
    TransGen context.FirstSlot name last ∨
      ∃ part size, context.sizeOf part = .ok size ∧ TransGen context.Descends name part ∧
        ReflTransGen context.Descends part last := by
  have hone : ∀ {middle last}, context.Descends middle last → context.FirstSlot middle last ∨
      ∃ size, context.sizeOf last = .ok size := by
    rintro middle last ⟨record, hresolve, hread, -, hunion | hsized⟩
    · exact .inl ⟨record, hresolve, hunion, hread⟩
    · exact .inr hsized
  induction h with
  | single hstep =>
      rcases hone hstep with hfirst | ⟨size, hsize⟩
      · exact .inl (.single hfirst)
      · exact .inr ⟨_, size, hsize, .single hstep, .refl⟩
  | tail hpath hstep ih =>
      rcases ih with hfirst | ⟨part, size, hsize, hbefore, hafter⟩
      · rcases hone hstep with hlast | ⟨size, hsize⟩
        · exact .inl (hfirst.tail hlast)
        · exact .inr ⟨_, size, hsize, hpath.tail hstep, .refl⟩
      · exact .inr ⟨part, size, hsize, hbefore, hafter.tail hstep⟩

/-- A way down comes back to where it was through first slots only. -/
theorem firstSlot_cycle_of_descends (hdeclared : context.DeclaredSizesEnd)
    (hcycle : TransGen context.Descends name name) : TransGen context.FirstSlot name name := by
  rcases firstSlot_or_sized hcycle with hfirst | ⟨part, size, hsize, hbefore, hafter⟩
  · exact hfirst
  · have hagain : TransGen context.Descends part part := .trans_right hafter hbefore
    have hsizes := sizesBy_of_descends hdeclared hagain .refl
    exact absurd hsize (SizedWithoutEnd.sizeOf_ne_ok ⟨part, .refl, hsizes⟩ size)

/-! ## Types that are not read well -/

variable {buffer : Buffer} {fuel : Nat}

/-- Some value of the type is read well with this many levels. -/
def TypeReadsWell (context : Context) (buffer : Buffer) (fuel : Nat) (name : String) : Prop :=
  ∃ offset value after, Value.FreshPart context name offset value ∧
    value.readWithin context buffer fuel = some (.done after)

private theorem TypeReadsWell.exists_step (h : context.TypeReadsWell buffer fuel name) :
    ∃ less < fuel, ∃ record offset after, context.resolve? name = some record ∧
      Value.ReadStep context buffer
        (fun part child => part.readWithin context buffer less = some (.done child))
        (.blank record offset) after := by
  obtain ⟨offset, value, after, hfresh, hread⟩ := h
  cases fuel with
  | zero => contradiction
  | succ fuel =>
      have hstep := Value.readStep_of_readWithin hfresh.sound.shaped.here hread
      obtain ⟨record, hresolve, -, rfl⟩ := hfresh.eq_blank
      exact ⟨fuel, Nat.lt_succ_self _, record, offset, after, hresolve, hstep⟩

/-- A type is read well only when all the parts that the read takes are. -/
private theorem TypeReadsWell.readsInto (h : context.TypeReadsWell buffer fuel name)
    (hinto : context.ReadsInto name part) :
    ∃ less < fuel, context.TypeReadsWell buffer less part := by
  obtain ⟨less, hless, record, offset, after, hresolve, hstep⟩ := h.exists_step
  obtain ⟨other, hother, hpart⟩ := hinto
  cases hresolve.symm.trans hother
  refine ⟨less, hless, ?_⟩
  have href := record.readParts_subset_references hpart
  cases hkind : record.kind with
  | base | alien | const => simp [TypeRecord.references, hkind] at href
  | struct =>
      simp only [Value.blank, hkind] at hstep
      cases hstep with
      | struct hparts hread =>
          obtain ⟨slot, hslot, rfl⟩ := TypeRecord.exists_slot_of_mem_references (.inl hkind) href
          obtain ⟨index, hindex⟩ := List.getElem?_of_mem hslot
          have hlt : index < record.slots.length := (List.getElem?_eq_some_iff.mp hindex).1
          have hchild := List.getElem?_eq_getElem (hparts.length_eq ▸ hlt)
          obtain ⟨other, _, start, hother, -, -, hfresh⟩ := hparts.fresh index _ hchild
          cases hindex.symm.trans hother
          obtain ⟨after, -, hafter⟩ := exists_getElem?_of_forall₂ hread.flip hchild
          exact ⟨start, _, after, hfresh, hafter⟩
  | union =>
      simp only [Value.blank, hkind] at hstep
      cases hstep with
      | first hslots hfresh hread =>
          simp only [TypeRecord.readParts, TypeRecord.references, hkind, hslots, List.map_cons,
            List.take_succ_cons, List.take_zero, List.mem_singleton] at hpart
          exact hpart ▸ ⟨offset, _, _, hfresh, hread⟩
  | array =>
      simp only [Value.blank, hkind] at hstep
      cases hstep with
      | @array _ _ length _ element _ _ _ hlength helement _ hcount hfresh hread =>
          have hdeclared := Value.length_of_readLength hlength
          have hne : length ≠ 0 := by
            rintro rfl
            simp [TypeRecord.readParts, hkind, hdeclared] at hpart
          have hpos : 0 < length.toNat :=
            Nat.pos_of_ne_zero fun hzero => hne (UInt64.toNat_inj.mp hzero)
          cases helement.symm.trans (TypeRecord.element_of_mem_references hkind href)
          have hchild := List.getElem?_eq_getElem (hcount ▸ hpos)
          obtain ⟨start, -, hfresh⟩ := hfresh 0 _ hchild
          obtain ⟨after, -, hafter⟩ := exists_getElem?_of_forall₂ hread.flip hchild
          exact ⟨start, _, after, hfresh, hafter⟩

/-- A struct or array is read well only when all the parts that its size depends on have sizes. -/
private theorem TypeReadsWell.sized {record : TypeRecord}
    (h : context.TypeReadsWell buffer fuel name)
    (hresolve : context.resolve? name = some record) (hkind : record.kind ≠ .union)
    (hpart : part ∈ record.sizeParts) : ∃ size, context.sizeOf part = .ok size := by
  obtain ⟨less, -, other, offset, after, hother, hstep⟩ := h.exists_step
  cases hresolve.symm.trans hother
  have href := record.sizeParts_subset_references hpart
  cases hrecord : record.kind with
  | base | alien | const => simp [TypeRecord.references, hrecord] at href
  | union => exact absurd hrecord hkind
  | struct =>
      simp only [Value.blank, hrecord] at hstep
      cases hstep with
      | struct hparts _ =>
          obtain ⟨slot, hslot, rfl⟩ := TypeRecord.exists_slot_of_mem_references (.inl hrecord) href
          obtain ⟨size, hsize⟩ := exists_size_of_placeSlots hparts.placements_eq slot hslot
          exact ⟨size, sizeOf_of_partSize hsize⟩
  | array =>
      simp only [Value.blank, hrecord] at hstep
      cases hstep with
      | array _ helement hstride =>
          cases helement.symm.trans (TypeRecord.element_of_mem_references hrecord href)
          exact ⟨_, hstride⟩

/-- A type comes back to itself through the parts that a read takes, or is a struct or array whose size
has no end, or leads a read to such a type. -/
inductive MeetsItself (context : Context) : String → Prop
  | reading {name : String} (hcycle : TransGen context.ReadsInto name name) :
      MeetsItself context name
  | sizing {name part : String} {record : TypeRecord}
      (hresolve : context.resolve? name = some record) (hkind : record.kind ≠ .union)
      (hpart : part ∈ record.sizeParts) (hsize : context.SizedWithoutEnd part) :
      MeetsItself context name
  | part {name part : String} (hinto : context.ReadsInto name part)
      (hmeets : MeetsItself context part) : MeetsItself context name

theorem MeetsItself.not_typeReadsWell (h : context.MeetsItself name) (buffer : Buffer)
    (fuel : Nat) : ¬context.TypeReadsWell buffer fuel name := by
  induction h generalizing fuel with
  | reading hcycle => exact not_of_cycle hcycle TypeReadsWell.readsInto fuel
  | sizing hresolve hkind hpart hsize =>
      intro hwell
      obtain ⟨size, hfound⟩ := hwell.sized hresolve hkind hpart
      exact hsize.sizeOf_ne_ok size hfound
  | part hinto _ ih =>
      intro hwell
      obtain ⟨less, -, hless⟩ := hwell.readsInto hinto
      exact ih less hless

end Context

end BinarySchema
