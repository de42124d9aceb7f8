import BinarySchema.Proofs.Value.Cycles
import BinarySchema.Proofs.Value.Levels

/-!
# Reads come to an end

A read carries no limit of its own.  It ends because it asks for sizes on its way down: a struct is
placed before its slots are read and an array asks for its stride, and a type whose size depends on
itself has none.  Unions ask for nothing, so a read has no end where it comes to a union that comes
back to itself through first slots alone.  And an array asks for room for all its elements before it
reads the first one; for more than a list can have the program stops.
-/

namespace BinarySchema

open Relation

namespace Value

variable {context : Context} {buffer : Buffer} {name : String} {offset : UInt64}
  {value part : Value} {capacity : Nat}

/-! ## Reads that return -/

/-- An array asks for room for as many elements as it is about to read. -/
def AsksRoomFor (context : Context) (length : UInt64) : Value → Prop
  | .array record _ _ => readLength context record = .ok length ∧
      ∃ element stride, record.element = some element ∧ context.sizeOf element = .ok stride
  | _ => False

/-- The read of the value comes to an end: there is room for what it asks for, up to `capacity`
elements in a list, and all reads that it goes on to come to an end. -/
inductive Returns (context : Context) (buffer : Buffer) (capacity : Nat) : Value → Prop
  | intro {value : Value}
      (hroom : ∀ length, value.AsksRoomFor context length → length.toNat ≤ capacity)
      (hparts : ∀ part, Visits context buffer value part →
        Returns context buffer capacity part) : Returns context buffer capacity value

theorem FreshPart.active?_eq_none (h : FreshPart context name offset value) :
    value.active? = none := by
  obtain ⟨record, -, -, rfl⟩ := h.eq_blank
  exact active?_blank record offset

theorem Visits.freshPart (h : Visits context buffer value part)
    (hfresh : FreshPart context name offset value) :
    ∃ other start, FreshPart context other start part := by
  obtain ⟨other, start, -, hpart⟩ :=
    h.exists_freshPart hfresh.sound.shaped.here hfresh.active?_eq_none
  exact ⟨other, start, hpart⟩

/-- What a fresh value goes on to is fresh all the way down. -/
theorem freshPart_of_visits (hfresh : FreshPart context name offset value)
    (h : ReflTransGen (Visits context buffer) value part) :
    ∃ other start, FreshPart context other start part := by
  induction h with
  | refl => exact ⟨name, offset, hfresh⟩
  | tail _ hstep ih =>
      obtain ⟨other, start, hother⟩ := ih
      exact hstep.freshPart hother

theorem eq_none_of_visits (hfresh : FreshPart context name offset value)
    (h : ReflTransGen (Visits context buffer) value part)
    (hnone : ∀ fuel, readWithin context buffer fuel part = none) (fuel : Nat) :
    readWithin context buffer fuel value = none := by
  induction h using ReflTransGen.head_induction_on generalizing name offset fuel with
  | refl => exact hnone fuel
  | head hstep _ ih =>
      cases fuel with
      | zero => rfl
      | succ fuel =>
          obtain ⟨other, start, hother⟩ := hstep.freshPart hfresh
          by_contra hread
          exact hstep.ne_none hfresh.sound.shaped.here hread (ih hother fuel)

/-- Where all reads that a read goes on to have results, it has one as well. -/
theorem Returns.exists_update (h : Returns context buffer capacity value)
    (hfresh : FreshPart context name offset value) :
    ∃ update, value.read context buffer = some update := by
  induction h generalizing name offset with
  | @intro value _ _ ih =>
      rw [← Option.ne_none_iff_exists']
      intro hnone
      have hshaped := hfresh.sound.shaped
      -- one level more than the fuel of the whole leaves each part its own fuel
      have hmore : readWithin context buffer (context.readFuel value.record + 1) value = none := by
        by_contra hread
        obtain ⟨update, hupdate⟩ := Option.ne_none_iff_exists'.mp hread
        rw [(read_eq_some_iff hshaped).mpr ⟨_, hupdate⟩] at hnone
        contradiction
      obtain ⟨child, hvisit, hchild⟩ := exists_visit_of_eq_none hshaped.here hmore
      obtain ⟨part, start, ⟨-, hpart, -⟩, hother⟩ :=
        hvisit.exists_freshPart hshaped.here hfresh.active?_eq_none
      obtain ⟨update, hupdate⟩ := ih child hvisit hother
      obtain ⟨record, hresolve, -, rfl⟩ := hother.eq_blank
      rw [Value.read, activePath_blank] at hupdate
      have hfuel := Context.readFuel_le_of_mem_references
        (value.record.sizeParts_subset_references hpart) hresolve
      rw [readWithin_mono (by simpa using hfuel) hupdate] at hchild
      contradiction

/-- A read returns when it has a result and asks for no more room than there is. -/
theorem returns_iff (hfresh : FreshPart context name offset value) :
    Returns context buffer capacity value ↔
      (∃ update, value.read context buffer = some update) ∧
        ∀ part, ReflTransGen (Visits context buffer) value part →
          ∀ length, part.AsksRoomFor context length → length.toNat ≤ capacity := by
  constructor
  · intro h
    refine ⟨h.exists_update hfresh, fun part hpath => ?_⟩
    induction hpath using ReflTransGen.head_induction_on generalizing name offset with
    | refl =>
        obtain ⟨hroom, -⟩ := h
        exact hroom
    | head hstep _ ih =>
        obtain ⟨-, hparts⟩ := h
        obtain ⟨other, start, hother⟩ := hstep.freshPart hfresh
        exact ih hother (hparts _ hstep)
  · rintro ⟨⟨update, hupdate⟩, hroom⟩
    obtain ⟨fuel, hread⟩ := (read_eq_some_iff hfresh.sound.shaped).mp hupdate
    clear hupdate
    induction fuel generalizing name offset value update with
    | zero => contradiction
    | succ fuel ih =>
        refine .intro (hroom value .refl) fun child hvisit => ?_
        obtain ⟨other, start, hother⟩ := hvisit.freshPart hfresh
        have hchild : readWithin context buffer fuel child ≠ none :=
          hvisit.ne_none hfresh.sound.shaped.here (by simp [hread])
        obtain ⟨inner, hinner⟩ := Option.ne_none_iff_exists'.mp hchild
        exact ih hother (fun part hpath => hroom part (.head hvisit hpath)) inner hinner

/-! ## Unions that are their own first slots -/

/-- The value belongs to a union that comes back to itself through first slots alone. -/
def IsOwnFirstSlot (context : Context) (value : Value) : Prop :=
  ∃ name, context.resolve? name = some value.record ∧ TransGen context.FirstSlot name name

/-- When the levels run out, a path of as many names has been descended, and the read has come to
values of all of them. -/
private theorem exists_path_of_eq_none {fuel : Nat} (hfresh : FreshPart context name offset value)
    (h : readWithin context buffer fuel value = none) :
    ∃ names : List String, names.length = fuel ∧ (name :: names).IsChain context.Descends ∧
      ∀ other ∈ names, ∃ start part, FreshPart context other start part ∧
        ReflTransGen (Visits context buffer) value part := by
  induction fuel generalizing name offset value with
  | zero => exact ⟨[], rfl, .singleton name, by simp⟩
  | succ fuel ih =>
      have hshaped := hfresh.sound.shaped.here
      obtain ⟨child, hvisit, hnone⟩ := exists_visit_of_eq_none hshaped h
      obtain ⟨part, start, hpart, hchild⟩ :=
        hvisit.exists_freshPart hshaped hfresh.active?_eq_none
      obtain ⟨record, hresolve, -, rfl⟩ := hfresh.eq_blank
      rw [record_blank] at hpart
      obtain ⟨names, hlength, hpath, hnames⟩ := ih hchild hnone
      refine ⟨part :: names, by simp [hlength], .cons_cons ⟨record, hresolve, hpart⟩ hpath, ?_⟩
      refine List.forall_mem_cons.mpr
        ⟨⟨start, child, hchild, .single hvisit⟩, fun other hmem => ?_⟩
      obtain ⟨place, found, hfound, hvisits⟩ := hnames other hmem
      exact ⟨place, found, hfound, .head hvisit hvisits⟩

/-- A read without a result has come to a union that is its own first slot: with all its fuel it has
descended so many names that one of them came twice. -/
private theorem exists_isOwnFirstSlot (hdeclared : context.DeclaredSizesEnd)
    (hfresh : FreshPart context name offset value) (hnone : value.read context buffer = none) :
    ∃ part, ReflTransGen (Visits context buffer) value part ∧ part.IsOwnFirstSlot context := by
  by_contra hfirst
  push Not at hfirst
  obtain ⟨record, hresolve, -, rfl⟩ := id hfresh.eq_blank
  simp only [Value.read, activePath_blank, Nat.zero_add] at hnone
  obtain ⟨names, hlength, hpath, hnames⟩ := exists_path_of_eq_none hfresh hnone
  have hpairs : (name :: names).Pairwise (TransGen context.Descends) :=
    (hpath.imp fun _ _ => TransGen.single).pairwise
  have hnodup : names.Nodup := by
    refine (List.pairwise_cons.mp hpairs).2.imp_of_mem fun {one _} hone _ hdown => ?_
    rintro rfl
    obtain ⟨start, part, hpart, hvisits⟩ := hnames one hone
    obtain ⟨found, hfound, -, rfl⟩ := hpart.eq_blank
    refine hfirst _ hvisits ⟨one, by rwa [record_blank], ?_⟩
    exact Context.firstSlot_cycle_of_descends hdeclared hdown
  have hrefers : (name :: names).IsChain context.RefersTo :=
    hpath.imp fun _ _ => Context.Descends.refersTo
  obtain ⟨hhead, hrefers⟩ := List.isChain_cons.mp hrefers
  have hstart : ∀ part ∈ names.head?, part ∈ record.references := by
    intro part hpart
    obtain ⟨other, hother, href⟩ := hhead part hpart
    cases hresolve.symm.trans hother
    exact href
  have hlt := Context.length_path_lt_readFuel hstart hrefers hnodup
  omega

private theorem freshPart_of_firstSlot {part : String} (h : context.FirstSlot name part)
    (offset : UInt64) : ∃ record slot rest, record.slots = slot :: rest ∧ slot.typeName = part ∧
      context.resolve? name = some record ∧ record.kind = .union ∧
      FreshPart context name offset (.union record offset none) := by
  obtain ⟨record, hresolve, hkind, hpart⟩ := h
  have hfresh := freshPart_blank hresolve (by simp [hkind]) (by simp [hkind]) offset
  simp only [blank, hkind] at hfresh
  cases hslots : record.slots with
  | nil => simp [TypeRecord.readParts, TypeRecord.references, hkind, hslots] at hpart
  | cons slot rest =>
      simp only [TypeRecord.readParts, TypeRecord.references, hkind, hslots, List.map_cons,
        List.take_succ_cons, List.take_zero, List.mem_singleton] at hpart
      exact ⟨record, slot, rest, hslots, hpart.symm, hresolve, hkind, hfresh⟩

private theorem readWithin_eq_none_of_cycle (hcycle : TransGen context.FirstSlot name name)
    {record : TypeRecord} (hresolve : context.resolve? name = some record) (offset : UInt64)
    (fuel : Nat) : readWithin context buffer fuel (.union record offset none) = none := by
  induction fuel generalizing name record with
  | zero => rfl
  | succ fuel ih =>
      obtain ⟨part, hstep, hback⟩ := TransGen.head'_iff.mp hcycle
      obtain ⟨other, slot, rest, hslots, rfl, hother, -⟩ := freshPart_of_firstSlot hstep offset
      cases hresolve.symm.trans hother
      have hagain : TransGen context.FirstSlot slot.typeName slot.typeName := .tail' hback hstep
      obtain ⟨next, hnext, -⟩ := TransGen.head'_iff.mp hagain
      obtain ⟨child, -, -, -, -, hchild, -, hfresh⟩ := freshPart_of_firstSlot hnext offset
      rw [readWithin_first hslots hfresh, ih hagain hchild]
      rfl

theorem IsOwnFirstSlot.eq_none (h : part.IsOwnFirstSlot context)
    (hfresh : FreshPart context name offset part) (fuel : Nat) :
    readWithin context buffer fuel part = none := by
  obtain ⟨other, hresolve, hcycle⟩ := h
  obtain ⟨record, -, -, rfl⟩ := hfresh.eq_blank
  rw [record_blank] at hresolve
  obtain ⟨first, hstep, -⟩ := TransGen.head'_iff.mp hcycle
  obtain ⟨found, -, -, -, -, hfound, hkind, -⟩ := freshPart_of_firstSlot hstep offset
  cases hresolve.symm.trans hfound
  simp only [blank, hkind]
  exact readWithin_eq_none_of_cycle hcycle hresolve offset fuel

/-- A read has no result exactly when it comes to a union that is its own first slot. -/
theorem read_eq_none_iff (buffer : Buffer) (hdeclared : context.DeclaredSizesEnd)
    (hfresh : FreshPart context name offset value) :
    value.read context buffer = none ↔
      ∃ part, ReflTransGen (Visits context buffer) value part ∧ part.IsOwnFirstSlot context := by
  refine ⟨exists_isOwnFirstSlot hdeclared hfresh, ?_⟩
  rintro ⟨part, hvisits, hfirst⟩
  obtain ⟨other, start, hpart⟩ := freshPart_of_visits hfresh hvisits
  exact eq_none_of_visits hfresh hvisits (hfirst.eq_none hpart) _

end Value

/-! ## Reads of named types -/

namespace Context

variable {context : Context} {name : String}

/-- The read of a type from an offset comes to the read of the part. -/
def ReadComesTo (context : Context) (name : String) (buffer : Buffer) (offset : UInt64)
    (part : Value) : Prop :=
  ∃ value, Value.FreshPart context name offset value ∧
    ReflTransGen (Value.Visits context buffer) value part

/-- The read of a type from an offset comes to an end where a list has up to `capacity` elements. -/
def ReadReturns (context : Context) (capacity : Nat) (name : String) (buffer : Buffer)
    (offset : UInt64) : Prop :=
  ∀ value, Value.FreshPart context name offset value →
    value.Returns context buffer capacity

/-- A type of which no value can be made is not read. -/
theorem read_cases (context : Context) (name : String) (buffer : Buffer) (offset : UInt64) :
    (∃ value, Value.FreshPart context name offset value ∧
        context.read name buffer offset = (value.read context buffer).map Update.result) ∨
      ((∀ value, ¬Value.FreshPart context name offset value) ∧
        ∃ failure, context.read name buffer offset = some (.error failure)) := by
  cases hplaced : (context.create name >>= fun fresh => (fresh.moveTo context offset).result) with
  | ok value =>
      obtain ⟨fresh, hcreate, hmove⟩ := bind_eq_ok_iff.mp hplaced
      have hfresh : Value.FreshPart context name offset value :=
        ⟨fresh, hcreate, Update.result_eq_ok_iff.mp hmove⟩
      exact .inl ⟨value, hfresh, hfresh.read_eq buffer⟩
  | error failure =>
      refine .inr ⟨?_, failure, by simp only [Context.read, hplaced]⟩
      rintro value ⟨fresh, hcreate, hmove⟩
      rw [bind_eq_ok_iff.mpr ⟨fresh, hcreate, Update.result_eq_ok_iff.mpr hmove⟩] at hplaced
      contradiction

/-- A read comes to an end unless it comes to a union that is its own first slot, be it through the
first slots of other unions, or to an array that is too long for a list.  It then has a result, which
is an error if the type meets itself; in the first of the two cases it has none.  Excluded are types
with a declared size inside themselves, whose size does not stop a read. -/
theorem read_ends (hdeclared : context.DeclaredSizesEnd) (capacity : Nat) (name : String)
    (buffer : Buffer) (offset : UInt64) :
    (context.ReadReturns capacity name buffer offset ↔
      ∀ part, context.ReadComesTo name buffer offset part → ¬part.IsOwnFirstSlot context ∧
        ∀ length, part.AsksRoomFor context length → length.toNat ≤ capacity) ∧
    (context.ReadReturns capacity name buffer offset →
      ∃ outcome, context.read name buffer offset = some outcome ∧
        (context.MeetsItself name → ∃ failure, outcome = .error failure)) ∧
    (context.read name buffer offset = none ↔
      ∃ part, context.ReadComesTo name buffer offset part ∧ part.IsOwnFirstSlot context) := by
  rcases context.read_cases name buffer offset with ⟨value, hfresh, heq⟩ | ⟨hnot, failure, heq⟩
  · have hcomes : ∀ {part}, context.ReadComesTo name buffer offset part ↔
        ReflTransGen (Value.Visits context buffer) value part := by
      intro part
      refine ⟨?_, fun hvisits => ⟨value, hfresh, hvisits⟩⟩
      rintro ⟨other, hother, hvisits⟩
      exact hother.unique hfresh ▸ hvisits
    have hreturns : context.ReadReturns capacity name buffer offset ↔
        value.Returns context buffer capacity :=
      ⟨fun h => h value hfresh, fun h other hother => hother.unique hfresh ▸ h⟩
    have hnone := Value.read_eq_none_iff buffer hdeclared hfresh
    rw [hreturns, Value.returns_iff hfresh, ← Option.ne_none_iff_exists', ne_eq, hnone, heq,
      Option.map_eq_none_iff, hnone]
    simp only [hcomes]
    refine ⟨?_, ?_, trivial⟩
    · push Not
      exact ⟨fun h part hpart => ⟨h.1 part hpart, h.2 part hpart⟩,
        fun h => ⟨fun part hpart => (h part hpart).1, fun part hpart => (h part hpart).2⟩⟩
    · rintro ⟨hread, -⟩
      rw [← hnone, ← ne_eq, Option.ne_none_iff_exists'] at hread
      obtain ⟨update, hupdate⟩ := hread
      refine ⟨update.result, by rw [hupdate]; rfl, fun hmeets => ?_⟩
      cases hresult : update.result with
      | error failure => exact ⟨failure, rfl⟩
      | ok after =>
          rw [Update.result_eq_ok_iff.mp hresult] at hupdate
          exact absurd ⟨offset, value, after, hfresh, hupdate⟩ (hmeets.not_typeReadsWell buffer _)
  · have hcomes : ∀ part, ¬context.ReadComesTo name buffer offset part := by
      rintro part ⟨value, hfresh, -⟩
      exact hnot value hfresh
    have hreturns : context.ReadReturns capacity name buffer offset :=
      fun value hfresh => absurd hfresh (hnot value)
    refine ⟨iff_of_true hreturns fun part hpart => absurd hpart (hcomes part),
      fun _ => ⟨_, heq, fun _ => ⟨failure, rfl⟩⟩, ?_⟩
    rw [heq]
    refine iff_of_false (by simp) ?_
    rintro ⟨part, hpart, -⟩
    exact hcomes part hpart

/-! ### A coil, a tape that it is wound on, and a chain -/

def coilRecords : List TypeRecord :=
  [.base "byte" 1 .unsigned, .union "coil" [⟨"turn", "coil"⟩],
    .union "chain" [⟨"number", "byte"⟩, ⟨"next", "chain"⟩],
    { TypeRecord.union "tape" [⟨"coil", "coil"⟩] with size := some (.bytes 8) }]

/-- Arrays may have as many elements as a word can count. -/
def coilContext : Context :=
  .ofRecords coilRecords .arm ⟨32, 18446744073709551615⟩

/-- What declares a size has no part but a coil, and a coil has none but itself. -/
theorem declaredSizesEnd_coil : coilContext.DeclaredSizesEnd := by
  intro name record hresolve hsize hcycle
  have hcoil : coilContext.resolve? "coil" = some (.union "coil" [⟨"turn", "coil"⟩]) := rfl
  have hparts : ∀ part ∈ record.references, part = "coil" := by
    rcases resolve?_cases hresolve with ⟨-, hmem⟩ | ⟨-, hdeclarator⟩
    · have hrecords : ∀ record ∈ coilContext.registry.records, record.size ≠ none →
          ∀ part ∈ record.references, part = "coil" := by decide
      exact hrecords record hmem hsize
    · unfold TypeRecord.ofDeclarator? at hdeclarator
      split at hdeclarator <;> cases hdeclarator
      · simp [TypeRecord.references, TypeRecord.native]
      · exact absurd rfl hsize
  have hlast : ∀ last, TransGen coilContext.RefersTo name last → last = "coil" := by
    intro last hpath
    induction hpath with
    | single hstep =>
        obtain ⟨other, hother, hpart⟩ := hstep
        cases hresolve.symm.trans hother
        exact hparts _ hpart
    | tail _ hstep ih =>
        obtain ⟨other, hother, hpart⟩ := hstep
        subst ih
        cases hcoil.symm.trans hother
        exact List.mem_singleton.mp hpart
  obtain rfl := hlast name hcycle
  cases hcoil.symm.trans hresolve
  exact hsize rfl

theorem read_ends_coils :
    coilContext.DeclaredSizesEnd ∧ coilContext.ReadReturns 3 "coil[3]" #[7] 0 ∧
      ∃ failure, coilContext.read "coil[3]" #[7] 0 = some (.error failure) := by
  have hdeclared := declaredSizesEnd_coil
  have hrecord : coilContext.resolve? "coil[3]" = some (.array "coil[3]" "coil" (some 3)) := by
    decide
  have hsize : ∀ size, coilContext.sizeOf "coil" ≠ .ok size := by
    have hfails : (coilContext.sizeOf "coil").isOk = false := by decide
    intro size hsize
    rw [hsize] at hfails
    contradiction
  obtain ⟨hreturns, houtcome, -⟩ := read_ends hdeclared 3 "coil[3]" #[7] 0
  have hends : coilContext.ReadReturns 3 "coil[3]" #[7] 0 := by
    refine hreturns.mpr ?_
    rintro part ⟨value, hfresh, hvisits⟩
    obtain ⟨record, hresolve, -, rfl⟩ := hfresh.eq_blank
    cases hrecord.symm.trans hresolve
    have hpart : part = .array (.array "coil[3]" "coil" (some 3)) 0 [] := by
      rcases ReflTransGen.cases_head hvisits with rfl | ⟨child, hvisit, -⟩
      · rfl
      · cases hvisit with
        | item _ helement hstride =>
            cases helement
            exact absurd hstride (hsize _)
    subst hpart
    constructor
    · rintro ⟨name, hname, hcycle⟩
      obtain ⟨-, ⟨found, hfound, hkind, -⟩, -⟩ := TransGen.head'_iff.mp hcycle
      cases hname.symm.trans hfound
      exact absurd hkind (by decide)
    · rintro length ⟨-, element, stride, helement, hstride⟩
      cases helement
      exact absurd hstride (hsize stride)
  have hinto : coilContext.ReadsInto "coil[3]" "coil" := ⟨_, hrecord, by decide⟩
  have hturn : coilContext.ReadsInto "coil" "coil" := ⟨_, rfl, by decide⟩
  obtain ⟨outcome, hread, herror⟩ := houtcome hends
  obtain ⟨failure, rfl⟩ := herror (.part hinto (.reading (.single hturn)))
  exact ⟨hdeclared, hends, failure, hread⟩

/-- A coil has no last turn, also on a tape of declared size; an array may have more elements than
there is room for; and a chain comes to itself in a slot that is not read. -/
theorem read_coil :
    coilContext.DeclaredSizesEnd ∧ TransGen coilContext.RefersTo "coil" "coil" ∧
      coilContext.read "coil" #[7] 0 = none ∧
      ¬coilContext.ReadReturns (Nat.pow 2 60) "coil" #[7] 0 ∧
      coilContext.read "tape" #[7] 0 = none ∧
      ¬coilContext.ReadReturns (Nat.pow 2 60) "byte[2305843009213693952]" #[7] 0 ∧
      TransGen coilContext.RefersTo "chain" "chain" ∧
      ∃ value, coilContext.read "chain" #[7] 0 = some (.ok value) := by
  have hturn : coilContext.RefersTo "coil" "coil" := ⟨_, rfl, by decide⟩
  have hnext : coilContext.RefersTo "chain" "chain" := ⟨_, rfl, by decide⟩
  -- both the coil and the tape come to a coil
  have hendless : ∀ name record, coilContext.resolve? name = some record → record.kind = .union →
      record.slots.map (·.typeName) = ["coil"] →
      coilContext.read name #[7] 0 = none ∧
        ¬coilContext.ReadReturns (Nat.pow 2 60) name #[7] 0 := by
    intro name record hresolve hkind hslots
    obtain ⟨slot, hslot, htype⟩ := List.map_eq_singleton_iff.mp hslots
    have hfresh := Value.freshPart_blank hresolve (by simp [hkind]) (by simp [hkind]) 0
    rw [Value.blank, hkind] at hfresh
    have hturn : Value.FreshPart coilContext slot.typeName 0
        (.union (.union "coil" [⟨"turn", "coil"⟩]) 0 none) := by
      rw [htype]
      exact ⟨_, rfl, rfl⟩
    have hfirst : TransGen coilContext.FirstSlot "coil" "coil" := .single ⟨_, rfl, rfl, by decide⟩
    have hnone := (Value.read_eq_none_iff #[7] declaredSizesEnd_coil hfresh).mpr
      ⟨_, .single (.first hslot hturn), "coil", rfl, hfirst⟩
    refine ⟨by rw [hfresh.read_eq, hnone]; rfl, fun hreturns => ?_⟩
    obtain ⟨update, hupdate⟩ := (hreturns _ hfresh).exists_update hfresh
    rw [hnone] at hupdate
    contradiction
  obtain ⟨hcoil, hcoilEnds⟩ := hendless "coil" _ rfl rfl rfl
  obtain ⟨htape, -⟩ := hendless "tape" _ rfl rfl rfl
  have hread : ((coilContext.read "chain" #[7] 0).map Except.isOk) = some true := by
    decide +kernel
  obtain ⟨result, hresult, hok⟩ := Option.map_eq_some_iff.mp hread
  refine ⟨declaredSizesEnd_coil, .single hturn, hcoil, hcoilEnds, htape, fun hreturns => ?_,
    .single hnext, ?_⟩
  · have hrecord : coilContext.resolve? "byte[2305843009213693952]" =
        some (.array "byte[2305843009213693952]" "byte" (some 2305843009213693952)) := by
      decide
    have hfresh := Value.freshPart_blank hrecord (by simp [TypeRecord.array])
      (by simp [TypeRecord.array]) 0
    obtain ⟨hroom, -⟩ := hreturns _ hfresh
    have hlength : Value.readLength coilContext
        (.array "byte[2305843009213693952]" "byte" (some 2305843009213693952)) =
          .ok 2305843009213693952 := by
      simp [Value.readLength, TypeRecord.array, coilContext, Context.ofRecords]
    have hstride : coilContext.sizeOf "byte" = .ok 1 := rfl
    exact absurd (hroom _ ⟨hlength, "byte", 1, rfl, hstride⟩) (by simp)
  · cases result with
    | error failure => cases hok
    | ok value => exact ⟨value, hresult⟩

end Context

end BinarySchema
