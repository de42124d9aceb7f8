import Mathlib.Logic.Relation
import BinarySchema.Proofs.Layout.Size

/-!
# Reachable types

The type names that a name leads to through slots and array elements, and properties that hold of
every type on the way.  Records that differ in the value of a constant only are the same type: they
have the same parts, sizes and codecs.
-/

namespace BinarySchema

def Kind.isComposite : Kind → Bool
  | .struct | .union | .array => true
  | _ => false

namespace TypeRecord

/-- A struct, union or array leaves its size to its parts. -/
def SizedByContents (record : TypeRecord) : Prop :=
  record.kind.isComposite = true → record.size = none

/-- An array declares a length that is not above a limit. -/
def LengthWithin (limit : UInt64) (record : TypeRecord) : Prop :=
  record.kind = .array → ∃ length ∈ record.length, length ≤ limit

def Regular (limit : UInt64) (record : TypeRecord) : Prop :=
  record.SizedByContents ∧ record.LengthWithin limit

/-- The size is left to the parts, and there are as many of them as the type says. -/
def Closed (record : TypeRecord) : Prop :=
  record.SizedByContents ∧ (record.kind = .array → record.length ≠ none)

theorem Regular.closed {limit : UInt64} {record : TypeRecord} (h : record.Regular limit) :
    record.Closed := by
  refine ⟨h.1, fun hkind => ?_⟩
  obtain ⟨length, hlength, -⟩ := h.2 hkind
  exact Option.ne_none_iff_exists'.mpr ⟨length, hlength⟩

instance (record : TypeRecord) : Decidable record.SizedByContents :=
  inferInstanceAs (Decidable (_ → _))

instance (record : TypeRecord) : Decidable record.Closed :=
  inferInstanceAs (Decidable (_ ∧ (_ → _)))

instance (limit : UInt64) (record : TypeRecord) : Decidable (record.LengthWithin limit) :=
  inferInstanceAs (Decidable (_ → _))

/-- The slots of a struct have names of their own. -/
def DistinctSlots (record : TypeRecord) : Prop :=
  record.kind = .struct → (record.slots.map Slot.name).Nodup

instance (record : TypeRecord) : Decidable record.DistinctSlots :=
  inferInstanceAs (Decidable (_ → _))

theorem slotIndex?_of_nodup {record : TypeRecord} {index : Nat} {slot : Slot}
    (hnodup : (record.slots.map Slot.name).Nodup) (hslot : record.slots[index]? = some slot) :
    record.slotIndex? slot.name = some index := by
  obtain ⟨hindex, rfl⟩ := List.getElem?_eq_some_iff.mp hslot
  have hpairs := List.pairwise_iff_getElem.mp (List.pairwise_map.mp hnodup)
  rw [slotIndex?, List.findIdx?_eq_some_iff_getElem]
  refine ⟨hindex, by simp, fun other hlt => ?_⟩
  simpa using hpairs other index (Nat.lt_trans hlt hindex) hindex hlt

theorem slot?_of_nodup {record : TypeRecord} {index : Nat} {slot : Slot}
    (hnodup : (record.slots.map Slot.name).Nodup) (hslot : record.slots[index]? = some slot) :
    record.slot? slot.name = some slot := by
  have hindex := slotIndex?_of_nodup hnodup hslot
  unfold slotIndex? at hindex
  rw [slot?, List.find?_eq_bind_findIdx?_getElem?, hindex]
  exact hslot

end TypeRecord

theorem TypeRecord.SizedByContents.sizedByParts {context : Context} {budget : Nat}
    {record : TypeRecord} {size : UInt64} (h : record.SizedByContents)
    (hkind : record.kind.isComposite = true)
    (hsize : context.sizeWithin (budget + 1) record = .ok size) :
    context.SizedByParts budget record size :=
  (Context.sizeWithin_succ_eq_ok_iff (h hkind)).mp hsize

namespace Context

variable {context : Context}

def RefersTo (context : Context) (name part : String) : Prop :=
  ∃ record, context.resolve? name = some record ∧ part ∈ record.references

def Reaches (context : Context) : String → String → Prop :=
  Relation.ReflTransGen context.RefersTo

/-- A property holds of every type that a name leads to, its own included. -/
def Throughout (context : Context) (P : TypeRecord → Prop) (name : String) : Prop :=
  ∀ other record, context.Reaches name other → context.resolve? other = some record → P record

variable {P : TypeRecord → Prop} {name part : String} {record : TypeRecord}

/-- What a name resolves to is registered under it, or spelled by it if nothing is. -/
theorem resolve?_cases (h : context.resolve? name = some record) :
    (name ∈ context.registry.names ∧ record ∈ context.registry.records) ∨
      (name ∉ context.registry.names ∧ TypeRecord.ofDeclarator? name = some record) := by
  unfold Context.resolve? Registry.resolve? at h
  split at h
  · rename_i found hget
    cases h
    have hmem : record ∈ context.registry.records := List.mem_of_find?_eq_some hget
    have hname : record.name = name := by simpa using List.find?_some hget
    exact .inl ⟨hname ▸ List.mem_map_of_mem hmem, hmem⟩
  · rename_i hget
    exact .inr ⟨by simpa [Registry.get?, Registry.names] using hget, h⟩

theorem Throughout.here (h : context.Throughout P name)
    (hresolve : context.resolve? name = some record) : P record :=
  h name record .refl hresolve

theorem Throughout.reference (h : context.Throughout P name)
    (hresolve : context.resolve? name = some record) (hpart : part ∈ record.references) :
    context.Throughout P part :=
  fun other found hreaches => h other found (.head ⟨record, hresolve, hpart⟩ hreaches)

theorem Throughout.imp {Q : TypeRecord → Prop} (himp : ∀ record, P record → Q record)
    (h : context.Throughout P name) : context.Throughout Q name :=
  fun other found hreaches hfound => himp found (h other found hreaches hfound)

theorem Throughout.and {Q : TypeRecord → Prop} (hp : context.Throughout P name)
    (hq : context.Throughout Q name) :
    context.Throughout (fun record => P record ∧ Q record) name :=
  fun other found hreaches hfound =>
    ⟨hp other found hreaches hfound, hq other found hreaches hfound⟩

theorem throughout_of_references
    (hhere : ∀ record, context.resolve? name = some record → P record)
    (hpart : ∀ record, context.resolve? name = some record →
      ∀ part ∈ record.references, context.Throughout P part) :
    context.Throughout P name := by
  intro other found hreaches hfound
  rcases Relation.ReflTransGen.cases_head hreaches with
    rfl | ⟨middle, ⟨record, hrecord, hmem⟩, hrest⟩
  · exact hhere found hfound
  · exact hpart record hrecord middle hmem other found hrest hfound

/-- Names that are closed under the references of their types are all that one of them leads to. -/
theorem mem_of_reaches {names : List String} {other : String} (hmem : name ∈ names)
    (hclosed : ∀ middle ∈ names, ∀ record ∈ context.resolve? middle, record.references ⊆ names)
    (h : context.Reaches name other) : other ∈ names := by
  induction h with
  | refl => exact hmem
  | tail _ hstep ih =>
      obtain ⟨record, hresolve, hpart⟩ := hstep
      exact hclosed _ ih record hresolve hpart

end Context

/-! ### A frame of a tag, a choice of two numbers and two levels -/

def frameRecords : List TypeRecord :=
  [.base "byte" 1 .unsigned, { TypeRecord.base "word" 2 .unsigned with order := .big },
    .base "level" 4 .floating, .union "choice" [⟨"small", "byte"⟩, ⟨"large", "word"⟩],
    .struct "frame" [⟨"tag", "word"⟩, ⟨"body", "choice"⟩, ⟨"levels", "level[2]"⟩]]

def frameContext : Context :=
  .ofRecords frameRecords .arm {}

theorem mem_of_reaches_frame {name : String} (h : frameContext.Reaches "frame" name) :
    name ∈ ["frame", "word", "choice", "level[2]", "byte", "level"] := by
  refine Context.mem_of_reaches (by decide) ?_ h
  decide

theorem throughout_frame {P : TypeRecord → Prop} (hrecords : ∀ record ∈ frameRecords, P record)
    (hlevels : P (.array "level[2]" "level" (some 2))) : frameContext.Throughout P "frame" := by
  have hparts : ∀ {name : String} {record : TypeRecord},
      frameContext.resolve? name = some record → P record →
      (∀ part ∈ record.references, frameContext.Throughout P part) →
      frameContext.Throughout P name := by
    intro name record hresolve hP hparts
    refine Context.throughout_of_references (fun found h => ?_) fun found h => ?_
    · cases hresolve.symm.trans h
      exact hP
    · cases hresolve.symm.trans h
      exact hparts
  simp only [frameRecords, List.forall_mem_cons, List.not_mem_nil, false_implies, implies_true,
    and_true] at hrecords
  obtain ⟨hbyte, hword, hlevel, hchoice, hframe⟩ := hrecords
  have hbyte : frameContext.Throughout P "byte" :=
    hparts rfl hbyte fun part hpart => by cases hpart
  have hword : frameContext.Throughout P "word" :=
    hparts rfl hword fun part hpart => by cases hpart
  have hlevel : frameContext.Throughout P "level" :=
    hparts rfl hlevel fun part hpart => by cases hpart
  have hchoice : frameContext.Throughout P "choice" := by
    refine hparts rfl hchoice ?_
    simp only [TypeRecord.references, TypeRecord.union, List.map_cons, List.map_nil,
      List.forall_mem_cons]
    exact ⟨hbyte, hword, by simp⟩
  have hlevels : frameContext.Throughout P "level[2]" := by
    refine hparts (rfl : _ = some (TypeRecord.array "level[2]" "level" (some 2))) hlevels ?_
    simpa [TypeRecord.references, TypeRecord.array] using hlevel
  refine hparts rfl hframe ?_
  simp only [TypeRecord.references, TypeRecord.struct, List.map_cons, List.map_nil,
    List.forall_mem_cons]
  exact ⟨hword, hchoice, hlevels, by simp⟩

/-! ## The same type -/

/-- Two records are one type when they are identical or compare as equal, which they may do with
constants that are zeros of different sign. -/
def TypeRecord.Same (a b : TypeRecord) : Prop :=
  a = b ∨ a.equal b = true

namespace TypeRecord.Same

variable {context : Context} {a b : TypeRecord}

theorem refl (record : TypeRecord) : record.Same record := .inl rfl

theorem exists_value (h : a.Same b) : ∃ value, b = { a with value := value } := by
  rcases h with rfl | h
  · exact ⟨a.value, rfl⟩
  · simp only [TypeRecord.equal, Bool.and_eq_true, beq_iff_eq] at h
    refine ⟨b.value, ?_⟩
    obtain ⟨hrest, -⟩ := h
    cases a
    cases b
    simp_all

theorem kind_eq (h : a.Same b) : a.kind = b.kind := by
  obtain ⟨value, rfl⟩ := h.exists_value
  rfl

theorem slots_eq (h : a.Same b) : a.slots = b.slots := by
  obtain ⟨value, rfl⟩ := h.exists_value
  rfl

theorem slot?_eq (h : a.Same b) (name : String) : a.slot? name = b.slot? name := by
  rw [TypeRecord.slot?, h.slots_eq]
  rfl

theorem element_eq (h : a.Same b) : a.element = b.element := by
  obtain ⟨value, rfl⟩ := h.exists_value
  rfl

theorem length_eq (h : a.Same b) : a.length = b.length := by
  obtain ⟨value, rfl⟩ := h.exists_value
  rfl

theorem references_eq (h : a.Same b) : a.references = b.references := by
  obtain ⟨value, rfl⟩ := h.exists_value
  rfl

theorem closed_iff (h : a.Same b) : a.Closed ↔ b.Closed := by
  obtain ⟨value, rfl⟩ := h.exists_value
  rfl

theorem sizeOfRecord_eq (h : a.Same b) : context.sizeOfRecord a = context.sizeOfRecord b := by
  obtain ⟨value, rfl⟩ := h.exists_value
  simp only [Context.sizeOfRecord, Context.sizeWithin, TypeRecord.elementName]

theorem slotPlacements_eq (h : a.Same b) :
    context.slotPlacements a = context.slotPlacements b := by
  obtain ⟨value, rfl⟩ := h.exists_value
  rfl

end TypeRecord.Same

/-! ## Sizes from contents -/

namespace Context

/-- A type with a size that comes from its contents at every depth. -/
structure SizedThroughout (context : Context) (record : TypeRecord) (size : UInt64) : Prop where
  size : context.sizeOfRecord record = .ok size
  closed : record.Closed
  parts : ∀ name ∈ record.references, context.Throughout TypeRecord.Closed name

namespace SizedThroughout

variable {context : Context} {record part : TypeRecord} {size width : UInt64}

theorem of_same (h : context.SizedThroughout record size) (hsame : part.Same record) :
    context.SizedThroughout part size :=
  ⟨hsame.sizeOfRecord_eq.trans h.size, hsame.closed_iff.mpr h.closed,
    fun name hmem => h.parts name (hsame.references_eq ▸ hmem)⟩

theorem reference (h : context.SizedThroughout record size) {name : String}
    (hmem : name ∈ record.references) (hwidth : context.sizeOf name = .ok width)
    (hresolve : context.resolve? name = some part) : context.SizedThroughout part width := by
  obtain ⟨found, hfound, hsize⟩ := sizeOf_eq_ok_iff.mp hwidth
  cases hresolve.symm.trans hfound
  exact ⟨hsize, (h.parts name hmem).here hresolve,
    fun other hother => (h.parts name hmem).reference hresolve hother⟩

theorem placements (h : context.SizedThroughout record size) (hkind : record.kind = .struct) :
    ∃ placements, context.slotPlacements record = .ok placements ∧
      ∀ placement ∈ placements, placement.stop ≤ size.toNat :=
  placements_of_sizeOfRecord hkind (h.closed.1 (by simp [hkind, Kind.isComposite])) h.size

theorem slot_of_union (h : context.SizedThroughout record size) (hkind : record.kind = .union)
    {slot : Slot} (hslot : slot ∈ record.slots) :
    ∃ width, context.sizeOf slot.typeName = .ok width ∧ width.toNat ≤ size.toNat :=
  slot_size_of_sizeOfRecord hkind (h.closed.1 (by simp [hkind, Kind.isComposite])) h.size hslot

theorem slot (h : context.SizedThroughout record size)
    (hkind : record.kind = .struct ∨ record.kind = .union) {slot : Slot}
    (hslot : slot ∈ record.slots) : ∃ width, context.sizeOf slot.typeName = .ok width := by
  rcases hkind with hkind | hkind
  · obtain ⟨placements, hplacements, -⟩ := h.placements hkind
    obtain ⟨index, hindex, rfl⟩ := List.getElem_of_mem hslot
    have hplacement := List.getElem?_eq_getElem (length_slotPlacements hplacements ▸ hindex)
    exact ⟨_, slotPlacements_size hplacements (List.getElem?_eq_getElem hindex) hplacement⟩
  · obtain ⟨width, hwidth, -⟩ := h.slot_of_union hkind hslot
    exact ⟨width, hwidth⟩

theorem element (h : context.SizedThroughout record size) (hkind : record.kind = .array) :
    ∃ length name stride, record.length = some length ∧ record.element = some name ∧
      context.sizeOf name = .ok stride ∧ size.toNat = length.toNat * stride.toNat := by
  obtain ⟨length, hlength⟩ := Option.ne_none_iff_exists'.mp (h.closed.2 hkind)
  obtain ⟨name, stride, helement, hstride, hsize⟩ := stride_of_sizeOfRecord hkind
    (h.closed.1 (by simp [hkind, Kind.isComposite])) hlength h.size
  exact ⟨length, name, stride, hlength, helement, hstride, hsize⟩

end SizedThroughout

end Context

end BinarySchema
