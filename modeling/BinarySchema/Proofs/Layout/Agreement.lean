import BinarySchema.Proofs.Layout.Reach
import BinarySchema.Proofs.Schema.Registry

/-!
# Contexts that agree on a type

Two contexts agree on a name when every name that it leads to resolves alike in both, under the same
limits, and words are as wide unless none of these types is sized by them.  Sizes, places and fields
are computed from nothing else, errors included.  Types loaded under other names make no difference,
nor does another platform where there is nothing of native size.
-/

namespace BinarySchema

open Relation

namespace Context

variable {first second : Context} {name part : String} {record : TypeRecord}

structure AgreeOn (first second : Context) (name : String) : Prop where
  limits_eq : first.limits = second.limits
  resolve_eq : ∀ other, first.Reaches name other → first.resolve? other = second.resolve? other
  words : first.wordSize = second.wordSize ∨
    first.Throughout (fun record => record.size ≠ some .native) name

/-- Two contexts agree on all that the meaning of a record depends on besides itself. -/
structure AgreeAt (first second : Context) (record : TypeRecord) : Prop where
  limits_eq : first.limits = second.limits
  parts : ∀ part ∈ record.references, first.AgreeOn second part
  words : record.size = some .native → first.wordSize = second.wordSize

namespace AgreeOn

theorem resolve?_eq (h : first.AgreeOn second name) :
    first.resolve? name = second.resolve? name :=
  h.resolve_eq name .refl

theorem require_eq (h : first.AgreeOn second name) :
    first.require name = second.require name := by
  simp only [require, h.resolve?_eq]

/-- It makes no difference in which of the contexts the names are followed. -/
theorem reaches_iff (h : first.AgreeOn second name) {other : String} :
    first.Reaches name other ↔ second.Reaches name other := by
  constructor
  · intro hreaches
    induction hreaches with
    | refl => exact .refl
    | tail hbefore hstep ih =>
        obtain ⟨record, hresolve, hpart⟩ := hstep
        exact ih.tail ⟨record, h.resolve_eq _ hbefore ▸ hresolve, hpart⟩
  · intro hreaches
    induction hreaches with
    | refl => exact .refl
    | tail _ hstep ih =>
        obtain ⟨record, hresolve, hpart⟩ := hstep
        exact ih.tail ⟨record, (h.resolve_eq _ ih).symm ▸ hresolve, hpart⟩

theorem symm (h : first.AgreeOn second name) : second.AgreeOn first name where
  limits_eq := h.limits_eq.symm
  resolve_eq other hreaches := (h.resolve_eq other (h.reaches_iff.mpr hreaches)).symm
  words := h.words.imp Eq.symm fun hnone other record hreaches hresolve =>
    have hback := h.reaches_iff.mpr hreaches
    hnone other record hback ((h.resolve_eq other hback).trans hresolve)

theorem reference (h : first.AgreeOn second name) (hresolve : first.resolve? name = some record)
    (hpart : part ∈ record.references) : first.AgreeOn second part where
  limits_eq := h.limits_eq
  resolve_eq other hreaches := h.resolve_eq other (.head ⟨record, hresolve, hpart⟩ hreaches)
  words := h.words.imp_right fun hnone => hnone.reference hresolve hpart

theorem agreeAt (h : first.AgreeOn second name) (hresolve : first.resolve? name = some record) :
    first.AgreeAt second record where
  limits_eq := h.limits_eq
  parts _ hpart := h.reference hresolve hpart
  words hnative := h.words.resolve_right fun hnone => hnone.here hresolve hnative

end AgreeOn

theorem AgreeAt.of_same {other : TypeRecord} (hsame : record.Same other)
    (h : first.AgreeAt second other) : first.AgreeAt second record where
  limits_eq := h.limits_eq
  parts _ hpart := h.parts _ (hsame.references_eq ▸ hpart)
  words hnative := h.words (by
    obtain ⟨value, rfl⟩ := hsame.exists_value
    exact hnative)

/-! ## Sizes and places -/

section

variable {budget : Nat}

private theorem partSize_eq_of_forall
    (hsize : ∀ record, first.AgreeAt second record →
      first.sizeWithin budget record = second.sizeWithin budget record)
    (h : first.AgreeOn second name) :
    first.partSize budget name = second.partSize budget name :=
  bind_congr_ok h.require_eq fun part hpart =>
    hsize part (h.agreeAt (require_eq_ok_iff.mp hpart))

/-- The sizes are the same for every limit on nesting, and so are the failures to find one. -/
theorem AgreeAt.sizeWithin_eq (h : first.AgreeAt second record) :
    first.sizeWithin budget record = second.sizeWithin budget record := by
  induction budget generalizing record with
  | zero => simp only [sizeWithin, h.limits_eq]
  | succ budget ih =>
      have hpart : ∀ part ∈ record.references,
          first.partSize budget part = second.partSize budget part :=
        fun part hpart => partSize_eq_of_forall (fun _ => ih) (h.parts part hpart)
      cases hsize : record.size with
      | some declared =>
          cases declared with
          | bytes count => simp only [sizeWithin, hsize]
          | native => simp only [sizeWithin, hsize, h.words hsize]
      | none =>
          have hslots : record.kind = .struct ∨ record.kind = .union → ∀ slot ∈ record.slots,
              first.partSize budget slot.typeName = second.partSize budget slot.typeName :=
            fun hkind slot hslot => hpart _ (TypeRecord.typeName_mem_references hkind hslot)
          cases hkind : record.kind with
          | base | alien | const => simp only [sizeWithin, hsize, hkind]
          | struct =>
              simp only [sizeWithin, hsize, hkind]
              exact bind_congr_ok (placeSlots_congr (hslots (.inl hkind))) fun _ _ => rfl
          | union =>
              simp only [sizeWithin, hsize, hkind]
              exact widestSlot_congr (hslots (.inr hkind))
          | array =>
              cases hlength : record.length with
              | none => simp only [sizeWithin, hsize, hkind, hlength]
              | some length =>
                  simp only [sizeWithin, hsize, hkind, hlength, h.limits_eq]
                  refine bind_congr_ok rfl fun element helement => ?_
                  have href := TypeRecord.element_mem_references hkind
                    (elementName_eq_ok_iff.mp helement)
                  exact bind_congr_ok (hpart element href) fun _ _ => rfl

theorem AgreeOn.partSize_eq (h : first.AgreeOn second name) :
    first.partSize budget name = second.partSize budget name :=
  partSize_eq_of_forall (fun _ => AgreeAt.sizeWithin_eq) h

end

theorem AgreeOn.sizeAt_eq (h : first.AgreeOn second name) (depth : Nat) :
    first.sizeAt depth name = second.sizeAt depth name := by
  rw [sizeAt, sizeAt, ← h.limits_eq]
  exact h.partSize_eq

theorem AgreeOn.sizeOf_eq (h : first.AgreeOn second name) :
    first.sizeOf name = second.sizeOf name :=
  h.sizeAt_eq 0

theorem AgreeAt.sizeOfRecord_eq (h : first.AgreeAt second record) :
    first.sizeOfRecord record = second.sizeOfRecord record := by
  rw [sizeOfRecord, sizeOfRecord, ← h.limits_eq]
  exact h.sizeWithin_eq

theorem AgreeAt.slotPlacements_eq (hkind : record.kind = .struct)
    (h : first.AgreeAt second record) :
    first.slotPlacements record = second.slotPlacements record :=
  placeSlots_congr fun _ hslot =>
    (h.parts _ (TypeRecord.typeName_mem_references (.inl hkind) hslot)).sizeAt_eq 1

theorem AgreeOn.fields_eq (h : first.AgreeOn second name) :
    first.fields name = second.fields name := by
  refine bind_congr_ok h.require_eq fun record hrecord => ?_
  have hparts := h.agreeAt (require_eq_ok_iff.mp hrecord)
  cases hkind : record.kind with
  | base | alien | const => rfl
  | struct => exact bind_congr_ok (hparts.slotPlacements_eq hkind) fun _ _ => rfl
  | union =>
      refine mapM_congr fun slot hslot => ?_
      have href := TypeRecord.typeName_mem_references (.inr hkind) hslot
      exact bind_congr_ok ((hparts.parts _ href).sizeAt_eq 1) fun _ _ => rfl
  | array =>
      refine bind_congr_ok rfl fun element helement => ?_
      have href := TypeRecord.element_mem_references hkind (elementName_eq_ok_iff.mp helement)
      refine bind_congr_ok ((hparts.parts _ href).sizeAt_eq 1) fun _ _ => ?_
      simp only [h.limits_eq]

/-! ## Changes that keep the agreement -/

variable {context : Context}

private theorem agreeOn_of_get? {records : List TypeRecord} {discard : Bool}
    (h : ∀ other, context.Reaches name other →
      (context.registry.load records discard).get? other = context.registry.get? other) :
    context.AgreeOn (context.load records discard) name where
  limits_eq := rfl
  resolve_eq other hreaches := Registry.resolve?_congr (h other hreaches).symm
  words := .inl rfl

/-- Records of names that a type does not lead to may be added or replaced. -/
theorem agreeOn_load {records : List TypeRecord}
    (h : ∀ record ∈ records, ¬context.Reaches name record.name) :
    context.AgreeOn (context.load records false) name := by
  refine agreeOn_of_get? fun other hreaches => ?_
  have hnone : Registry.lastNamed? records other = none :=
    Registry.lastNamed?_eq_none fun record hmem heq => h record hmem (heq ▸ hreaches)
  rw [Registry.get?_load, hnone]
  rfl

/-- Everything may be discarded that is not loaded again, as long as the type does not lead to
it. -/
theorem agreeOn_discard {records : List TypeRecord}
    (h : ∀ other, context.Reaches name other →
      Registry.lastNamed? records other = context.registry.get? other) :
    context.AgreeOn (context.load records true) name := by
  refine agreeOn_of_get? fun other hreaches => ?_
  rw [Registry.get?_load, h other hreaches]
  exact Option.or_none

theorem agreeOn_platform
    (h : context.Throughout (fun record => record.size ≠ some .native) name)
    (platform : Platform) : context.AgreeOn { context with platform } name where
  limits_eq := rfl
  resolve_eq _ _ := rfl
  words := .inr h

end Context

end BinarySchema
