import Mathlib.Tactic.Ring
import BinarySchema.Proofs.Schema.Declarator
import BinarySchema.Proofs.Value.Levels

/-!
# Arrays in several dimensions

An array whose name carries several lengths is read row by row: the outermost array holds as many
rows as its last length says, every row is an array with the lengths before that, and the parts lie
without gaps, the first index running fastest.
-/

namespace BinarySchema

/-- The number of the part at a path of indices, the innermost index first. -/
def rowMajor : List Nat → List UInt64 → Nat
  | index :: indices, length :: lengths => index + length.toNat * rowMajor indices lengths
  | _, _ => 0

def volume (lengths : List UInt64) : Nat :=
  (lengths.map UInt64.toNat).prod

/-- Every index is below the length of its dimension. -/
def InRange (indices : List Nat) (lengths : List UInt64) : Prop :=
  List.Forall₂ (fun index length => index < length.toNat) indices lengths

theorem volume_append (front back : List UInt64) :
    volume (front ++ back) = volume front * volume back := by
  simp [volume]

theorem volume_concat (lengths : List UInt64) (length : UInt64) :
    volume (lengths ++ [length]) = volume lengths * length.toNat := by
  simp [volume]

theorem rowMajor_concat {indices : List Nat} {lengths : List UInt64}
    (hcount : indices.length = lengths.length) (index : Nat) (length : UInt64) :
    rowMajor (indices ++ [index]) (lengths ++ [length]) =
      rowMajor indices lengths + volume lengths * index := by
  induction indices generalizing lengths with
  | nil =>
      obtain rfl := List.length_eq_zero_iff.mp hcount.symm
      simp [rowMajor, volume]
  | cons first indices ih =>
      obtain ⟨own, lengths, rfl⟩ := List.exists_cons_of_length_eq_add_one hcount.symm
      simp only [List.length_cons, Nat.add_right_cancel_iff] at hcount
      simp only [List.cons_append, rowMajor, ih hcount, volume, List.map_cons, List.prod_cons]
      ring

theorem exists_concat_of_inRange {indices : List Nat} {lengths : List UInt64} {length : UInt64}
    (h : InRange indices (lengths ++ [length])) :
    ∃ front index, indices = front ++ [index] ∧ InRange front lengths ∧ index < length.toNat := by
  rw [InRange, ← List.forall₂_reverse_iff, List.reverse_concat,
    List.forall₂_cons_right_iff] at h
  obtain ⟨index, back, hlt, hback, hindices⟩ := h
  refine ⟨back.reverse, index, ?_, ?_, hlt⟩
  · rw [← List.reverse_cons, ← hindices, List.reverse_reverse]
  · rwa [InRange, ← List.forall₂_reverse_iff, List.reverse_reverse]

/-- The part at a path of indices, the outermost index first. -/
def Value.element? : List Nat → Value → Option Value
  | [], value => some value
  | index :: path, value => value.items[index]?.bind (element? path)

variable {context : Context} {element : String} {lengths : List UInt64} {size : UInt64}

/-- The names of all arrays in these dimensions are left to their declarators. -/
def Context.Unnamed (context : Context) (element : String) (lengths : List UInt64) : Prop :=
  ∀ front, front ≠ [] → front <+: lengths → context.registry.get? (arrayName element front) = none

namespace Context

theorem Unnamed.left {front back : List UInt64}
    (h : context.Unnamed element (front ++ back)) : context.Unnamed element front :=
  fun short hne hle => h short hne (hle.trans (List.prefix_append front back))

theorem resolve_arrayName {length : UInt64} (helement : Text.Trimmed element.toList)
    (h : context.Unnamed element (lengths ++ [length])) :
    context.resolve? (arrayName element (lengths ++ [length])) =
      some (.array (arrayName element (lengths ++ [length])) (arrayName element lengths)
        (some length)) := by
  rw [resolve?, Registry.resolve?, h _ (by simp) (List.prefix_refl _)]
  exact ofDeclarator?_arrayName helement lengths length

theorem sizeOf_arrayName {total : UInt64} (helement : Text.Trimmed element.toList)
    (hsize : context.sizeOf element = .ok size) (hfree : context.Unnamed element lengths)
    (h : context.sizeOf (arrayName element lengths) = .ok total) :
    total.toNat = size.toNat * volume lengths := by
  induction lengths using List.reverseRecOn generalizing total with
  | nil =>
      cases hsize.symm.trans h
      simp [volume]
  | append_singleton lengths length ih =>
      obtain ⟨record, hresolve, hrecord⟩ := sizeOf_eq_ok_iff.mp h
      cases (resolve_arrayName helement hfree).symm.trans hresolve
      obtain ⟨name, stride, ⟨⟩, hstride, htotal⟩ := stride_of_sizeOfRecord rfl rfl rfl hrecord
      rw [htotal, ih hfree.left hstride, volume_concat]
      ring

end Context

namespace Value

variable {buffer : Buffer} {start : UInt64} {after : Value}

theorem resolve_of_read {name : String} (h : context.read name buffer start = some (.ok after)) :
    context.resolve? name = some after.record ∧ after.offset = start := by
  obtain ⟨part, fuel, hfresh, hread⟩ := readWithin_of_read h
  obtain ⟨record, hresolve, -, rfl⟩ := hfresh.eq_blank
  obtain ⟨-, hrecord, hoffset⟩ := sound_of_readWithin hfresh.sound hread
  rw [hrecord, hoffset, record_blank, offset_blank]
  exact ⟨hresolve, rfl⟩

/-- Each path of indices into the last dimensions leads to what a read of the others gives. -/
theorem element?_of_read {front back : List UInt64} {indices : List Nat}
    (helement : Text.Trimmed element.toList) (hsize : context.sizeOf element = .ok size)
    (hfree : context.Unnamed element (front ++ back)) (hindices : InRange indices back)
    (h : context.read (arrayName element (front ++ back)) buffer start = some (.ok after)) :
    ∃ part place, after.element? indices.reverse = some part ∧
      place.toNat = start.toNat + size.toNat * volume front * rowMajor indices back ∧
      context.read (arrayName element front) buffer place = some (.ok part) := by
  induction back using List.reverseRecOn generalizing indices start after with
  | nil =>
      cases hindices
      rw [List.append_nil] at h
      exact ⟨after, start, rfl, by simp [rowMajor], h⟩
  | append_singleton back length ih =>
      -- the last dimension is the outermost one, so its index takes the first step
      obtain ⟨indices, index, rfl, hfront, hlt⟩ := exists_concat_of_inRange hindices
      rw [← List.append_assoc] at h hfree
      have hresolve := Context.resolve_arrayName helement hfree
      obtain ⟨stride, -, hstride, hcount, hitems⟩ := items_of_read hresolve rfl rfl rfl h
      have hitem : after.items[index]? = some _ := List.getElem?_eq_getElem (hcount ▸ hlt)
      obtain ⟨place, hplace, hrow⟩ := hitems index _ hitem
      obtain ⟨part, start, hpart, hstart, hread⟩ := ih hfree.left hfront hrow
      refine ⟨part, start, ?_, ?_, hread⟩
      · rw [List.reverse_append, List.reverse_singleton, List.singleton_append, element?, hitem]
        exact hpart
      · rw [hstart, hplace, Context.sizeOf_arrayName helement hsize hfree.left hstride,
          rowMajor_concat hfront.length_eq, volume_append]
        ring

end Value

namespace Context

/-- An array in several dimensions has the volume of all of them.  It is read with the last length
outermost, as so many rows of the lengths before it, and its parts lie in row-major order. -/
theorem arrayName_row_major (hsize : context.sizeOf element = .ok size)
    (helement : Text.Trimmed element.toList) (hfree : context.Unnamed element lengths) :
    (∀ total, context.sizeOf (arrayName element lengths) = .ok total →
      total.toNat = size.toNat * volume lengths) ∧
    ∀ buffer offset value,
      context.read (arrayName element lengths) buffer offset = some (.ok value) →
      (∀ front length back indices, lengths = front ++ length :: back → InRange indices back →
        ∃ row, value.element? indices.reverse = some row ∧ row.record.kind = .array ∧
          row.items.length = length.toNat) ∧
      ∀ indices, InRange indices lengths →
        ∃ part, value.element? indices.reverse = some part ∧
          context.resolve? element = some part.record ∧
          part.offset.toNat = offset.toNat + size.toNat * rowMajor indices lengths := by
  refine ⟨fun total => sizeOf_arrayName helement hsize hfree, fun buffer offset value h => ⟨?_, ?_⟩⟩
  · rintro front length back indices rfl hindices
    rw [List.append_cons] at h hfree
    obtain ⟨row, place, hrow, -, hread⟩ :=
      Value.element?_of_read helement hsize hfree hindices h
    have hresolve := resolve_arrayName helement hfree.left
    obtain ⟨hrecord, -⟩ := Value.resolve_of_read hread
    obtain ⟨-, -, -, hcount, -⟩ := Value.items_of_read hresolve rfl rfl rfl hread
    rw [hresolve, Option.some.injEq] at hrecord
    exact ⟨row, hrow, by rw [← hrecord]; rfl, hcount⟩
  · intro indices hindices
    rw [← List.nil_append lengths] at h hfree
    obtain ⟨part, place, hpart, hplace, hread⟩ :=
      Value.element?_of_read helement hsize hfree hindices h
    obtain ⟨hrecord, hoffset⟩ := Value.resolve_of_read hread
    refine ⟨part, hpart, hrecord, ?_⟩
    rw [hoffset, hplace]
    simp [volume]

/-- Two rows of three words: the last word of the second row has five words before it. -/
theorem arrayName_row_major_words :
    frameContext.sizeOf "word" = .ok 2 ∧ arrayName "word" [3, 2] = "word[3][2]" ∧
      frameContext.Unnamed "word" [3, 2] ∧
      (∃ total, frameContext.sizeOf "word[3][2]" = .ok total ∧ total.toNat = 2 * (3 * 2)) ∧
      ∃ value, frameContext.read "word[3][2]" (.replicate 14 1) 2 = some (.ok value) ∧
        (∃ row, value.element? [1] = some row ∧ row.items.length = 3) ∧
        ∃ part, value.element? [1, 2] = some part ∧
          frameContext.resolve? "word" = some part.record ∧
          part.offset.toNat = 2 + 2 * (2 + 3 * 1) := by
  have hsize : frameContext.sizeOf "word" = .ok 2 := rfl
  have hname : arrayName "word" [3, 2] = "word[3][2]" := rfl
  have hword : Text.Trimmed "word".toList := by
    constructor <;> rintro _ ⟨⟩ <;> rfl
  have hfree : frameContext.Unnamed "word" [3, 2] := by
    intro front hne hle
    simp only [List.prefix_cons_iff, List.prefix_nil] at hle
    rcases hle with rfl | ⟨_, rfl, rfl | ⟨_, rfl, rfl⟩⟩
    · contradiction
    · rfl
    · rfl
  have hfresh : Value.FreshPart frameContext "word[3][2]" 2
      (.array (.array "word[3][2]" "word[3]" (some 2)) 2 []) := ⟨_, rfl, rfl⟩
  have hread : ∃ value, frameContext.read "word[3][2]" (.replicate 14 1) 2 = some (.ok value) :=
    ⟨_, hfresh.read_eq_ok_iff.mpr ⟨3, rfl⟩⟩
  obtain ⟨value, hread⟩ := hread
  obtain ⟨htotal, hrows⟩ := arrayName_row_major hsize hword hfree
  obtain ⟨hrow, hpart⟩ := hrows _ _ value (hname ▸ hread)
  obtain ⟨row, hrow, -, hcount⟩ := hrow [] 3 [2] [1] rfl (.cons (by decide) .nil)
  obtain ⟨part, hpart, hrecord, hplace⟩ :=
    hpart [2, 1] (.cons (by decide) (.cons (by decide) .nil))
  exact ⟨hsize, hname, hfree, ⟨12, rfl, htotal 12 rfl⟩, value, hread, ⟨row, hrow, hcount⟩, part,
    hpart, hrecord, hplace⟩

end Context

end BinarySchema
