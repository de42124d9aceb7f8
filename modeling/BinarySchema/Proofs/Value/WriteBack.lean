import BinarySchema.Proofs.Value.Reading
import BinarySchema.Proofs.Value.Writing

/-!
# Writing back what was read

A value that was read can be written to every buffer that is at least as long, and stores at its
leaves the bytes that were there.  Leaves may overlap, as they do in a type that declares a size too
small for its contents: all of them hold bytes of the same buffer.
-/

namespace BinarySchema

namespace Value

variable {context : Context} {buffer : Buffer}

/-! ## Leaves of read values -/

/-- The leaf holds what the buffer has at its place. -/
def Leaf.ReadFrom (context : Context) (buffer : Buffer) (leaf : Leaf) : Prop :=
  ∃ codec, context.scalarCodec leaf.record = .ok codec ∧ codec.fits buffer leaf.offset = true ∧
    leaf.content = some (codec.encoding.decode (codec.wordAt buffer leaf.offset))

private theorem readFrom_of_readScalar {record : TypeRecord} {offset : UInt64} {content : Scalar}
    (h : readScalar context buffer record offset = .ok content) :
    Leaf.ReadFrom context buffer ⟨record, offset, some content⟩ := by
  unfold readScalar at h
  split at h
  · rename_i codec hcodec
    obtain ⟨hfits, rfl⟩ := ScalarCodec.read_eq_ok_iff.mp h
    exact ⟨codec, hcodec, hfits, rfl⟩
  · contradiction

/-- A read leaves nothing unset, and every leaf holds what the buffer has at its place. -/
theorem readFrom_of_readWithin {fuel : Nat} {value after : Value} (hshaped : value.Shaped)
    (h : readWithin context buffer fuel value = some (.done after)) :
    after.Complete ∧ ∀ leaf ∈ after.leaves, leaf.ReadFrom context buffer := by
  induction fuel generalizing value after with
  | zero => contradiction
  | succ fuel ih =>
      cases readStep_of_readWithin hshaped.here h with
      | scalar hread =>
          refine ⟨.node trivial (by simp), ?_⟩
          simpa [leaves] using readFrom_of_readScalar hread
      | active hread =>
          obtain ⟨hcomplete, hleaves⟩ := ih (hshaped.inside _ (by simp)) hread
          exact ⟨.node rfl (by simpa using hcomplete), hleaves⟩
      | first _ hfresh hread =>
          obtain ⟨hcomplete, hleaves⟩ := ih hfresh.sound.shaped hread
          exact ⟨.node rfl (by simpa using hcomplete), hleaves⟩
      | @struct record offset slots placements parts children hparts hread =>
          have hchild : ∀ child ∈ children,
              child.Complete ∧ ∀ leaf ∈ child.leaves, leaf.ReadFrom context buffer := by
            intro child hmem
            obtain ⟨index, hchild⟩ := List.getElem?_of_mem hmem
            obtain ⟨part, hpart, hstep⟩ := exists_getElem?_of_forall₂ hread hchild
            obtain ⟨slot, placement, start, -, -, -, hfresh⟩ := hparts.fresh index part hpart
            exact ih hfresh.sound.shaped hstep
          refine ⟨.node ?_ fun child hmem => (hchild child (by simpa using hmem)).1, ?_⟩
          · simp [CompleteHere]
          · intro leaf hleaf
            rw [leaves_struct_map_some, List.mem_flatMap] at hleaf
            obtain ⟨child, hmem, hleaf⟩ := hleaf
            exact (hchild child hmem).2 leaf hleaf
      | @array record offset length stride name items parts children hlength _ _ hcount hfresh
          hread =>
          have hchild : ∀ child ∈ children,
              child.Complete ∧ ∀ leaf ∈ child.leaves, leaf.ReadFrom context buffer := by
            intro child hmem
            obtain ⟨part, hpart, hstep⟩ := exists_of_mem_forall₂ hread hmem
            obtain ⟨index, hindex⟩ := List.getElem?_of_mem hpart
            obtain ⟨start, -, hfresh⟩ := hfresh index part hindex
            exact ih hfresh.sound.shaped hstep
          refine ⟨.node ?_ fun child hmem => (hchild child hmem).1, ?_⟩
          · intro declared hdeclared
            cases (length_of_readLength hlength).symm.trans hdeclared
            rw [← hread.length_eq, hcount]
          · intro leaf hleaf
            rw [leaves_array, List.mem_flatMap] at hleaf
            obtain ⟨child, hmem, hleaf⟩ := hleaf
            exact (hchild child hmem).2 leaf hleaf

/-! ## The bytes of leaves -/

/-- The leaf takes up the byte at an index. -/
def Leaf.Covers (context : Context) (leaf : Leaf) (index : Nat) : Prop :=
  ∃ codec, context.scalarCodec leaf.record = .ok codec ∧ leaf.offset.toNat ≤ index ∧
    index < leaf.offset.toNat + codec.width

def Covers (context : Context) (value : Value) (index : Nat) : Prop :=
  ∃ leaf ∈ value.leaves, leaf.Covers context index

def Leaf.IsNumber (leaf : Leaf) : Prop :=
  ∀ x, leaf.content = some (.float x) → x.isNaN = false

private theorem writes_of_readFrom {leaf : Leaf} {target : Buffer}
    (hread : leaf.ReadFrom context buffer) (hnumber : leaf.IsNumber)
    (hsize : buffer.size ≤ target.size) :
    ∃ after, leaf.Writes context target after ∧ after.size = target.size ∧
      ∀ index, (leaf.Covers context index → after[index]? = buffer[index]?) ∧
        (¬leaf.Covers context index → after[index]? = target[index]?) := by
  obtain ⟨codec, hcodec, hfits, hcontent⟩ := hread
  have hword := Encoding.encode_decode (ScalarCodec.wordAt_lt hfits)
    fun x hx => hnumber x (hx ▸ hcontent)
  have hroom := ScalarCodec.fits_iff.mp hfits
  have hfitsTarget : leaf.offset.toNat + (codec.bytesOf (codec.wordAt buffer leaf.offset)).length ≤
      target.size := by
    rw [ScalarCodec.length_bytesOf]
    omega
  refine ⟨_, ⟨codec, _, _, hcodec, hcontent, ScalarCodec.fits_iff.mpr (by omega), hword, rfl⟩,
    Buffer.size_overwrite .., fun index => ⟨?_, ?_⟩⟩
  · rintro ⟨other, hother, hlow, hhigh⟩
    cases hcodec.symm.trans hother
    rw [Buffer.getElem?_overwrite hfitsTarget, ScalarCodec.length_bytesOf, if_pos ⟨hlow, hhigh⟩,
      ScalarCodec.bytesOf_wordAt hfits, Buffer.getElem?_slice, if_pos (by omega),
      Nat.add_sub_of_le hlow]
  · intro houtside
    rw [Buffer.getElem?_overwrite hfitsTarget, ScalarCodec.length_bytesOf, if_neg]
    rintro ⟨hlow, hhigh⟩
    exact houtside ⟨codec, hcodec, hlow, hhigh⟩

private theorem writesAll_of_readFrom {leaves : List Leaf} {target : Buffer}
    (hread : ∀ leaf ∈ leaves, leaf.ReadFrom context buffer)
    (hnumbers : ∀ leaf ∈ leaves, leaf.IsNumber) (hsize : buffer.size ≤ target.size) :
    ∃ after, WritesAll context leaves target after ∧ after.size = target.size ∧
      ∀ index, ((∃ leaf ∈ leaves, leaf.Covers context index) → after[index]? = buffer[index]?) ∧
        ((¬∃ leaf ∈ leaves, leaf.Covers context index) → after[index]? = target[index]?) := by
  induction leaves generalizing target with
  | nil => exact ⟨target, .nil, rfl, by simp⟩
  | cons leaf rest ih =>
      obtain ⟨middle, hmiddle, hmiddleSize, hbytes⟩ :=
        writes_of_readFrom (hread leaf (.head _)) (hnumbers leaf (.head _)) hsize
      obtain ⟨after, hafter, hafterSize, hothers⟩ := ih
        (fun other hmem => hread other (.tail _ hmem))
        (fun other hmem => hnumbers other (.tail _ hmem)) (hmiddleSize ▸ hsize)
      refine ⟨after, .cons hmiddle hafter, hafterSize.trans hmiddleSize, fun index => ?_⟩
      simp only [List.mem_cons, exists_eq_or_imp]
      by_cases hrest : ∃ other ∈ rest, other.Covers context index
      · exact ⟨fun _ => (hothers index).1 hrest, fun hnone => absurd (.inr hrest) hnone⟩
      · have hsame := (hothers index).2 hrest
        constructor
        · rintro (hleaf | hother)
          · exact hsame.trans ((hbytes index).1 hleaf)
          · exact absurd hother hrest
        · intro hnone
          exact hsame.trans ((hbytes index).2 fun hleaf => hnone (.inl hleaf))

end Value

/-! ## Reading and writing back -/

namespace Context

variable {context : Context}

/-- A value without NaNs that was read from a buffer is written to every buffer at least as long:
the bytes of its scalars become those of the buffer and no others change.  The buffer itself stays
as it is. -/
theorem write_of_read {name : String} {buffer : Buffer} {offset : UInt64} {value : Value}
    (hread : context.read name buffer offset = some (.ok value))
    (hnumbers : ∀ leaf ∈ value.leaves, ∀ x, leaf.content = some (.float x) → x.isNaN = false) :
    (∀ target : Buffer, buffer.size ≤ target.size →
      ∃ written, value.write context target = .done written ∧ written.size = target.size ∧
        ∀ index, (value.Covers context index → written[index]? = buffer[index]?) ∧
          (¬value.Covers context index → written[index]? = target[index]?)) ∧
    value.write context buffer = .done buffer := by
  obtain ⟨part, fuel, hpart, hfill⟩ := Value.readWithin_of_read hread
  obtain ⟨hcomplete, hleaves⟩ := Value.readFrom_of_readWithin hpart.sound.shaped hfill
  have hshaped := (Value.sound_of_read hread).shaped
  have hwrite : ∀ target : Buffer, buffer.size ≤ target.size →
      ∃ written, value.write context target = .done written ∧ written.size = target.size ∧
        ∀ index, (value.Covers context index → written[index]? = buffer[index]?) ∧
          (¬value.Covers context index → written[index]? = target[index]?) := by
    intro target hsize
    obtain ⟨written, hwritten, hsize, hbytes⟩ :=
      Value.writesAll_of_readFrom hleaves hnumbers hsize
    exact ⟨written, (Value.write_eq_done_iff hshaped).mpr ⟨hcomplete, hwritten⟩, hsize, hbytes⟩
  refine ⟨hwrite, ?_⟩
  obtain ⟨written, hwritten, -, hbytes⟩ := hwrite buffer (Nat.le_refl _)
  have hsame : written = buffer := by
    apply Array.ext_getElem?
    intro index
    by_cases hcovers : value.Covers context index
    · exact (hbytes index).1 hcovers
    · exact (hbytes index).2 hcovers
  exact hsame ▸ hwritten

theorem write_of_read_frame :
    ∃ value, frameContext.read "frame" (.replicate 18 1) 2 = some (.ok value) ∧
      (∀ leaf ∈ value.leaves, ∀ x, leaf.content = some (.float x) → x.isNaN = false) ∧
      value.write frameContext (.replicate 18 1) = .done (.replicate 18 1) := by
  have hall : ((frameContext.read "frame" (.replicate 18 1) 2).any fun result =>
      result.toOption.any fun value => value.leaves.all fun leaf =>
        leaf.content.all fun content => !content.toBinary64.isNaN) = true := by
    decide +kernel
  generalize hread : frameContext.read "frame" (.replicate 18 1) 2 = result at hall
  cases result with
  | none => simp at hall
  | some result =>
    cases result with
    | error e => simp [Except.toOption] at hall
    | ok value =>
      have hnumbers : ∀ leaf ∈ value.leaves, ∀ x, leaf.content = some (.float x) →
          x.isNaN = false := by
        intro leaf hleaf x hx
        have hleaves : (value.leaves.all fun leaf =>
            leaf.content.all fun content => !content.toBinary64.isNaN) = true := hall
        simpa [hx, Scalar.toBinary64] using List.all_eq_true.mp hleaves leaf hleaf
      exact ⟨value, rfl, hnumbers, (write_of_read hread hnumbers).2⟩

end Context

end BinarySchema
