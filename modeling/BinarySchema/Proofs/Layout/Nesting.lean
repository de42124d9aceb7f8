import BinarySchema.Proofs.Layout.Reach

/-!
# The limit on nesting

Sizes and places depend on the limit of nesting, and on how deep a type is nested, only in whether
they are computed at all.  A computation that does not stop for its depth ends alike, failures
included, in every place that is less deep and under every limit that is not smaller.
-/

namespace BinarySchema

/-! ## Computations that stop for their depth -/

section

variable {α β : Type}

def StopsForDepth (result : Except Error α) : Prop :=
  ∃ limit name, result = .error (.depthExceeded limit name)

theorem not_stopsForDepth_ok (a : α) : ¬StopsForDepth (.ok a) := by
  rintro ⟨limit, name, h⟩
  contradiction

/-- The second computation ends as the first one does, unless that one stops for its depth. -/
def EndsAlike (first second : Except Error α) : Prop :=
  ¬StopsForDepth first → second = first

namespace EndsAlike

theorem refl (result : Except Error α) : EndsAlike result result :=
  fun _ => rfl

/-- The first failure of a sequence is the same one in both. -/
theorem bind {first second : Except Error α} {next next' : α → Except Error β}
    (hfirst : EndsAlike first second) (hnext : ∀ a, EndsAlike (next a) (next' a)) :
    EndsAlike (first >>= next) (second >>= next') := by
  intro hgoes
  cases first with
  | error failure =>
      have hfailure : ¬StopsForDepth (.error failure : Except Error α) := by
        rintro ⟨limit, name, h⟩
        cases h
        exact hgoes ⟨limit, name, rfl⟩
      rw [hfirst hfailure, error_bind, error_bind]
  | ok a =>
      rw [hfirst (not_stopsForDepth_ok a), ok_bind, ok_bind]
      exact hnext a hgoes

variable {sizeOf sizeOf' : String → Except Error UInt64}

theorem placeSlots {packed : Bool} {start : UInt64} {slots : List Slot}
    (h : ∀ name, EndsAlike (sizeOf name) (sizeOf' name)) :
    EndsAlike (placeSlots packed sizeOf start slots) (placeSlots packed sizeOf' start slots) := by
  induction slots generalizing start with
  | nil => exact refl _
  | cons slot rest ih =>
      rw [placeSlots_cons, placeSlots_cons]
      refine (h slot.typeName).bind fun size => (refl _).bind fun offset => ?_
      exact (refl _).bind fun stop => ih.bind fun others => refl _

theorem widestSlot {widest : UInt64} {slots : List Slot}
    (h : ∀ name, EndsAlike (sizeOf name) (sizeOf' name)) :
    EndsAlike (widestSlot sizeOf widest slots) (widestSlot sizeOf' widest slots) := by
  induction slots generalizing widest with
  | nil => exact refl _
  | cons slot rest ih => exact (h slot.typeName).bind fun size => ih

end EndsAlike

end

/-! ## Sizes at a depth -/

namespace Context

/-- The same context under another limit on nesting. -/
def limitedTo (context : Context) (depth : Nat) : Context :=
  { context with limits := { context.limits with depth } }

/-- The size of a record that is nested in `depth` others. -/
def sizeOfRecordAt (context : Context) (depth : Nat) (record : TypeRecord) :
    Except Error UInt64 :=
  context.sizeWithin (context.limits.depth + 1 - depth) record

variable {context : Context} {record : TypeRecord} {depth limit more : Nat}

theorem sizeOfRecordAt_zero : context.sizeOfRecordAt 0 record = context.sizeOfRecord record := rfl

theorem sizeAt_eq_bind (name : String) :
    context.sizeAt depth name = context.require name >>= context.sizeOfRecordAt depth := rfl

/-- The depth is looked at before anything else, also before a declared size. -/
theorem sizeOfRecordAt_of_lt (h : context.limits.depth < depth) :
    context.sizeOfRecordAt depth record =
      .error (.depthExceeded context.limits.depth record.name) := by
  have hbudget : context.limits.depth + 1 - depth = 0 := by omega
  rw [sizeOfRecordAt, hbudget, sizeWithin]

/-- A struct ends where its slots do, which are one level deeper. -/
theorem sizeOfRecordAt_struct (h : depth ≤ context.limits.depth) (hsize : record.size = none)
    (hkind : record.kind = .struct) :
    context.sizeOfRecordAt depth record = context.slotPlacementsAt depth record >>= slotsEnd := by
  have hbudget : context.limits.depth + 1 - depth = context.limits.depth - depth + 1 := by omega
  have hdeeper : context.limits.depth + 1 - (depth + 1) = context.limits.depth - depth := by omega
  simp only [sizeOfRecordAt, hbudget, sizeWithin, hsize, hkind, slotPlacementsAt]
  refine bind_congr_ok (placeSlots_congr fun slot _ => ?_) fun _ _ => rfl
  rw [sizeAt, hdeeper]

/-- More levels change nothing but failures for the depth, which all steps pass on. -/
theorem sizeWithin_endsAlike {budget larger : Nat} (hle : budget ≤ larger)
    (record : TypeRecord) :
    EndsAlike ((context.limitedTo limit).sizeWithin budget record)
      ((context.limitedTo more).sizeWithin larger record) := by
  induction budget generalizing larger record with
  | zero =>
      -- Without levels left the first computation stops at once, also where a size is declared.
      intro hgoes
      exact absurd ⟨_, _, rfl⟩ hgoes
  | succ budget ih =>
      obtain ⟨larger, rfl⟩ := Nat.exists_eq_add_one_of_ne_zero (Nat.ne_zero_of_lt hle)
      have hpart : ∀ name, EndsAlike ((context.limitedTo limit).partSize budget name)
          ((context.limitedTo more).partSize larger name) := fun name =>
        (EndsAlike.refl (context.require name)).bind fun part =>
          ih (Nat.le_of_succ_le_succ hle) part
      cases hsize : record.size with
      | some declared =>
          cases declared with
          | bytes count =>
              simp only [sizeWithin, hsize]
              exact .refl _
          | native =>
              simp only [sizeWithin, hsize]
              exact .refl _
      | none =>
          cases hkind : record.kind with
          | base | alien | const =>
              simp only [sizeWithin, hsize, hkind]
              exact .refl _
          | struct =>
              simp only [sizeWithin, hsize, hkind]
              exact (EndsAlike.placeSlots hpart).bind fun placements => .refl _
          | union =>
              simp only [sizeWithin, hsize, hkind]
              exact EndsAlike.widestSlot hpart
          | array =>
              cases hlength : record.length with
              | none =>
                  simp only [sizeWithin, hsize, hkind, hlength]
                  exact .refl _
              | some length =>
                  simp only [sizeWithin, hsize, hkind, hlength]
                  exact (EndsAlike.refl _).bind fun name => (hpart name).bind fun stride => .refl _

theorem sizeOfRecordAt_endsAlike {less : Nat} (hlimit : limit ≤ more) (hdepth : less ≤ depth)
    (record : TypeRecord) :
    EndsAlike ((context.limitedTo limit).sizeOfRecordAt depth record)
      ((context.limitedTo more).sizeOfRecordAt less record) :=
  sizeWithin_endsAlike (show limit + 1 - depth ≤ more + 1 - less by omega) record

theorem sizeAt_endsAlike {less : Nat} (hlimit : limit ≤ more) (hdepth : less ≤ depth)
    (name : String) :
    EndsAlike ((context.limitedTo limit).sizeAt depth name)
      ((context.limitedTo more).sizeAt less name) := by
  rw [sizeAt_eq_bind, sizeAt_eq_bind]
  exact (EndsAlike.refl (context.require name)).bind fun record =>
    sizeOfRecordAt_endsAlike hlimit hdepth record

theorem slotPlacementsAt_endsAlike {less : Nat} (hlimit : limit ≤ more)
    (hdepth : less ≤ depth) (record : TypeRecord) :
    EndsAlike ((context.limitedTo limit).slotPlacementsAt depth record)
      ((context.limitedTo more).slotPlacementsAt less record) :=
  EndsAlike.placeSlots fun name => sizeAt_endsAlike hlimit (Nat.succ_le_succ hdepth) name

/-- Sizes and places that are computed at some depth, and failures that are not for the depth, are
the same where there is less depth and under larger limits.  So what is computed deep inside another
type is what is computed for a type by itself and for the parts of a type that is described. -/
theorem sizes_independent_of_limit (context : Context) {limit more depth less : Nat}
    (hlimit : limit ≤ more) (hdepth : less ≤ depth) (record : TypeRecord) :
    (¬StopsForDepth ((context.limitedTo limit).sizeOfRecordAt depth record) →
      (context.limitedTo more).sizeOfRecordAt less record =
        (context.limitedTo limit).sizeOfRecordAt depth record) ∧
    (¬StopsForDepth ((context.limitedTo limit).slotPlacementsAt depth record) →
      (context.limitedTo more).slotPlacementsAt less record =
        (context.limitedTo limit).slotPlacementsAt depth record) ∧
    ∀ name, ¬StopsForDepth ((context.limitedTo limit).sizeAt depth name) →
      (context.limitedTo more).sizeAt less name = (context.limitedTo limit).sizeAt depth name ∧
      (context.limitedTo limit).sizeOf name = (context.limitedTo limit).sizeAt depth name ∧
      (0 < depth →
        (context.limitedTo limit).sizeAt 1 name = (context.limitedTo limit).sizeAt depth name) := by
  refine ⟨sizeOfRecordAt_endsAlike hlimit hdepth record,
    slotPlacementsAt_endsAlike hlimit hdepth record, fun name hgoes => ⟨?_, ?_, fun hpos => ?_⟩⟩
  · exact sizeAt_endsAlike hlimit hdepth name hgoes
  · exact sizeAt_endsAlike (Nat.le_refl limit) (Nat.zero_le depth) name hgoes
  · exact sizeAt_endsAlike (Nat.le_refl limit) hpos name hgoes

/-- A frame is three levels high, so it fits in at depth two of four but not at depth three; and a
name that is not known is so at every depth that is reached. -/
theorem sizes_independent_of_limit_frame :
    let frame := TypeRecord.struct "frame"
      [⟨"tag", "word"⟩, ⟨"body", "choice"⟩, ⟨"levels", "level[2]"⟩]
    let broken := TypeRecord.struct "broken" [⟨"tag", "word"⟩, ⟨"body", "nothing"⟩]
    ((frameContext.limitedTo 4).sizeOfRecordAt 2 frame = .ok 16 ∧
      StopsForDepth ((frameContext.limitedTo 4).sizeOfRecordAt 3 frame)) ∧
    (frameContext.limitedTo 9).sizeOfRecordAt 0 frame = .ok 16 ∧
    (frameContext.limitedTo 9).slotPlacementsAt 0 frame = .ok [⟨0, 2⟩, ⟨2, 2⟩, ⟨8, 8⟩] ∧
    (frameContext.limitedTo 9).sizeOfRecordAt 0 broken = .error (.unknownType "nothing") ∧
    (frameContext.limitedTo 4).sizeOf "frame" = .ok 16 ∧
    (frameContext.limitedTo 4).sizeAt 1 "frame" = .ok 16 := by
  intro frame broken
  have hframe : (frameContext.limitedTo 4).sizeOfRecordAt 2 frame = .ok 16 := by rfl
  have hplaces : (frameContext.limitedTo 4).slotPlacementsAt 2 frame =
      .ok [⟨0, 2⟩, ⟨2, 2⟩, ⟨8, 8⟩] := by rfl
  have hbroken : (frameContext.limitedTo 4).sizeOfRecordAt 2 broken =
      .error (.unknownType "nothing") := by rfl
  have hname : (frameContext.limitedTo 4).sizeAt 2 "frame" = .ok 16 := by rfl
  have hlimit : 4 ≤ 9 := by decide
  have hdepth : 0 ≤ 2 := by decide
  obtain ⟨hsize, hplacements, hnames⟩ :=
    sizes_independent_of_limit frameContext hlimit hdepth frame
  obtain ⟨-, hsizeOf, hsizeAt⟩ := hnames "frame" (hname ▸ not_stopsForDepth_ok _)
  refine ⟨⟨hframe, 4, "byte", rfl⟩, ?_, ?_, ?_, ?_, ?_⟩
  · exact (hsize (hframe ▸ not_stopsForDepth_ok _)).trans hframe
  · exact (hplacements (hplaces ▸ not_stopsForDepth_ok _)).trans hplaces
  · refine Eq.trans ((sizes_independent_of_limit frameContext hlimit hdepth broken).1 ?_) hbroken
    rw [hbroken]
    rintro ⟨limit, name, h⟩
    cases h
  · exact hsizeOf.trans hname
  · exact (hsizeAt (by decide)).trans hname

end Context

end BinarySchema
