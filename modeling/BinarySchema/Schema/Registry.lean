import BinarySchema.Schema.Declarator

/-!
# Registries

The type records known by name, in the order of their names.  Registering a record under a name
that is taken replaces the older record.  A name that is not registered may still resolve through
its declarator; such records are never stored.
-/

namespace BinarySchema

/-- Puts a record in its place, dropping one of the same name. -/
def insertRecord (record : TypeRecord) : List TypeRecord → List TypeRecord
  | [] => [record]
  | head :: rest =>
      if record.name < head.name then record :: head :: rest
      else if record.name = head.name then record :: rest
      else head :: insertRecord record rest

theorem mem_of_mem_insertRecord {record other : TypeRecord} {records : List TypeRecord}
    (h : other ∈ insertRecord record records) : other = record ∨ other ∈ records := by
  induction records with
  | nil => simpa [insertRecord] using h
  | cons head rest ih =>
      simp only [insertRecord] at h
      split at h
      · simpa using h
      · split at h
        · simp only [List.mem_cons] at h ⊢
          rcases h with h | h
          · exact .inl h
          · exact .inr (.inr h)
        · simp only [List.mem_cons] at h ⊢
          rcases h with h | h
          · exact .inr (.inl h)
          · exact (ih h).imp_right .inr

theorem insertRecord_sorted (record : TypeRecord) {records : List TypeRecord}
    (h : records.Pairwise (·.name < ·.name)) :
    (insertRecord record records).Pairwise (·.name < ·.name) := by
  induction records with
  | nil => simp [insertRecord]
  | cons head rest ih =>
      simp only [List.pairwise_cons] at h
      simp only [insertRecord]
      split
      · rename_i hlt
        simp only [List.pairwise_cons, List.mem_cons]
        refine ⟨?_, h⟩
        rintro other (rfl | hother)
        · exact hlt
        · exact String.lt_trans hlt (h.1 other hother)
      · split
        · rename_i heq
          simp only [List.pairwise_cons]
          exact ⟨fun other hother => heq ▸ h.1 other hother, h.2⟩
        · rename_i hnot hne
          simp only [List.pairwise_cons]
          refine ⟨?_, ih h.2⟩
          intro other hother
          rcases mem_of_mem_insertRecord hother with rfl | hmem
          · rcases String.le_total head.name other.name with hle | hle
            · exact Classical.byContradiction fun hcontra =>
                hne (String.le_antisymm (String.not_lt.mp hcontra) hle)
            · exact absurd (String.le_antisymm hle (String.not_lt.mp hnot)) hne
          · exact h.1 other hmem

structure Registry where
  records : List TypeRecord := []
  sorted : records.Pairwise (·.name < ·.name) := by simp

namespace Registry

def empty : Registry := {}

def insert (registry : Registry) (record : TypeRecord) : Registry :=
  ⟨insertRecord record registry.records, insertRecord_sorted record registry.sorted⟩

/-- Registers records in order; of two with one name the later one stays. -/
def insertAll (registry : Registry) (records : List TypeRecord) : Registry :=
  records.foldl insert registry

/-- Adds records to the registry or, with `discard`, to an empty one. -/
def load (registry : Registry) (records : List TypeRecord) (discard : Bool) : Registry :=
  (if discard then empty else registry).insertAll records

def get? (registry : Registry) (name : String) : Option TypeRecord :=
  registry.records.find? fun record => record.name == name

/-- The registered record, else the one that the name spells. -/
def resolve? (registry : Registry) (name : String) : Option TypeRecord :=
  match registry.get? name with
  | some record => some record
  | none => TypeRecord.ofDeclarator? name

def size (registry : Registry) : Nat :=
  registry.records.length

def isEmpty (registry : Registry) : Bool :=
  registry.records.isEmpty

def names (registry : Registry) : List String :=
  registry.records.map (·.name)

end Registry

end BinarySchema
