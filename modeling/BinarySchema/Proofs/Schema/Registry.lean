import BinarySchema.Schema.Registry

/-!
# Lookups after registrations

Registering a record changes the lookup of its own name only, so of many records the last one of a
name is found under it.
-/

namespace BinarySchema

private theorem find?_insertRecord (record : TypeRecord) (records : List TypeRecord)
    (name : String) :
    (insertRecord record records).find? (·.name == name) =
      if record.name = name then some record else records.find? (·.name == name) := by
  induction records with
  | nil => by_cases hname : record.name = name <;> simp [insertRecord, hname]
  | cons head rest ih =>
      unfold insertRecord
      split
      · by_cases hname : record.name = name <;> simp [hname]
      · split
        · rename_i heq
          by_cases hname : record.name = name
          · simp [hname]
          · simp [hname, show ¬head.name = name from heq ▸ hname]
        · rename_i hne
          rw [List.find?_cons, List.find?_cons, ih]
          by_cases hname : record.name = name
          · have hhead : (head.name == name) = false :=
              beq_eq_false_iff_ne.mpr fun h => hne (hname.trans h.symm)
            simp [hname, hhead]
          · simp only [hname, if_false]

namespace Registry

/-- The record that stays when records are registered in order: the last one of a name. -/
def lastNamed? (records : List TypeRecord) (name : String) : Option TypeRecord :=
  records.reverse.find? (·.name == name)

theorem lastNamed?_eq_none {records : List TypeRecord} {name : String}
    (h : ∀ record ∈ records, record.name ≠ name) : lastNamed? records name = none := by
  simpa [lastNamed?] using h

theorem get?_insert (registry : Registry) (record : TypeRecord) (name : String) :
    (registry.insert record).get? name =
      if record.name = name then some record else registry.get? name :=
  find?_insertRecord record registry.records name

theorem get?_insertAll (registry : Registry) (records : List TypeRecord) (name : String) :
    (registry.insertAll records).get? name =
      (lastNamed? records name).or (registry.get? name) := by
  induction records generalizing registry with
  | nil => rfl
  | cons record rest ih =>
      have hstep : registry.insertAll (record :: rest) = (registry.insert record).insertAll rest :=
        rfl
      rw [hstep, ih, get?_insert, lastNamed?, lastNamed?, List.reverse_cons, List.find?_append,
        Option.or_assoc]
      by_cases hname : record.name = name <;> simp [hname]

/-- What a lookup finds after loading; what was there before counts only if it is not discarded. -/
theorem get?_load (registry : Registry) (records : List TypeRecord) (discard : Bool)
    (name : String) :
    (registry.load records discard).get? name =
      (lastNamed? records name).or (if discard then none else registry.get? name) := by
  cases discard <;> exact get?_insertAll _ records name

theorem resolve?_congr {first second : Registry} {name : String}
    (h : first.get? name = second.get? name) : first.resolve? name = second.resolve? name := by
  rw [resolve?, resolve?, h]

end Registry

end BinarySchema
