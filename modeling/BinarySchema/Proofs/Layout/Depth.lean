import Mathlib.Data.List.Chain
import Mathlib.Data.List.Nodup
import Mathlib.Data.List.Perm.Subperm
import Mathlib.Data.List.ProdSigma
import Mathlib.Data.Nat.Find
import Mathlib.Tactic.Push
import BinarySchema.Proofs.Layout.Reach
import BinarySchema.Proofs.Schema.Declarator
import BinarySchema.Value.Read

/-!
# The depth of sizes

A path of references that comes to no name twice at one offset is shorter than the fuel of a read: no
registered name comes twice there, and between two registered names the spelled ones grow shorter.
So as many levels as a read has fuel for find every size that is found with any budget of nesting.
-/

namespace BinarySchema

/-! ## Lengths of references -/

private theorem le_foldl_max (numbers : List Nat) (start : Nat) :
    start ≤ numbers.foldl max start ∧ ∀ number ∈ numbers, number ≤ numbers.foldl max start := by
  induction numbers generalizing start with
  | nil => simp
  | cons number rest ih =>
      obtain ⟨hstart, hrest⟩ := ih (max start number)
      simp only [List.foldl_cons, List.mem_cons, forall_eq_or_imp]
      exact ⟨by omega, by omega, hrest⟩

private theorem foldl_max_le {numbers : List Nat} {start bound : Nat} (hstart : start ≤ bound)
    (hnumbers : ∀ number ∈ numbers, number ≤ bound) : numbers.foldl max start ≤ bound := by
  induction numbers generalizing start with
  | nil => exact hstart
  | cons number rest ih =>
      obtain ⟨hnumber, hrest⟩ := List.forall_mem_cons.mp hnumbers
      exact ih (Nat.max_le.mpr ⟨hstart, hnumber⟩) hrest

theorem TypeRecord.length_le_longestReference {record : TypeRecord} {name : String}
    (h : name ∈ record.references) : name.length ≤ record.longestReference := by
  obtain ⟨helement, hslots⟩ := le_foldl_max (record.slots.map fun slot => slot.typeName.length)
    (record.element.elim 0 String.length)
  have hslot : name ∈ record.slots.map (·.typeName) → name.length ≤ record.longestReference := by
    intro hmem
    obtain ⟨slot, hslot, rfl⟩ := List.mem_map.mp hmem
    exact hslots _ (List.mem_map_of_mem hslot)
  unfold TypeRecord.references at h
  split at h
  · exact hslot h
  · exact hslot h
  · cases hname : record.element with
    | none => simp [hname] at h
    | some other =>
        simp only [hname, Option.toList_some, List.mem_singleton] at h
        subst h
        simpa [hname, longestReference] using helement
  · contradiction

/-- What a spelled type refers to has a shorter name. -/
theorem TypeRecord.longestReference_lt {name : String} {record : TypeRecord}
    (h : TypeRecord.ofDeclarator? name = some record) :
    record.longestReference < name.length := by
  unfold TypeRecord.ofDeclarator? at h
  split at h
  · contradiction
  · rename_i hpointer
    cases h
    have hne : name.toList ≠ [] := by
      intro hnil
      rw [hnil] at hpointer
      exact absurd hpointer (by decide)
    rw [← String.length_toList]
    exact List.length_pos_iff.mpr hne
  · rename_i element length harray
    cases h
    have hlt := Declarator.length_element_lt harray
    rw [String.length_toList] at hlt
    simpa [longestReference, TypeRecord.array] using hlt

/-! ## Paths of references -/

namespace Context

variable {context : Context} {record : TypeRecord} {name part : String} {budget : Nat}

private theorem length_reference_lt {longest : Nat}
    (hlongest : ∀ record ∈ context.registry.records, record.longestReference ≤ longest)
    (h : context.RefersTo name part) :
    part.length < if name ∈ context.registry.names then longest + 1 else name.length := by
  obtain ⟨record, hresolve, hpart⟩ := h
  have hshort := TypeRecord.length_le_longestReference hpart
  rcases resolve?_cases hresolve with ⟨hregistered, hmem⟩ | ⟨hspelled, hdeclarator⟩
  · rw [if_pos hregistered]
    exact Nat.lt_succ_of_le (Nat.le_trans hshort (hlongest record hmem))
  · rw [if_neg hspelled]
    exact Nat.lt_of_le_of_lt hshort (TypeRecord.longestReference_lt hdeclarator)

private theorem length_places_le {names : List String} {places : List (String × UInt64)}
    (hnodup : places.Nodup) (hnames : ∀ place ∈ places, place.1 ∈ names) :
    places.length ≤ names.length * UInt64.size := by
  have hinjective : Function.Injective fun place : String × UInt64 => (place.1, place.2.toNat) := by
    rintro ⟨name, offset⟩ ⟨other, start⟩ h
    simp only [Prod.mk.injEq, UInt64.toNat_inj] at h
    exact Prod.ext h.1 h.2
  have hsubset : places.map (fun place => (place.1, place.2.toNat)) ⊆
      names ×ˢ List.range UInt64.size := by
    intro entry hentry
    obtain ⟨place, hplace, rfl⟩ := List.mem_map.mp hentry
    exact List.pair_mem_product.mpr ⟨hnames place hplace, List.mem_range.mpr place.2.toNat_lt⟩
  have hle := ((hnodup.map hinjective).subperm hsubset).length_le
  rwa [List.length_map, List.length_product, List.length_range] at hle

/-- A path that comes to no name twice at one offset is bounded by the registered names and offsets
that it has not visited and by the lengths of the names that may be spelled between them. -/
private theorem length_path_le {longest : Nat}
    (hlongest : ∀ record ∈ context.registry.records, record.longestReference ≤ longest)
    {places visited : List (String × UInt64)} {bound : Nat}
    (hbound : ∀ place ∈ places.head?, place.1.length < bound)
    (hpath : places.IsChain fun whole part => context.RefersTo whole.1 part.1)
    (hnodup : (places ++ visited).Nodup)
    (hvisited : ∀ place ∈ visited, place.1 ∈ context.registry.names) :
    places.length ≤
      (context.registry.size * UInt64.size - visited.length) * (longest + 2) + bound := by
  induction places generalizing visited bound with
  | nil => exact Nat.zero_le _
  | cons place rest ih =>
      obtain ⟨hnext, hrest⟩ := List.isChain_cons.mp hpath
      have hplace : place.1.length < bound := hbound place rfl
      have hfresh : (rest ++ place :: visited).Nodup := List.perm_middle.nodup_iff.mpr hnodup
      by_cases hregistered : place.1 ∈ context.registry.names
      · have hnext' : ∀ part ∈ rest.head?, part.1.length < longest + 1 := fun part hpart => by
          simpa only [hregistered, if_true] using length_reference_lt hlongest (hnext part hpart)
        have hvisited' : ∀ other ∈ place :: visited, other.1 ∈ context.registry.names :=
          List.forall_mem_cons.mpr ⟨hregistered, hvisited⟩
        have hroom := length_places_le (List.nodup_append.mp hfresh).2.1 hvisited'
        have hle := ih hnext' hrest hfresh hvisited'
        rw [Registry.names, List.length_map, List.length_cons] at hroom
        obtain ⟨left, hleft⟩ := Nat.exists_eq_add_of_le hroom
        have hsize : context.registry.size * UInt64.size = visited.length + 1 + left := hleft
        have hbefore : context.registry.size * UInt64.size - visited.length = left + 1 := by omega
        have hafter : context.registry.size * UInt64.size - (place :: visited).length = left := by
          rw [List.length_cons]
          omega
        rw [hafter] at hle
        rw [hbefore, Nat.succ_mul, List.length_cons]
        omega
      · have hnext' : ∀ part ∈ rest.head?, part.1.length < place.1.length := fun part hpart => by
          simpa only [hregistered, if_false] using length_reference_lt hlongest (hnext part hpart)
        have hle := ih hnext' hrest (List.nodup_cons.mp hnodup).2 hvisited
        rw [List.length_cons]
        omega

/-- A path that comes to no name twice at one offset is shorter than the fuel of a read that starts
above it. -/
theorem length_places_lt_readFuel {places : List (String × UInt64)}
    (hstart : ∀ place ∈ places.head?, place.1 ∈ record.references)
    (hpath : places.IsChain fun whole part => context.RefersTo whole.1 part.1)
    (hnodup : places.Nodup) : places.length < context.readFuel record := by
  obtain ⟨longest, hlongest⟩ : ∃ longest, longest = (context.registry.records.map
      TypeRecord.longestReference).foldl max record.longestReference := ⟨_, rfl⟩
  obtain ⟨hown, hall⟩ := le_foldl_max (context.registry.records.map TypeRecord.longestReference)
    record.longestReference
  rw [← hlongest] at hown hall
  have hbound : ∀ place ∈ places.head?, place.1.length < longest + 1 := fun place hplace => by
    have hshort := TypeRecord.length_le_longestReference (hstart place hplace)
    omega
  have hfresh : (places ++ []).Nodup := by rwa [List.append_nil]
  have hle := length_path_le (fun other hmem => hall _ (List.mem_map_of_mem hmem)) hbound hpath
    hfresh (by simp)
  have hfuel : context.readFuel record =
      (context.registry.size * UInt64.size + 2) * (longest + 2) := by
    rw [hlongest]
    rfl
  rw [List.length_nil, Nat.sub_zero] at hle
  rw [hfuel, Nat.add_mul]
  omega

theorem length_path_lt_readFuel {names : List String}
    (hstart : ∀ name ∈ names.head?, name ∈ record.references)
    (hpath : names.IsChain context.RefersTo) (hnodup : names.Nodup) :
    names.length < context.readFuel record := by
  have hinjective : Function.Injective fun name : String => (name, (0 : UInt64)) :=
    fun _ _ h => (Prod.mk.inj h).1
  have hstart' : ∀ place ∈ (names.map fun name => (name, (0 : UInt64))).head?,
      place.1 ∈ record.references := by
    simpa [List.head?_map] using hstart
  have hplaces := length_places_lt_readFuel hstart' ((List.isChain_map _).mpr hpath)
    (hnodup.map hinjective)
  rwa [List.length_map] at hplaces

/-- The fuel of a read is enough for the reads of its parts. -/
theorem readFuel_le_of_mem_references {other : TypeRecord} (hpart : part ∈ record.references)
    (hresolve : context.resolve? part = some other) :
    context.readFuel other ≤ context.readFuel record := by
  obtain ⟨hown, hall⟩ := le_foldl_max (context.registry.records.map TypeRecord.longestReference)
    record.longestReference
  have hshort := TypeRecord.length_le_longestReference hpart
  refine Nat.mul_le_mul_left _ (Nat.add_le_add_right (foldl_max_le ?_ hall) 2)
  rcases resolve?_cases hresolve with ⟨-, hmem⟩ | ⟨-, hdeclarator⟩
  · exact hall _ (List.mem_map_of_mem hmem)
  · exact (TypeRecord.longestReference_lt hdeclarator).le.trans (hshort.trans hown)

/-! ## The least budget -/

def Sized (context : Context) (budget : Nat) (record : TypeRecord) : Prop :=
  ∃ size, context.sizeWithin budget record = .ok size

theorem Sized.mono {more : Nat} (hle : budget ≤ more) (h : context.Sized budget record) :
    context.Sized more record :=
  h.imp fun _ => sizeWithin_mono hle

/-- When a record needs the whole budget, one of its parts needs the whole rest of it. -/
private theorem exists_part_of_not_sized (hsized : context.Sized (budget + 2) record)
    (hleast : ¬context.Sized (budget + 1) record) :
    ∃ name ∈ record.references, ∃ part, context.resolve? name = some part ∧
      context.Sized (budget + 1) part ∧ ¬context.Sized budget part := by
  by_contra hnone
  push Not at hnone
  obtain ⟨size, hsize⟩ := hsized
  apply hleast
  cases hdeclared : record.size with
  | some declared =>
      cases declared <;> exact ⟨size, by simpa [sizeWithin, hdeclared] using hsize⟩
  | none =>
      refine ⟨size, (sizeWithin_succ_eq_ok_iff hdeclared).mpr ?_⟩
      refine ((sizeWithin_succ_eq_ok_iff hdeclared).mp hsize).mono fun name hname width hwidth => ?_
      obtain ⟨part, hresolve, hpart⟩ := partSize_eq_ok_iff.mp hwidth
      obtain ⟨other, hother⟩ := hnone name hname part hresolve ⟨width, hpart⟩
      cases hpart.symm.trans (sizeWithin_succ hother)
      exact partSize_eq_ok_iff.mpr ⟨part, hresolve, hother⟩

/-- A record that needs the whole budget has a path of as many names below it.  On the way down the
budgets that the types need strictly fall, so no name comes twice. -/
private theorem exists_path_of_not_sized (hsized : context.Sized (budget + 1) record)
    (hleast : ¬context.Sized budget record) :
    ∃ names : List String, names.length = budget ∧
      (∀ name ∈ names.head?, name ∈ record.references) ∧
      names.IsChain context.RefersTo ∧ names.Nodup ∧
      ∀ name ∈ names, ∃ part, context.resolve? name = some part ∧ context.Sized budget part := by
  induction budget generalizing record with
  | zero => exact ⟨[], by simp⟩
  | succ budget ih =>
      obtain ⟨name, hname, part, hresolve, hpart, hneeds⟩ := exists_part_of_not_sized hsized hleast
      obtain ⟨names, hlength, hstart, hpath, hnodup, hnames⟩ := ih hpart hneeds
      have hnew : name ∉ names := by
        intro hmem
        obtain ⟨other, hother, hsmall⟩ := hnames name hmem
        cases hresolve.symm.trans hother
        exact hneeds hsmall
      refine ⟨name :: names, by simp [hlength], ?_, ?_, List.nodup_cons.mpr ⟨hnew, hnodup⟩, ?_⟩
      · rintro _ ⟨⟩
        exact hname
      · exact List.isChain_cons.mpr
          ⟨fun next hnext => ⟨part, hresolve, hstart next hnext⟩, hpath⟩
      · refine List.forall_mem_cons.mpr ⟨⟨part, hresolve, hpart⟩, fun other hmem => ?_⟩
        obtain ⟨found, hfound, hsmall⟩ := hnames other hmem
        exact ⟨found, hfound, hsmall.mono (Nat.le_succ _)⟩

/-- As many levels as a read has fuel for find every size that is found at all. -/
theorem sizeWithin_readFuel {size : UInt64} (h : context.sizeWithin budget record = .ok size) :
    context.sizeWithin (context.readFuel record) record = .ok size := by
  classical
  have hsized : ∃ budget, context.Sized budget record := ⟨budget, size, h⟩
  have hleast := Nat.find_spec hsized
  have hpos : Nat.find hsized ≠ 0 := by
    intro hzero
    obtain ⟨size, hsize⟩ := hzero ▸ hleast
    simp [sizeWithin] at hsize
  obtain ⟨least, hsucc⟩ := Nat.exists_eq_succ_of_ne_zero hpos
  obtain ⟨names, hlength, hstart, hpath, hnodup, -⟩ :=
    exists_path_of_not_sized (hsucc ▸ hleast) (Nat.find_min hsized (by omega))
  have hbound := length_path_lt_readFuel hstart hpath hnodup
  have hle : Nat.find hsized ≤ context.readFuel record := by omega
  obtain ⟨found, hfound⟩ := hleast
  have hsame : found = size := by
    have hboth := sizeWithin_mono (Nat.le_max_left (Nat.find hsized) budget) hfound
    rw [sizeWithin_mono (Nat.le_max_right (Nat.find hsized) budget) h] at hboth
    exact (Except.ok.inj hboth).symm
  exact hsame ▸ sizeWithin_mono hle hfound

/-- The size of a named type is found with some budget that neither the limit of nesting nor the fuel
of a read falls short of. -/
theorem exists_budget {size : UInt64} (hresolve : context.resolve? name = some record)
    (hsize : context.sizeOf name = .ok size) :
    ∃ budget ≤ context.readFuel record, budget ≤ context.limits.depth + 1 ∧
      context.sizeWithin budget record = .ok size := by
  obtain ⟨other, hother, hrecord⟩ := sizeOf_eq_ok_iff.mp hsize
  cases hresolve.symm.trans hother
  rcases Nat.le_total (context.readFuel record) (context.limits.depth + 1) with hle | hle
  · exact ⟨_, Nat.le_refl _, hle, sizeWithin_readFuel hrecord⟩
  · exact ⟨_, hle, Nat.le_refl _, hrecord⟩

end Context

end BinarySchema
