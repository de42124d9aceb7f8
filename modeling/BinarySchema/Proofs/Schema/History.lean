import Mathlib.Data.List.Induction
import Mathlib.Data.List.Nodup
import BinarySchema.Context
import BinarySchema.Proofs.Schema.Registry
import BinarySchema.Proofs.Text.ByteOrder

/-!
# Histories of a registry

What a registry holds after any loads: under each name the record that was registered last, unless
everything was discarded since.  There is one record for each name, in the order of the bytes of the
names, and a name that is registered stands for its record whatever type it would spell.
-/

namespace BinarySchema

/-! ## Events -/

inductive Registry.Event where
  | discard
  | register (record : TypeRecord)

structure Load where
  records : List TypeRecord
  discard : Bool

/-- A load that discards does so before it registers its own records. -/
def Load.events (load : Load) : List Registry.Event :=
  (if load.discard then [.discard] else []) ++ load.records.map .register

def Context.loadAll (context : Context) (loads : List Load) : Context :=
  loads.foldl (fun context load => context.load load.records load.discard) context

namespace Registry

/-- What happens to a registry that is made of records and goes through loads. -/
def history (records : List TypeRecord) (loads : List Load) : List Event :=
  records.map .register ++ loads.flatMap Load.events

/-- The record was registered under the name, and since then neither was another one nor was
everything discarded. -/
def Stands (events : List Event) (name : String) (record : TypeRecord) : Prop :=
  ∃ before since, events = before ++ .register record :: since ∧ record.name = name ∧
    .discard ∉ since ∧ ∀ other, .register other ∈ since → other.name ≠ name

def afterEvent (registry : Registry) : Event → Registry
  | .discard => empty
  | .register record => registry.insert record

variable {events : List Event} {name : String} {record : TypeRecord}

theorem not_stands_nil : ¬Stands [] name record := by
  rintro ⟨before, since, h, -⟩
  simp at h

/-- What stands after one more event was registered by it, or stood before and is left alone. -/
theorem stands_concat_iff {event : Event} :
    Stands (events ++ [event]) name record ↔
      (event = .register record ∧ record.name = name) ∨
        (Stands events name record ∧ event ≠ .discard ∧
          ∀ other, event = .register other → other.name ≠ name) := by
  constructor
  · rintro ⟨before, since, h, hname, hkept, hothers⟩
    rcases List.eq_nil_or_concat since with rfl | ⟨rest, last, rfl⟩
    · obtain ⟨-, hevent⟩ := List.append_inj' h rfl
      cases hevent
      exact .inl ⟨rfl, hname⟩
    · rw [List.concat_eq_append] at h hkept hothers
      rw [← List.cons_append, ← List.append_assoc] at h
      obtain ⟨rfl, hevent⟩ := List.append_inj' h rfl
      cases hevent
      simp only [List.mem_append, List.mem_singleton, not_or] at hkept hothers
      refine .inr ⟨⟨before, rest, rfl, hname, hkept.1, fun other hmem => ?_⟩, ?_, ?_⟩
      · exact hothers other (.inl hmem)
      · exact fun hdiscard => hkept.2 hdiscard.symm
      · exact fun other hregister => hothers other (.inr hregister.symm)
  · rintro (⟨rfl, hname⟩ | ⟨⟨before, since, rfl, hname, hkept, hothers⟩, hdiscard, hevent⟩)
    · exact ⟨events, [], rfl, hname, by simp, by simp⟩
    · refine ⟨before, since ++ [event], by simp, hname, ?_, fun other hmem => ?_⟩
      · simpa [hkept] using hdiscard.symm
      · simp only [List.mem_append, List.mem_singleton] at hmem
        exact hmem.elim (hothers other) fun hregister => hevent other hregister.symm

theorem get?_afterEvent {registry : Registry}
    (h : ∀ record, registry.get? name = some record ↔ Stands events name record) (event : Event) :
    (registry.afterEvent event).get? name = some record ↔
      Stands (events ++ [event]) name record := by
  rw [stands_concat_iff]
  cases event with
  | discard => simp [afterEvent, empty, get?]
  | register next =>
      rw [afterEvent, get?_insert]
      by_cases hname : next.name = name
      · simp only [hname, if_true, Option.some.injEq, Event.register.injEq]
        constructor
        · rintro rfl
          exact .inl ⟨rfl, hname⟩
        · rintro (⟨rfl, -⟩ | ⟨-, -, hother⟩)
          · rfl
          · exact absurd hname (hother next rfl)
      · rw [if_neg hname, h]
        constructor
        · intro hstands
          refine .inr ⟨hstands, by simp, ?_⟩
          rintro other ⟨⟩
          exact hname
        · rintro (⟨⟨⟩, hother⟩ | ⟨hstands, -⟩)
          · exact absurd hother hname
          · exact hstands

theorem get?_foldl_afterEvent :
    (events.foldl afterEvent empty).get? name = some record ↔ Stands events name record := by
  induction events using List.reverseRecOn generalizing record with
  | nil => simp [empty, get?, not_stands_nil]
  | append_singleton events event ih =>
      rw [List.foldl_append]
      exact get?_afterEvent (fun _ => ih) event

theorem insertAll_eq_foldl (registry : Registry) (records : List TypeRecord) :
    registry.insertAll records = (records.map .register).foldl afterEvent registry := by
  rw [insertAll, List.foldl_map]
  rfl

theorem load_eq_foldl (registry : Registry) (load : Load) :
    registry.load load.records load.discard = load.events.foldl afterEvent registry := by
  rw [Registry.load, insertAll_eq_foldl, Load.events, List.foldl_append]
  cases load.discard <;> rfl

theorem registry_loadAll (context : Context) (loads : List Load) :
    (context.loadAll loads).registry =
      (loads.flatMap Load.events).foldl afterEvent context.registry := by
  induction loads generalizing context with
  | nil => rfl
  | cons load rest ih =>
      rw [List.flatMap_cons, List.foldl_append, ← load_eq_foldl]
      exact ih (context.load load.records load.discard)

theorem registry_history (records : List TypeRecord) (platform : Platform) (limits : Limits)
    (loads : List Load) :
    ((Context.ofRecords records platform limits).loadAll loads).registry =
      (history records loads).foldl afterEvent empty := by
  rw [registry_loadAll, history, List.foldl_append, ← insertAll_eq_foldl]
  rfl

/-! ## What a registry holds -/

theorem names_nodup (registry : Registry) : registry.names.Nodup := by
  refine List.pairwise_map.mpr (registry.sorted.imp ?_)
  intro first second hlt
  exact String.ne_of_lt hlt

theorem get?_eq_some_iff {registry : Registry} :
    registry.get? name = some record ↔ record ∈ registry.records ∧ record.name = name := by
  constructor
  · intro h
    exact ⟨List.mem_of_find?_eq_some h, by simpa using List.find?_some h⟩
  · rintro ⟨hmem, hname⟩
    cases hget : registry.get? name with
    | none =>
        have hnone := List.find?_eq_none.mp hget record hmem
        simp [hname] at hnone
    | some other =>
        have hother : other ∈ registry.records := List.mem_of_find?_eq_some hget
        have hsame : other.name = name := by simpa using List.find?_some hget
        rw [List.inj_on_of_nodup_map registry.names_nodup hother hmem (hsame.trans hname.symm)]

theorem mem_names_iff {registry : Registry} :
    name ∈ registry.names ↔ ∃ record, registry.get? name = some record := by
  simp only [names, List.mem_map, get?_eq_some_iff]

theorem names_ascending (registry : Registry) :
    registry.names.Pairwise fun a b => Text.bytes a < Text.bytes b := by
  refine List.pairwise_map.mpr (registry.sorted.imp ?_)
  intro first second hlt
  exact Text.lt_iff_bytes_lt.mp hlt

theorem size_eq_of_names {registry : Registry} {names : List String} (hnodup : names.Nodup)
    (hmem : ∀ name, name ∈ names ↔ name ∈ registry.names) : registry.size = names.length := by
  have hperm : names.Perm registry.names :=
    (List.perm_ext_iff_of_nodup hnodup registry.names_nodup).mpr hmem
  rw [hperm.length_eq, size, Registry.names, List.length_map]

theorem resolve?_of_get? {registry : Registry} (h : registry.get? name = some record) :
    registry.resolve? name = some record := by
  rw [resolve?, h]

theorem name_of_resolve? {registry : Registry} (h : registry.resolve? name = some record) :
    record.name = name := by
  unfold resolve? at h
  split at h
  · rename_i found hget
    cases h
    exact (get?_eq_some_iff.mp hget).2
  · unfold TypeRecord.ofDeclarator? at h
    split at h
    · contradiction
    · cases h
      rfl
    · cases h
      rfl

/-! ## Last writes -/

/-- A registry holds what events leave standing, in order and each name once; what stands under a
name goes before what the name spells, and either has that name. -/
structure Follows (registry : Registry) (events : List Event) : Prop where
  get?_iff : ∀ name record, registry.get? name = some record ↔ Stands events name record
  ascending : registry.names.Pairwise fun a b => Text.bytes a < Text.bytes b
  nodup : registry.names.Nodup
  mem_names_iff : ∀ name, name ∈ registry.names ↔ ∃ record, Stands events name record
  mem_records_iff : ∀ record, record ∈ registry.records ↔ Stands events record.name record
  size_eq : ∀ names : List String, names.Nodup →
    (∀ name, name ∈ names ↔ ∃ record, Stands events name record) → registry.size = names.length
  resolve?_eq : ∀ name record, registry.get? name = some record →
    registry.resolve? name = some record
  name_eq : ∀ name record, registry.resolve? name = some record → record.name = name

/-- After any loads a registry holds the last record of each name since the last load that discarded
the others, that load included. -/
theorem follows_history (records : List TypeRecord) (platform : Platform) (limits : Limits)
    (loads : List Load) :
    ((Context.ofRecords records platform limits).loadAll loads).registry.Follows
      (history records loads) := by
  rw [registry_history]
  generalize hregistry : (history records loads).foldl afterEvent empty = registry
  have hget : ∀ name record, registry.get? name = some record ↔
      Stands (history records loads) name record := by
    intro name record
    rw [← hregistry]
    exact get?_foldl_afterEvent
  have hnames : ∀ name, name ∈ registry.names ↔
      ∃ record, Stands (history records loads) name record := by
    intro name
    simp only [mem_names_iff, hget]
  refine ⟨hget, registry.names_ascending, registry.names_nodup, hnames, ?_, ?_,
    fun _ _ => resolve?_of_get?, fun _ _ => name_of_resolve?⟩
  · intro record
    rw [← hget, get?_eq_some_iff, and_iff_left rfl]
  · intro names hnodup hmem
    exact size_eq_of_names hnodup fun name => (hmem name).trans (hnames name).symm

/-- A later record replaces an earlier one of its name, a load may discard what was there, and a
record may bear a name that spells an array. -/
example :
    let context := (Context.ofRecords [.base "word" 2 .unsigned, .base "byte" 1 .unsigned] .arm
      {}).loadAll [⟨[.struct "byte[2]" [], .base "word" 4 .unsigned], false⟩,
        ⟨[.base "ä" 1 .unsigned, .struct "byte[2]" [], .base "Z" 1 .unsigned, .union "Z" []], true⟩]
    context.registry.names = ["Z", "byte[2]", "ä"] ∧
      context.registry.resolve? "Z" = some (.union "Z" []) ∧
      context.registry.resolve? "byte[2]" = some (.struct "byte[2]" []) ∧
      context.registry.resolve? "word" = none := by
  decide

end Registry

end BinarySchema
