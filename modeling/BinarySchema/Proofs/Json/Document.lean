import Mathlib.Data.List.Nodup
import BinarySchema.Json.Node

/-!
# Documents as trees

Induction over the parts of a document, and the order of the entries of an object: entries with keys
of their own are rearranged only, and come out with the keys ascending.  So every object of a text
lists its entries by ascending keys.
-/

namespace BinarySchema.Json

/-! ## Entries in order -/

section

variable {α : Type} {key : String} {entry : α} {entries sorted : List (String × α)}

theorem perm_insertEntry (hkey : key ∉ sorted.map Prod.fst) :
    (insertEntry key entry sorted).Perm ((key, entry) :: sorted) := by
  induction sorted with
  | nil => exact .refl _
  | cons head rest ih =>
      obtain ⟨other, old⟩ := head
      simp only [List.map_cons, List.mem_cons, not_or] at hkey
      simp only [insertEntry]
      split
      · exact .refl _
      · rw [if_neg hkey.1]
        exact ((ih hkey.2).cons _).trans (.swap _ _ _)

private theorem perm_foldl_insertEntry (hkeys : ((entries ++ sorted).map Prod.fst).Nodup) :
    (entries.foldl (fun sorted entry => insertEntry entry.1 entry.2 sorted) sorted).Perm
      (entries ++ sorted) := by
  induction entries generalizing sorted with
  | nil => exact .refl _
  | cons head rest ih =>
      have hnew : head.1 ∉ (rest ++ sorted).map Prod.fst := (List.nodup_cons.mp hkeys).1
      rw [List.map_append, List.mem_append, not_or] at hnew
      have hinsert : (rest ++ insertEntry head.1 head.2 sorted).Perm (head :: rest ++ sorted) :=
        ((perm_insertEntry hnew.2).append_left rest).trans List.perm_middle
      exact (ih ((hinsert.map Prod.fst).nodup_iff.mpr hkeys)).trans hinsert

/-- Sorting entries with keys of their own drops none of them. -/
theorem perm_sortEntries (hkeys : (entries.map Prod.fst).Nodup) :
    (sortEntries entries).Perm entries := by
  have hperm := @perm_foldl_insertEntry α entries [] (by simpa using hkeys)
  rwa [List.append_nil] at hperm

def Ascending (entries : List (String × α)) : Prop :=
  entries.Pairwise fun a b => a.1 < b.1

theorem mem_of_mem_insertEntry {other : String × α} (h : other ∈ insertEntry key entry sorted) :
    other = (key, entry) ∨ other ∈ sorted := by
  induction sorted with
  | nil => exact .inl (List.mem_singleton.mp h)
  | cons head rest ih =>
      simp only [insertEntry] at h
      split at h
      · exact List.mem_cons.mp h
      · split at h
        · exact (List.mem_cons.mp h).imp_right (.tail _)
        · rcases List.mem_cons.mp h with rfl | h
          · exact .inr (.head _)
          · exact (ih h).imp_right (.tail _)

theorem mem_of_mem_sortEntries {other : String × α} (h : other ∈ sortEntries entries) :
    other ∈ entries := by
  have hfold : ∀ (entries sorted : List (String × α)),
      other ∈ entries.foldl (fun sorted entry => insertEntry entry.1 entry.2 sorted) sorted →
      other ∈ entries ∨ other ∈ sorted := by
    intro entries
    induction entries with
    | nil => exact fun _ h => .inr h
    | cons head rest ih =>
        intro sorted h
        rcases ih _ h with hrest | hsorted
        · exact .inl (.tail _ hrest)
        · rcases mem_of_mem_insertEntry hsorted with rfl | hsorted
          · exact .inl (.head _)
          · exact .inr hsorted
  simpa using hfold entries [] h

theorem ascending_insertEntry (h : Ascending sorted) : Ascending (insertEntry key entry sorted) := by
  induction sorted with
  | nil => exact .cons (by simp) .nil
  | cons head rest ih =>
      obtain ⟨hhead, hrest⟩ := List.pairwise_cons.mp h
      simp only [insertEntry]
      split
      · rename_i hlt
        refine .cons (fun other hmem => ?_) h
        rcases List.mem_cons.mp hmem with rfl | hmem
        · exact hlt
        · exact String.lt_trans hlt (hhead other hmem)
      · rename_i hnot
        split
        · rename_i heq
          exact .cons (heq ▸ hhead) hrest
        · rename_i hne
          have hlt : head.1 < key := by
            rw [← String.not_le]
            exact fun hle => hne (String.le_antisymm hle (String.not_lt.mp hnot))
          refine .cons (fun other hmem => ?_) (ih hrest)
          rcases mem_of_mem_insertEntry hmem with rfl | hmem
          · exact hlt
          · exact hhead other hmem

theorem ascending_sortEntries (entries : List (String × α)) : Ascending (sortEntries entries) := by
  have hfold : ∀ (entries sorted : List (String × α)), Ascending sorted →
      Ascending (entries.foldl (fun sorted entry => insertEntry entry.1 entry.2 sorted) sorted) := by
    intro entries
    induction entries with
    | nil => exact fun _ h => h
    | cons head rest ih => exact fun sorted h => ih _ (ascending_insertEntry h)
  exact hfold entries [] .nil

theorem Ascending.nodup (h : Ascending entries) : (entries.map Prod.fst).Nodup := by
  rw [List.nodup_iff_pairwise_ne, List.pairwise_map]
  refine h.imp ?_
  rintro first second hlt heq
  exact String.lt_irrefl second.1 (heq ▸ hlt)

theorem Ascending.of_keys {β : Type} {others : List (String × β)} (h : Ascending entries)
    (hkeys : entries.map Prod.fst = others.map Prod.fst) : Ascending others := by
  have hpairwise : (entries.map Prod.fst).Pairwise (· < ·) := List.pairwise_map.mpr h
  rw [hkeys] at hpairwise
  exact List.pairwise_map.mp hpairwise

/-- Ascending entries that are the same up to their order are the same. -/
theorem Ascending.eq_of_perm {others : List (String × α)} (h : Ascending entries)
    (hothers : Ascending others) (hperm : entries.Perm others) : entries = others :=
  hperm.eq_of_pairwise (fun _ _ _ _ hlt hgt => absurd (String.lt_trans hlt hgt)
    (String.lt_irrefl _)) h hothers

/-- Entries with keys of their own are those of another list if these are among them and no key is
left over. -/
theorem perm_of_keys {others : List (String × α)} (hentries : (entries.map Prod.fst).Nodup)
    (hothers : (others.map Prod.fst).Nodup) (hsubset : ∀ entry ∈ others, entry ∈ entries)
    (hkeys : ∀ entry ∈ entries, entry.1 ∈ others.map Prod.fst) : entries.Perm others := by
  refine (List.perm_ext_iff_of_nodup (.of_map _ hentries) (.of_map _ hothers)).mpr fun entry =>
    ⟨fun hmem => ?_, hsubset entry⟩
  obtain ⟨other, hother, hkey⟩ := List.mem_map.mp (hkeys entry hmem)
  rwa [← List.inj_on_of_nodup_map hentries (hsubset other hother) hmem hkey]

end

namespace Document

/-! ## Induction -/

@[elab_as_elim]
theorem induction {motive : Document → Prop}
    (null : motive .null)
    (bool : ∀ flag, motive (.bool flag))
    (number : ∀ value, motive (.number value))
    (string : ∀ text, motive (.string text))
    (array : ∀ items, (∀ item ∈ items, motive item) → motive (.array items))
    (object : ∀ entries, (∀ key entry, (key, entry) ∈ entries → motive entry) →
      motive (.object entries)) :
    ∀ document, motive document
  | .null => null
  | .bool flag => bool flag
  | .number value => number value
  | .string text => string text
  | .array items =>
      array items fun item _ => induction null bool number string array object item
  | .object entries =>
      object entries fun _ entry _ => induction null bool number string array object entry
termination_by document => document
decreasing_by
  all_goals try decreasing_tactic
  have hlt := List.sizeOf_lt_of_mem ‹(_, entry) ∈ entries›
  simp only [Prod.mk.sizeOf_spec] at hlt
  simp only [Document.object.sizeOf_spec]
  omega

/-! ## Equality -/

mutual

def same : Document → Document → Bool
  | .null, .null => true
  | .bool flag, .bool other => flag == other
  | .number value, .number other => value == other
  | .string text, .string other => text == other
  | .array items, .array others => sameItems items others
  | .object entries, .object others => sameEntries entries others
  | _, _ => false

def sameItems : List Document → List Document → Bool
  | [], [] => true
  | item :: rest, other :: others => item.same other && sameItems rest others
  | _, _ => false

def sameEntries : List (String × Document) → List (String × Document) → Bool
  | [], [] => true
  | (key, document) :: rest, (name, other) :: others =>
      key == name && document.same other && sameEntries rest others
  | _, _ => false

end

private theorem sameItems_iff {items : List Document}
    (hitems : ∀ item ∈ items, ∀ other, item.same other = true ↔ item = other)
    (others : List Document) : sameItems items others = true ↔ items = others := by
  induction items generalizing others with
  | nil => cases others <;> simp [sameItems]
  | cons item rest ih =>
      obtain ⟨hitem, hrest⟩ := List.forall_mem_cons.mp hitems
      cases others <;> simp [sameItems, hitem, ih hrest]

private theorem sameEntries_iff {entries : List (String × Document)}
    (hentries : ∀ key entry, (key, entry) ∈ entries →
      ∀ other, entry.same other = true ↔ entry = other)
    (others : List (String × Document)) :
    sameEntries entries others = true ↔ entries = others := by
  induction entries generalizing others with
  | nil => cases others <;> simp [sameEntries]
  | cons head rest ih =>
      obtain ⟨key, entry⟩ := head
      have hentry := hentries key entry (.head _)
      have hrest := ih fun key entry h => hentries key entry (.tail _ h)
      cases others <;> simp [sameEntries, hentry, hrest, Prod.ext_iff]

theorem same_iff (document : Document) :
    ∀ other, document.same other = true ↔ document = other := by
  induction document using Document.induction with
  | null =>
      intro other
      cases other <;> simp [same]
  | bool flag =>
      intro other
      cases other <;> simp [same]
  | number value =>
      intro other
      cases other <;> simp [same]
  | string text =>
      intro other
      cases other <;> simp [same]
  | array items ih =>
      intro other
      cases other <;> simp [same, sameItems_iff ih]
  | object entries ih =>
      intro other
      cases other <;> simp [same, sameEntries_iff ih]

instance : DecidableEq Document :=
  fun document other => decidable_of_iff _ (document.same_iff other)

/-! ## Documents of texts -/

/-- Every object lists its entries by ascending keys. -/
inductive Ordered : Document → Prop
  | null : Ordered .null
  | bool (flag : Bool) : Ordered (.bool flag)
  | number (value : Number) : Ordered (.number value)
  | string (text : String) : Ordered (.string text)
  | array {items : List Document} (hitems : ∀ item ∈ items, Ordered item) : Ordered (.array items)
  | object {entries : List (String × Document)} (hkeys : Ascending entries)
      (hentries : ∀ entry ∈ entries, Ordered entry.2) : Ordered (.object entries)

mutual

theorem ordered_of_document? : ∀ {node : Node} {depth : Nat} {document : Document},
    node.document? depth = some document → document.Ordered
  | .null, _, _, h => by
      cases h
      exact .null
  | .bool flag, _, _, h => by
      cases h
      exact .bool flag
  | .number value, _, _, h => by
      obtain ⟨number, -, rfl⟩ := Option.map_eq_some_iff.mp h
      exact .number number
  | .string text, _, _, h => by
      obtain ⟨content, -, rfl⟩ := Option.map_eq_some_iff.mp h
      exact .string content
  | .array items, depth, _, h => by
      unfold Node.document? at h
      split at h
      · contradiction
      · obtain ⟨documents, hdocuments, rfl⟩ := Option.map_eq_some_iff.mp h
        exact .array (ordered_of_documents? hdocuments)
  | .object entries, depth, _, h => by
      unfold Node.document? at h
      split at h
      · contradiction
      · obtain ⟨documents, hdocuments, rfl⟩ := Option.map_eq_some_iff.mp h
        exact .object (ascending_sortEntries _) fun entry hmem =>
          ordered_of_entries? hdocuments entry (mem_of_mem_sortEntries hmem)

theorem ordered_of_documents? : ∀ {items : List Node} {depth : Nat} {documents : List Document},
    Node.documents? depth items = some documents → ∀ document ∈ documents, document.Ordered
  | [], _, _, h => by
      cases h
      simp
  | item :: rest, _, _, h => by
      simp only [Node.documents?, bind, Option.bind_eq_some_iff, pure, Option.some.injEq] at h
      obtain ⟨document, hdocument, others, hothers, rfl⟩ := h
      exact List.forall_mem_cons.mpr
        ⟨ordered_of_document? hdocument, ordered_of_documents? hothers⟩

theorem ordered_of_entries? : ∀ {entries : List (Option String × Node)} {depth : Nat}
    {documents : List (String × Document)},
    Node.entries? depth entries = some documents → ∀ entry ∈ documents, entry.2.Ordered
  | [], _, _, h => by
      cases h
      simp
  | (key, node) :: rest, _, _, h => by
      simp only [Node.entries?, bind, Option.bind_eq_some_iff, pure, Option.some.injEq] at h
      obtain ⟨name, -, document, hdocument, others, hothers, rfl⟩ := h
      exact List.forall_mem_cons.mpr
        ⟨ordered_of_document? hdocument, ordered_of_entries? hothers⟩

end

theorem ordered_of_ofText? {text : String} {document : Document}
    (h : Document.ofText? text = some document) : document.Ordered := by
  obtain ⟨node, -, hnode⟩ := Option.bind_eq_some_iff.mp h
  exact ordered_of_document? hnode

end Document

end BinarySchema.Json
