import BinarySchema.Proofs.Json.Document
import BinarySchema.Proofs.Json.Numeral
import BinarySchema.Proofs.Text.Hex

/-!
# Printed documents are read back

The grammar reads the indented text of a document to its end and finds the document, with every
string, every number and the order of all entries as they were printed.
-/

namespace BinarySchema.Json

open Text (isDecimalDigit)

/-! ## Strings -/

/-- A character is read from the text that it is escaped to. -/
theorem readString_escapeChar (c : Char) (read tail : List Char) :
    readString ⟨none, some read⟩ (escapeChar c ++ tail) =
      readString ⟨none, some (c :: read)⟩ tail := by
  unfold escapeChar
  split_ifs with hquote hslash hline hreturn htab hback hfeed hcontrol
  · subst hquote
    rfl
  · subst hslash
    rfl
  · subst hline
    rfl
  · subst hreturn
    rfl
  · subst htab
    rfl
  · have hc : c = Char.ofNat 8 := by rw [← hback, Char.ofNat_toNat]
    subst hc
    rfl
  · have hc : c = Char.ofNat 12 := by rw [← hfeed, Char.ofNat_toNat]
    subst hc
    rfl
  · have hnibble : ∀ value < 16, Text.nibble? (Text.nibbleDigit value) = some value :=
      fun value hlt => Text.nibble?_eq_some_iff.mpr (Text.isNibble_iff.mpr ⟨hlt, .inl rfl⟩)
    have hzero : Text.nibble? '0' = some 0 := rfl
    have hunit : codeUnit? '0' '0' (Text.nibbleDigit (c.toNat / 16))
        (Text.nibbleDigit (c.toNat % 16)) = some c.toNat := by
      simp only [codeUnit?, hzero, hnibble _ (by omega : c.toNat / 16 < 16),
        hnibble _ (Nat.mod_lt c.toNat (by decide))]
      congr 1
      omega
    have hlow : ¬(0xDC00 ≤ c.toNat ∧ c.toNat < 0xE000) := by omega
    have hhigh : ¬(0xD800 ≤ c.toNat ∧ c.toNat < 0xDC00) := by omega
    have hadd : StringState.addUnit ⟨none, some read⟩ c.toNat = ⟨none, some (c :: read)⟩ := by
      rw [StringState.addUnit, if_neg hlow, if_neg hhigh, Char.ofNat_toNat]
      rfl
    simp only [List.cons_append, List.nil_append]
    rw [readString, hunit]
    dsimp only
    rw [hadd]
  · rw [List.singleton_append, readString, if_neg hcontrol]
    · rfl
    · exact hquote
    · exact fun _ _ _ _ _ h => absurd h hslash
    · exact fun _ _ h => absurd h hslash

theorem stringText_append (text : String) (tail : List Char) :
    stringText text ++ tail = '"' :: (text.toList.flatMap escapeChar ++ '"' :: tail) := by
  simp [stringText]

theorem readString_stringText (text : String) (tail : List Char) :
    readString {} (text.toList.flatMap escapeChar ++ '"' :: tail) = some (some text, tail) := by
  have hread : ∀ (chars read : List Char),
      readString ⟨none, some read⟩ (chars.flatMap escapeChar ++ '"' :: tail) =
        some (some (String.ofList (read.reverse ++ chars)), tail) := by
    intro chars
    induction chars with
    | nil =>
        intro read
        rw [List.append_nil]
        rfl
    | cons c rest ih =>
        intro read
        rw [List.flatMap_cons, List.append_assoc, readString_escapeChar, ih, List.reverse_cons,
          List.append_assoc, List.singleton_append]
  rw [hread text.toList [], List.reverse_nil, List.nil_append, String.ofList_toList]

/-! ## Blanks -/

theorem skipSpace_of_head {c : Char} (rest : List Char) (h : isSpace c = false) :
    skipSpace (c :: rest) = c :: rest :=
  List.dropWhile_cons_of_neg (by simp [h])

theorem skipSpace_newLine (level : Nat) (tail : List Char) :
    skipSpace (Document.newLine level tail) = skipSpace tail := by
  have hblanks : ∀ c ∈ List.replicate (2 * level) ' ', isSpace c = true := by
    intro c hc
    rw [List.eq_of_mem_replicate hc]
    rfl
  exact List.dropWhile_append_of_pos hblanks

/-- Blanks in front of a value make no difference. -/
theorem readValue_congr {text other : List Char} (h : skipSpace text = skipSpace other)
    (meaning : NumberText → Option Number) (fuel : Nat) :
    readValue meaning fuel text = readValue meaning fuel other := by
  cases fuel with
  | zero => rfl
  | succ fuel => rw [readValue, readValue, h]

/-- What a numeral begins with is no blank and begins nothing else. -/
private theorem head_ne {c other : Char} (hc : c = '-' ∨ isDecimalDigit c = true)
    (hminus : other ≠ '-') (hdigit : isDecimalDigit other = false) : c ≠ other := by
  rintro rfl
  rcases hc with rfl | hc
  · contradiction
  · rw [hdigit] at hc
    contradiction

private theorem isSpace_of_numeral {c : Char} (hc : c = '-' ∨ isDecimalDigit c = true) :
    isSpace c = false := by
  simp only [isSpace, Bool.or_eq_false_iff, beq_eq_false_iff_ne]
  exact ⟨⟨⟨head_ne hc (by decide) (by decide), head_ne hc (by decide) (by decide)⟩,
    head_ne hc (by decide) (by decide)⟩, head_ne hc (by decide) (by decide)⟩

theorem readValue_numeral {c : Char} (hc : c = '-' ∨ isDecimalDigit c = true)
    (meaning : NumberText → Option Number) (fuel : Nat) (rest : List Char) :
    readValue meaning (fuel + 1) (c :: rest) = (readNumeral (c :: rest)).map
      fun (numeral, rest) => (.number (meaning numeral), rest) := by
  have hother : ∀ {other others}, c :: rest = other :: others → other ≠ '-' →
      isDecimalDigit other = true :=
    fun heq hminus => ((List.cons.inj heq).1 ▸ hc).resolve_left hminus
  rw [readValue, skipSpace_of_head rest (isSpace_of_numeral hc)]
  split
  · contradiction
  all_goals first
    | rfl
    | exact absurd (hother (by assumption) (by decide)) (by decide)

/-! ## Steps of the grammar -/

section

variable {meaning : NumberText → Option Number} {fuel : Nat} {text rest more tail : List Char}
  {node : Node} {nodes : List Node} {key : Option String} {entries : List (Option String × Node)}

theorem readValue_emptyArray (h : skipSpace text = ']' :: tail) :
    readValue meaning (fuel + 1) ('[' :: text) = some (.array [], tail) := by
  rw [readValue, skipSpace_of_head text (by decide)]
  simp only [h]

theorem readValue_array (hhead : ∀ other, skipSpace text ≠ ']' :: other)
    (hitems : readItems meaning fuel text = some (nodes, tail)) :
    readValue meaning (fuel + 1) ('[' :: text) = some (.array nodes, tail) := by
  rw [readValue, skipSpace_of_head text (by decide)]
  simp only [hitems, Option.map_some]

theorem readItems_last (hitem : readValue meaning fuel text = some (node, rest))
    (hclose : skipSpace rest = ']' :: tail) :
    readItems meaning (fuel + 1) text = some ([node], tail) := by
  simp only [readItems, hitem, hclose]

theorem readItems_cons (hitem : readValue meaning fuel text = some (node, rest))
    (hcomma : skipSpace rest = ',' :: more)
    (hitems : readItems meaning fuel more = some (nodes, tail)) :
    readItems meaning (fuel + 1) text = some (node :: nodes, tail) := by
  simp only [readItems, hitem, hcomma, hitems, Option.map_some]

theorem readValue_emptyObject (h : skipSpace text = '\x7d' :: tail) :
    readValue meaning (fuel + 1) ('\x7b' :: text) = some (.object [], tail) := by
  rw [readValue, skipSpace_of_head text (by decide)]
  simp only [h]

theorem readValue_object (hhead : ∀ other, skipSpace text ≠ '\x7d' :: other)
    (hentries : readEntries meaning fuel text = some (entries, tail)) :
    readValue meaning (fuel + 1) ('\x7b' :: text) = some (.object entries, tail) := by
  rw [readValue, skipSpace_of_head text (by decide)]
  simp only [hentries, Option.map_some]

theorem readEntries_last {value : List Char} (hquote : skipSpace text = '"' :: rest)
    (hkey : readString {} rest = some (key, more)) (hcolon : skipSpace more = ':' :: value)
    {after : List Char} (hvalue : readValue meaning fuel value = some (node, after))
    (hclose : skipSpace after = '\x7d' :: tail) :
    readEntries meaning (fuel + 1) text = some ([(key, node)], tail) := by
  simp only [readEntries, hquote, hkey, hcolon, hvalue, hclose]

theorem readEntries_cons {value : List Char} (hquote : skipSpace text = '"' :: rest)
    (hkey : readString {} rest = some (key, more)) (hcolon : skipSpace more = ':' :: value)
    {after others : List Char} (hvalue : readValue meaning fuel value = some (node, after))
    (hcomma : skipSpace after = ',' :: others)
    (hentries : readEntries meaning fuel others = some (entries, tail)) :
    readEntries meaning (fuel + 1) text = some ((key, node) :: entries, tail) := by
  simp only [readEntries, hquote, hkey, hcolon, hvalue, hcomma, hentries, Option.map_some]

end

/-! ## Documents -/

namespace Document

/-- Every number of the document has a numeral. -/
inductive FiniteNumbers : Document → Prop
  | null : FiniteNumbers .null
  | bool (flag : Bool) : FiniteNumbers (.bool flag)
  | number {value : Number} (hfinite : value.IsFinite) : FiniteNumbers (.number value)
  | string (text : String) : FiniteNumbers (.string text)
  | array {items : List Document} (hitems : ∀ item ∈ items, FiniteNumbers item) :
      FiniteNumbers (.array items)
  | object {entries : List (String × Document)}
      (hentries : ∀ entry ∈ entries, FiniteNumbers entry.2) : FiniteNumbers (.object entries)

private theorem indentedItems_append (items : List Document) (level : Nat)
    (hitems : ∀ item ∈ items, ∀ level tail more,
      indented level tail item ++ more = indented level (tail ++ more) item)
    (tail more : List Char) :
    indentedItems level tail items ++ more = indentedItems level (tail ++ more) items := by
  induction items with
  | nil => rfl
  | cons item rest ih =>
      obtain ⟨hitem, hrest⟩ := List.forall_mem_cons.mp hitems
      simp [indentedItems, newLine, hitem, ih hrest]

private theorem indentedEntries_append (entries : List (String × Document)) (level : Nat)
    (hentries : ∀ key entry, (key, entry) ∈ entries → ∀ level tail more,
      indented level tail entry ++ more = indented level (tail ++ more) entry)
    (tail more : List Char) :
    indentedEntries level tail entries ++ more = indentedEntries level (tail ++ more) entries := by
  induction entries with
  | nil => rfl
  | cons head rest ih =>
      obtain ⟨key, entry⟩ := head
      have hentry := hentries key entry (.head _)
      have hrest := ih fun key entry h => hentries key entry (.tail _ h)
      simp [indentedEntries, newLine, hentry, hrest]

theorem indented_append (document : Document) : ∀ level tail more,
    indented level tail document ++ more = indented level (tail ++ more) document := by
  induction document using Document.induction with
  | null => simp [indented, compact]
  | bool flag => cases flag <;> simp [indented, compact]
  | number value => simp [indented, compact]
  | string text => simp [indented, compact]
  | array items ih =>
      intro level tail more
      cases items with
      | nil => rfl
      | cons item rest =>
          obtain ⟨hitem, hrest⟩ := List.forall_mem_cons.mp ih
          simp [indented, newLine, hitem, indentedItems_append rest _ hrest]
  | object entries ih =>
      intro level tail more
      cases entries with
      | nil => rfl
      | cons head rest =>
          obtain ⟨key, entry⟩ := head
          have hentry := ih key entry (.head _)
          have hrest := fun key entry h => ih key entry (.tail _ h)
          simp [indented, newLine, hentry, indentedEntries_append rest _ hrest]

theorem indented_number (value : Number) (level : Nat) (tail : List Char) :
    indented level tail (.number value) = numberText value ++ tail :=
  rfl

/-! ## Lengths and first characters -/

/-- What may follow a document in a text. -/
def Follows (tail : List Char) : Prop :=
  ∀ c rest, tail = c :: rest → c = ',' ∨ c = '\n'

theorem Follows.endsNumeral {tail : List Char} (h : Follows tail) : EndsNumeral tail := by
  intro c rest heq
  rcases h c rest heq with rfl | rfl <;> decide

theorem follows_comma (tail : List Char) : Follows (',' :: tail) := by
  rintro c rest ⟨⟩
  exact .inl rfl

theorem follows_newLine (level : Nat) (tail : List Char) : Follows (newLine level tail) := by
  rintro c rest ⟨⟩
  exact .inr rfl

@[simp] theorem length_newLine (level : Nat) (tail : List Char) :
    (newLine level tail).length = 2 * level + 1 + tail.length := by
  simp only [newLine, List.length_cons, List.length_append, List.length_replicate]
  omega

/-- What a document begins with is no blank and closes nothing. -/
theorem exists_head {document : Document} (h : document.FiniteNumbers) (level : Nat)
    (tail : List Char) :
    ∃ c rest, document.indented level tail = c :: rest ∧ isSpace c = false ∧ c ≠ ']' := by
  cases h with
  | null => exact ⟨_, _, rfl, by decide, by decide⟩
  | bool flag => cases flag <;> exact ⟨_, _, rfl, by decide, by decide⟩
  | number hfinite =>
      obtain ⟨spelling, hwell, htext, -⟩ := exists_spelling hfinite
      obtain ⟨c, rest, heq, hc⟩ := Spelling.exists_head hwell
      refine ⟨c, rest ++ tail, ?_, isSpace_of_numeral hc, head_ne hc (by decide) (by decide)⟩
      rw [indented_number, ← htext, heq, List.cons_append]
  | string text => exact ⟨_, _, rfl, by decide, by decide⟩
  | @array items _ => cases items <;> exact ⟨_, _, rfl, by decide, by decide⟩
  | @object entries _ => cases entries <;> exact ⟨_, _, rfl, by decide, by decide⟩

theorem lt_length_indented {document : Document} (h : document.FiniteNumbers) (level : Nat)
    (tail : List Char) : tail.length < (document.indented level tail).length := by
  obtain ⟨c, rest, heq, -⟩ := exists_head h level []
  have happend := indented_append document level [] tail
  rw [List.nil_append, heq] at happend
  rw [← happend, List.length_append, List.length_cons]
  omega

theorem le_length_indentedItems (items : List Document) (level : Nat) (tail : List Char) :
    tail.length ≤ (indentedItems level tail items).length := by
  have happend := indentedItems_append items level (fun item _ => indented_append item) [] tail
  rw [List.nil_append] at happend
  rw [← happend, List.length_append]
  exact Nat.le_add_left _ _

theorem le_length_indentedEntries (entries : List (String × Document)) (level : Nat)
    (tail : List Char) : tail.length ≤ (indentedEntries level tail entries).length := by
  have happend := indentedEntries_append entries level (fun _ entry _ => indented_append entry) []
    tail
  rw [List.nil_append] at happend
  rw [← happend, List.length_append]
  exact Nat.le_add_left _ _

/-! ## Documents are read back -/

/-- The text of the document is read as the document, up to what follows it.  Every character of the
text is worth two steps. -/
def ReadsBack (document : Document) : Prop :=
  ∀ level fuel tail, Follows tail →
    2 * (document.indented level tail).length ≤ fuel + 2 * tail.length →
    readValue NumberText.exactValue? fuel (document.indented level tail) =
      some (document.toNode, tail)

variable {document : Document} {level fuel : Nat} {tail : List Char}

/-- There is always a step left to begin with. -/
private theorem readsBack_of_step (hfinite : document.FiniteNumbers)
    (hstep : ∀ level fuel tail, Follows tail →
      2 * (document.indented level tail).length ≤ fuel + 1 + 2 * tail.length →
      readValue NumberText.exactValue? (fuel + 1) (document.indented level tail) =
        some (document.toNode, tail)) : document.ReadsBack := by
  intro level fuel tail htail hfuel
  have hlength := lt_length_indented hfinite level tail
  obtain ⟨fuel, rfl⟩ := Nat.exists_eq_add_one_of_ne_zero (by omega : fuel ≠ 0)
  exact hstep level fuel tail htail hfuel

private theorem readsBack_number {value : Number} (hfinite : value.IsFinite) :
    ReadsBack (.number value) := by
  apply readsBack_of_step (.number hfinite)
  intro level fuel tail htail _
  obtain ⟨spelling, hwell, htext, hexact⟩ := exists_spelling hfinite
  obtain ⟨c, rest, heq, hc⟩ := Spelling.exists_head hwell
  have hread := Spelling.readNumeral_text hwell htail.endsNumeral
  rw [heq, List.cons_append] at hread
  rw [indented_number, ← htext, heq, List.cons_append, readValue_numeral hc, hread, Option.map_some,
    toNode, ← hexact]
  rfl

private theorem readsBack_string (text : String) : ReadsBack (.string text) := by
  apply readsBack_of_step (.string text)
  intro level fuel tail _ _
  have htext : indented level tail (.string text) = stringText text ++ tail := rfl
  have hread := readString_stringText text tail
  rw [htext, stringText_append, readValue, skipSpace_of_head _ (by decide)]
  simp only [hread, Option.map_some, toNode]

/-- A document in a line of its own is read, blanks first. -/
private theorem ReadsBack.readValue_newLine (h : document.ReadsBack) (htail : Follows tail)
    (hfuel : 2 * (document.indented level tail).length ≤ fuel + 2 * tail.length) :
    readValue NumberText.exactValue? fuel (newLine level (document.indented level tail)) =
      some (document.toNode, tail) :=
  (readValue_congr (skipSpace_newLine _ _) _ _).trans (h level fuel tail htail hfuel)

/-! ### Arrays -/

/-- The items of an array behind its opening bracket or a comma, and what follows the array. -/
def itemsText (level : Nat) (tail : List Char) (item : Document) (rest : List Document) :
    List Char :=
  newLine (level + 1) (indented (level + 1)
    (indentedItems level (newLine level (']' :: tail)) rest) item)

private theorem lt_length_itemsText {item : Document} (h : item.FiniteNumbers) (level : Nat)
    (tail : List Char) (rest : List Document) :
    tail.length < (itemsText level tail item rest).length := by
  have hclose := le_length_indentedItems rest level (newLine level (']' :: tail))
  have hline := lt_length_indented h (level + 1)
    (indentedItems level (newLine level (']' :: tail)) rest)
  simp only [itemsText, length_newLine, List.length_cons] at hclose ⊢
  omega

/-- The items are read one after the other, up to the closing bracket. -/
private theorem readItems_itemsText {rest : List Document} :
    ∀ {item : Document} {fuel : Nat},
      (∀ other ∈ item :: rest, other.FiniteNumbers ∧ other.ReadsBack) →
      2 * (itemsText level tail item rest).length < fuel + 2 * tail.length →
      readItems NumberText.exactValue? fuel (itemsText level tail item rest) =
        some (nodes (item :: rest), tail) := by
  induction rest with
  | nil =>
      intro item fuel hitems hfuel
      obtain ⟨hfinite, hreads⟩ := hitems item (.head _)
      have hlength := lt_length_indented hfinite (level + 1) (newLine level (']' :: tail))
      simp only [itemsText, indentedItems, length_newLine, List.length_cons] at hfuel hlength
      obtain ⟨fuel, rfl⟩ := Nat.exists_eq_add_one_of_ne_zero (by omega : fuel ≠ 0)
      apply readItems_last
      · apply hreads.readValue_newLine (follows_newLine _ _)
        simp only [length_newLine, List.length_cons]
        omega
      · rw [skipSpace_newLine, skipSpace_of_head _ (by decide)]
  | cons next rest ih =>
      intro item fuel hitems hfuel
      obtain ⟨⟨hfinite, hreads⟩, hrest⟩ := List.forall_mem_cons.mp hitems
      have hcomma : indentedItems level (newLine level (']' :: tail)) (next :: rest) =
          ',' :: itemsText level tail next rest := rfl
      have hlength := lt_length_indented hfinite (level + 1) (',' :: itemsText level tail next rest)
      have hnext := lt_length_itemsText (hrest next (.head _)).1 level tail rest
      rw [itemsText, hcomma] at hfuel ⊢
      simp only [length_newLine, List.length_cons] at hfuel hlength
      obtain ⟨fuel, rfl⟩ := Nat.exists_eq_add_one_of_ne_zero (by omega : fuel ≠ 0)
      apply readItems_cons _ (skipSpace_of_head _ (by decide)) (ih hrest (by omega))
      apply hreads.readValue_newLine (follows_comma _)
      rw [List.length_cons]
      omega

private theorem readsBack_array {items : List Document}
    (hitems : ∀ item ∈ items, item.FiniteNumbers ∧ item.ReadsBack) : ReadsBack (.array items) := by
  apply readsBack_of_step (.array fun item h => (hitems item h).1)
  intro level fuel tail _ hfuel
  cases items with
  | nil => exact readValue_emptyArray (skipSpace_of_head _ (by decide))
  | cons item rest =>
      have htext : indented level tail (.array (item :: rest)) =
          '[' :: itemsText level tail item rest := rfl
      rw [htext, List.length_cons] at hfuel
      rw [htext]
      apply readValue_array _ (readItems_itemsText hitems (by omega))
      intro other heq
      obtain ⟨c, others, hhead, hspace, hbracket⟩ :=
        exists_head (hitems item (.head _)).1 (level + 1)
          (indentedItems level (newLine level (']' :: tail)) rest)
      rw [itemsText, skipSpace_newLine, hhead, skipSpace_of_head _ hspace] at heq
      exact hbracket (List.cons.inj heq).1

/-! ### Objects -/

/-- The entries of an object behind its opening brace or a comma, and what follows the object. -/
def entriesText (level : Nat) (tail : List Char) (key : String) (document : Document)
    (rest : List (String × Document)) : List Char :=
  newLine (level + 1) (stringText key ++ ':' :: ' ' :: indented (level + 1)
    (indentedEntries level (newLine level ('\x7d' :: tail)) rest) document)

private theorem skipSpace_entriesText (level : Nat) (tail : List Char) (key : String)
    (document : Document) (rest : List (String × Document)) :
    skipSpace (entriesText level tail key document rest) =
      '"' :: (key.toList.flatMap escapeChar ++ '"' :: ':' :: ' ' :: indented (level + 1)
        (indentedEntries level (newLine level ('\x7d' :: tail)) rest) document) := by
  rw [entriesText, skipSpace_newLine, stringText_append, skipSpace_of_head _ (by decide)]

private theorem lt_length_entriesText (h : document.FiniteNumbers) (level : Nat)
    (tail : List Char) (key : String) (rest : List (String × Document)) :
    tail.length < (entriesText level tail key document rest).length := by
  have hclose := le_length_indentedEntries rest level (newLine level ('\x7d' :: tail))
  have hline := lt_length_indented h (level + 1)
    (indentedEntries level (newLine level ('\x7d' :: tail)) rest)
  simp only [entriesText, length_newLine, List.length_append, List.length_cons] at hclose hline ⊢
  omega

/-- A document behind a colon is read, a blank first. -/
private theorem ReadsBack.readValue_blank (h : document.ReadsBack) (htail : Follows tail)
    (hfuel : 2 * (document.indented level tail).length ≤ fuel + 2 * tail.length) :
    readValue NumberText.exactValue? fuel (' ' :: document.indented level tail) =
      some (document.toNode, tail) := by
  have hblank : skipSpace (' ' :: document.indented level tail) =
      skipSpace (document.indented level tail) := rfl
  exact (readValue_congr hblank _ _).trans (h level fuel tail htail hfuel)

/-- The entries are read one after the other, up to the closing brace. -/
private theorem readEntries_entriesText {rest : List (String × Document)} :
    ∀ {key : String} {document : Document} {fuel : Nat},
      (∀ entry ∈ (key, document) :: rest, entry.2.FiniteNumbers ∧ entry.2.ReadsBack) →
      2 * (entriesText level tail key document rest).length < fuel + 2 * tail.length →
      readEntries NumberText.exactValue? fuel (entriesText level tail key document rest) =
        some (entryNodes ((key, document) :: rest), tail) := by
  induction rest with
  | nil =>
      intro key document fuel hentries hfuel
      obtain ⟨hfinite, hreads⟩ := hentries (key, document) (.head _)
      have hlength := lt_length_indented hfinite (level + 1) (newLine level ('\x7d' :: tail))
      simp only [entriesText, indentedEntries, length_newLine, List.length_append, List.length_cons]
        at hfuel hlength
      obtain ⟨fuel, rfl⟩ := Nat.exists_eq_add_one_of_ne_zero (by omega : fuel ≠ 0)
      apply readEntries_last (skipSpace_entriesText level tail key document [])
        (readString_stringText key _) (skipSpace_of_head _ (by decide))
      · apply hreads.readValue_blank (follows_newLine _ _)
        simp only [length_newLine, List.length_cons]
        omega
      · rw [skipSpace_newLine, skipSpace_of_head _ (by decide)]
  | cons next rest ih =>
      obtain ⟨other, entry⟩ := next
      intro key document fuel hentries hfuel
      have hfinite : document.FiniteNumbers := (hentries (key, document) (.head _)).1
      have hreads : document.ReadsBack := (hentries (key, document) (.head _)).2
      have hrest := (List.forall_mem_cons.mp hentries).2
      have hcomma : indentedEntries level (newLine level ('\x7d' :: tail)) ((other, entry) :: rest) =
          ',' :: entriesText level tail other entry rest := rfl
      have hlength := lt_length_indented hfinite (level + 1)
        (',' :: entriesText level tail other entry rest)
      have hentry : entry.FiniteNumbers := (hrest (other, entry) (.head _)).1
      have hnext := lt_length_entriesText hentry level tail other rest
      have hstart := skipSpace_entriesText level tail key document ((other, entry) :: rest)
      rw [hcomma] at hstart
      rw [entriesText, hcomma] at hfuel
      simp only [length_newLine, List.length_append, List.length_cons] at hfuel hlength
      obtain ⟨fuel, rfl⟩ := Nat.exists_eq_add_one_of_ne_zero (by omega : fuel ≠ 0)
      apply readEntries_cons hstart (readString_stringText key _) (skipSpace_of_head _ (by decide)) _
        (skipSpace_of_head _ (by decide)) (ih hrest (by omega))
      apply hreads.readValue_blank (follows_comma _)
      rw [List.length_cons]
      omega

private theorem readsBack_object {entries : List (String × Document)}
    (hentries : ∀ entry ∈ entries, entry.2.FiniteNumbers ∧ entry.2.ReadsBack) :
    ReadsBack (.object entries) := by
  apply readsBack_of_step (.object fun entry h => (hentries entry h).1)
  intro level fuel tail _ hfuel
  cases entries with
  | nil => exact readValue_emptyObject (skipSpace_of_head _ (by decide))
  | cons entry rest =>
      obtain ⟨key, document⟩ := entry
      have htext : indented level tail (.object ((key, document) :: rest)) =
          '\x7b' :: entriesText level tail key document rest := rfl
      rw [htext, List.length_cons] at hfuel
      rw [htext]
      apply readValue_object _ (readEntries_entriesText hentries (by omega))
      intro other heq
      rw [skipSpace_entriesText] at heq
      exact absurd (List.cons.inj heq).1 (by decide)

/-- The text of a document whose numbers are finite is read as the document. -/
theorem FiniteNumbers.readsBack (h : document.FiniteNumbers) : document.ReadsBack := by
  induction h with
  | null => exact readsBack_of_step .null fun _ _ _ _ _ => rfl
  | bool flag =>
      apply readsBack_of_step (.bool flag)
      cases flag <;> exact fun _ _ _ _ _ => rfl
  | number hfinite => exact readsBack_number hfinite
  | string text => exact readsBack_string text
  | array hitems ih => exact readsBack_array fun item h => ⟨hitems item h, ih item h⟩
  | object hentries ih => exact readsBack_object fun entry h => ⟨hentries entry h, ih entry h⟩

/-- The text holds the document and nothing else: this is what the grammar finds in it, with the
numbers that the numerals stand for. -/
def HasText (document : Document) (text : String) : Prop :=
  Node.ofTextWith? NumberText.exactValue? text = some document.toNode

theorem FiniteNumbers.hasText_indented (h : document.FiniteNumbers) :
    document.HasText (document.indentedText ++ "\n") := by
  have htext : (document.indentedText ++ "\n").toList = document.indented 0 ['\n'] := by
    rw [String.toList_append, indentedText, String.toList_ofList]
    exact indented_append document 0 [] ['\n']
  have hread := h.readsBack 0 (2 * (document.indented 0 ['\n']).length + 1) ['\n']
    (follows_newLine 0 []) (by omega)
  unfold HasText Node.ofTextWith?
  dsimp only
  rw [htext, hread]
  rfl

end Document

end BinarySchema.Json
