import BinarySchema.Command.Write
import BinarySchema.Proofs.Json.Text
import BinarySchema.Proofs.Text.Hex
import BinarySchema.Proofs.Value.Extent
import BinarySchema.Proofs.Value.Numbers

/-!
# What the commands report of each other

The bytes that one command prints for a document are read by the other one, which reports the
document again with the numbers as their codecs keep them.
-/

namespace BinarySchema

open Json (Document)

namespace Context

variable {context : Context} {name : String} {record : TypeRecord} {document : Document}
  {input : Input} {value : Value} {size : UInt64} {written : Buffer}

/-- A value made from a document and written is read back, and its document is the one that it was
made from but for the numbers. -/
theorem exists_read_of_document (hresolve : context.resolve? name = some record)
    (hregular : context.Throughout (TypeRecord.Regular context.limits.elements) name)
    (hdistinct : context.Throughout TypeRecord.DistinctSlots name) (hordered : document.Ordered)
    (hfirst : context.NamesFirstSlots name document) (hinput : Input.ofDocument document = .ok input)
    (hwrap : Value.wrap context record input = .ok value)
    (hsize : value.encodedSize context = .ok size)
    (hwrite : value.write context (.zeros size.toNat) = .done written) :
    ∃ declared back, context.sizeOf name = .ok declared ∧
      context.read name written 0 = some (.ok back) ∧
      ∀ keep, ScalarCodec.KeepsDecoded keep →
        context.mapNumbers? keep name document = some back.toDocument := by
  have hraw := Input.embedded_of_ofDocument hinput
  obtain ⟨hsound, hsame⟩ := (Value.keptByMaking_sound context).wrap (by simp [hraw]) hwrap
  have hoffset := Value.offset_of_wrap hraw hwrap
  obtain ⟨declared, -, hdeclared, -, -⟩ := Value.exists_stop_of_encodedSize hoffset hsize
  have hsizeOf : context.sizeOf name = .ok declared :=
    sizeOf_eq_ok_iff.mpr ⟨record, hresolve, hsame.sizeOfRecord_eq.symm.trans hdeclared⟩
  have htype : value.OfType context name := ⟨record, hresolve, hsame⟩
  obtain ⟨hcomplete, hleaves⟩ := (Value.write_eq_done_iff hsound.shaped).mp hwrite
  have hmade := Value.madeFrom_of_makesPart hordered hdistinct hfirst hinput
    ⟨record, value, hresolve, hwrap, rfl⟩ hcomplete
  have hapart := (Value.leavesApart_of_sound hsound hcomplete htype
    (hregular.imp fun _ => TypeRecord.Regular.closed) hsizeOf).apart
  obtain ⟨back, hread, hback⟩ := Value.read_of_stored hsizeOf hregular htype hsound hcomplete
    (Value.firstActive_of_madeFrom hmade)
    fun leaf hleaf => (Value.encoded_of_writesAll hleaves hapart leaf hleaf).stored
  rw [hoffset] at hread
  exact ⟨declared, back, hsizeOf, hread,
    fun keep hkeep => Value.mapNumbers?_of_madeFrom hkeep hmade hback⟩

end Context

namespace Command

variable {files : Files} {context : Context}

theorem valueOfText_eq_ok_iff {record : TypeRecord} {text : String} {value : Value} :
    valueOfText context record text = .ok value ↔
      ∃ document input, Document.ofText? text = some document ∧
        Input.ofDocument document = .ok input ∧ Value.wrap context record input = .ok value := by
  unfold valueOfText
  cases hdocument : Document.ofText? text with
  | none => simp
  | some document =>
      cases hinput : Input.ofDocument document with
      | error failure => simp [hinput]
      | ok input => simp [hinput]

theorem WriteRequest.run_eq_ok_iff {request : WriteRequest} {printed : String} :
    request.run files = .ok printed ↔
      ∃ context record value size written,
        loadContext files request.schema request.platform = .ok context ∧
        context.resolve? request.typeName = some record ∧
        valueOfText context record request.value = .ok value ∧
        value.encodedSize context = .ok size ∧
        value.write context (.zeros size.toNat) = .done written ∧
        printed = request.render written := by
  simp only [WriteRequest.run, encode, bind_eq_ok_iff, Context.require_eq_ok_iff,
    Update.result_eq_ok_iff, pure, Except.pure, Except.ok.injEq]
  constructor
  · rintro ⟨context, hload, record, hresolve, value, hvalue, written, ⟨size, hsize, hwrite⟩, rfl⟩
    exact ⟨context, record, value, size, written, hload, hresolve, hvalue, hsize, hwrite, rfl⟩
  · rintro ⟨context, record, value, size, written, hload, hresolve, hvalue, hsize, hwrite, rfl⟩
    exact ⟨context, hload, record, hresolve, value, hvalue, written, ⟨size, hsize, hwrite⟩, rfl⟩

/-- The read of the bytes that a request prints, from their start, reported as a document. -/
def WriteRequest.readBack (request : WriteRequest) (hex : String) : ReadRequest :=
  ⟨request.schema, request.typeName, some hex, none, 0, request.platform, true⟩

theorem ReadRequest.run_eq_ok (request : ReadRequest) {buffer : Buffer} {size : UInt64}
    {value : Value} (hload : loadContext files request.schema request.platform = .ok context)
    (hbuffer : request.buffer files = .ok buffer)
    (hsize : context.sizeOf request.typeName = .ok size)
    (hread : context.read request.typeName buffer request.offset = some (.ok value)) :
    request.run files = some (.ok (request.render size value)) := by
  simp only [ReadRequest.run, hload, hbuffer, hsize, ok_bind, pure, Except.pure, hread,
    Option.bind_eq_bind, Option.bind_some]
  rfl

theorem fromUTF8?_toByteArray (text : String) : String.fromUTF8? text.toByteArray = some text := by
  rw [String.fromUTF8?, dif_pos text.isValidUTF8]
  rfl

theorem loadContext_json {path text : String} {records : List TypeRecord} {platform : Platform}
    (hpath : SchemaFormat.ofPath? path = some .json)
    (hbytes : files path = some text.toByteArray.data)
    (hrecords : Schema.recordsOfJson? text = some records) :
    loadContext files path platform = .ok (.ofRecords records platform {}) := by
  have hdecode : String.fromUTF8? ⟨text.toByteArray.data⟩ = some text := fromUTF8?_toByteArray text
  have htext : files.text path = .ok text := by
    simp only [Files.text, hbytes, hdecode]
  simp only [loadContext, Files.records, hpath, htext, SchemaFormat.records, hrecords]

theorem limits_of_loadContext {schema : String} {platform : Platform}
    (h : loadContext files schema platform = .ok context) : context.limits = {} := by
  unfold loadContext at h
  split at h
  · cases h
    rfl
  · contradiction

/-! ## Printed texts -/

theorem finiteNumbers_scalar (content : Scalar) : content.toDocument.FiniteNumbers := by
  cases content with
  | int word => exact .number trivial
  | uint word => exact .number trivial
  | float number =>
      have hdocument : (Scalar.float number).toDocument = Document.ofFloat number := rfl
      rw [hdocument, Document.ofFloat]
      split
      · rename_i hfinite
        exact .number hfinite
      · exact .null

private theorem slotDocuments_eq_map (slots : List (Option Value)) :
    Value.slotDocuments slots = slots.map (Option.map Value.toDocument) := by
  induction slots with
  | nil => rfl
  | cons slot rest ih => cases slot <;> simp [Value.slotDocuments, ih]

/-- Infinities and NaNs have become `null`, so all numbers of a value have numerals. -/
theorem finiteNumbers_toDocument (value : Value) : value.toDocument.FiniteNumbers := by
  induction value using Value.induction with
  | scalar record offset content =>
      cases content with
      | none => exact .null
      | some content => exact finiteNumbers_scalar content
  | struct record offset slots ih =>
      refine .object fun entry hmem => ?_
      obtain ⟨⟨name, document⟩, hdocument, rfl⟩ :=
        List.mem_map.mp (Json.mem_of_mem_sortEntries hmem)
      cases document with
      | none => exact .null
      | some document =>
          have hslot := Value.mem_of_snd_mem_entriesByName (List.mem_map_of_mem hdocument)
          rw [slotDocuments_eq_map] at hslot
          obtain ⟨slot, hchild, heq⟩ := List.mem_map.mp hslot
          obtain ⟨child, rfl, rfl⟩ := Option.map_eq_some_iff.mp heq
          exact ih child hchild
  | unset record offset => exact .null
  | active record offset name child ih =>
      refine .object fun entry hmem => ?_
      cases List.mem_singleton.mp hmem
      exact ih
  | array record offset items ih =>
      refine .array fun document hmem => ?_
      rw [Value.itemDocuments_eq_map] at hmem
      obtain ⟨item, hitem, rfl⟩ := List.mem_map.mp hmem
      exact ih item hitem

theorem length_toHex (buffer : Buffer) : buffer.toHex.length = 2 * buffer.size := by
  rw [Buffer.toHex, String.length_ofList, Text.hexText, List.length_flatMap]
  simp [Text.hexPair, Nat.mul_comm]

theorem hasText_documentLines {document : Document} (h : document.FiniteNumbers) :
    document.HasText (documentLines document) :=
  h.hasText_indented

/-- What a request prints of bytes with the hexadecimal text: a document that tells it, or a line
with the text alone. -/
def WriteRequest.Prints (request : WriteRequest) (hex printed : String) : Prop :=
  if request.json then
    Document.HasText (.object [("type", .string request.typeName),
      ("target", .string request.platform.id),
      ("size", .number (.integer (hex.length / 2 : Nat))), ("hex", .string hex)]) printed
  else printed = hex ++ "\n"

theorem WriteRequest.prints_render (request : WriteRequest) (buffer : Buffer) :
    request.Prints buffer.toHex (request.render buffer) := by
  unfold Prints render
  split
  · have hsize : buffer.toHex.length / 2 = buffer.size := by
      rw [length_toHex]
      omega
    rw [hsize]
    refine hasText_documentLines (.object ?_)
    simp only [List.forall_mem_cons, List.not_mem_nil, false_imp_iff, implies_true, and_true]
    exact ⟨.string _, .string _, .number trivial, .string _⟩
  · simp [lines]

/-- What `read` reports of the bytes that `write` has printed for a document of a type whose parts
leave their sizes to their contents, whose arrays have known lengths and whose structs have slots with
names of their own: the document again, every number as its codec keeps it. -/
theorem report_of_written {request : WriteRequest} {document : Document} {printed : String}
    (hload : loadContext files request.schema request.platform = .ok context)
    (hcontents : context.Throughout TypeRecord.SizedByContents request.typeName)
    (hlengths : context.Throughout (TypeRecord.LengthWithin 1048576) request.typeName)
    (hdistinct : context.Throughout TypeRecord.DistinctSlots request.typeName)
    (hparse : Document.ofText? request.value = some document)
    (hfirst : context.NamesFirstSlots request.typeName document)
    (hwrite : request.run files = .ok printed) :
    ∃ hex size report reported, request.Prints hex printed ∧
      (request.readBack hex).run files = some (.ok report) ∧
      context.sizeOf request.typeName = .ok size ∧
      Document.HasText (.object [("type", .string request.typeName),
        ("target", .string request.platform.id), ("offset", .number (.integer 0)),
        ("size", .number (.integer size.toNat)), ("value", reported)]) report ∧
      context.mapNumbers? ScalarCodec.decoded? request.typeName document = some reported ∧
      context.mapNumbers? ScalarCodec.image? request.typeName document = some reported := by
  obtain ⟨other, record, value, size, written, hother, hresolve, hvalue, hsize, hbytes, rfl⟩ :=
    WriteRequest.run_eq_ok_iff.mp hwrite
  cases hload.symm.trans hother
  obtain ⟨found, input, hfound, hinput, hwrap⟩ := valueOfText_eq_ok_iff.mp hvalue
  cases hparse.symm.trans hfound
  have hregular : context.Throughout (TypeRecord.Regular context.limits.elements)
      request.typeName := by
    rw [limits_of_loadContext hload]
    exact hcontents.and hlengths
  obtain ⟨declared, back, hdeclared, hread, hreported⟩ :=
    Context.exists_read_of_document hresolve hregular hdistinct
      (Document.ordered_of_ofText? hparse) hfirst hinput hwrap hsize hbytes
  have hreport := ReadRequest.run_eq_ok (request.readBack written.toHex) hload
    (Buffer.ofHex_toHex written) hdeclared hread
  refine ⟨written.toHex, declared, _, back.toDocument, request.prints_render written, hreport,
    hdeclared, ?_, hreported _ ScalarCodec.keepsDecoded_decoded?,
    hreported _ ScalarCodec.keepsDecoded_image?⟩
  refine hasText_documentLines (.object ?_)
  simp only [List.forall_mem_cons, List.not_mem_nil, false_imp_iff, implies_true, and_true]
  exact ⟨.string _, .string _, .number trivial, .number trivial, finiteNumbers_toDocument back⟩

def frameText : String :=
  .ofList (List.flatMap String.toList
    ["[[\"byte\",\"base\",1,\"unsigned\"],", "[\"word\",\"base\",2,\"unsigned\",\"big\"],",
      "[\"level\",\"base\",4,\"floating\"],", "[\"choice\",\"union\",null,null,\"little\",false,",
      "[[\"small\",\"byte\"],[\"large\",\"word\"]]],",
      "[\"frame\",\"struct\",null,null,\"little\",false,", "[[\"tag\",\"word\"],[\"body\",\"choice\"],", "[\"levels\",\"level[2]\"]]]]"])

def frameFiles : Files :=
  fun _ => some frameText.toByteArray.data

def frameRequest : WriteRequest :=
  ⟨"frame.json", "frame",
    "\x7b\"tag\":257,\"body\":\x7b\"small\":true\x7d,\"levels\":[1,2]\x7d", .arm, true⟩

def frameDocument : Document :=
  .object [("body", .object [("small", .bool true)]),
    ("levels", .array [.number (.integer 1), .number (.integer 2)]), ("tag", .number (.integer 257))]

theorem namesFirstSlots_frame : frameContext.NamesFirstSlots "frame" frameDocument := by
  have hframe : frameContext.resolve? "frame" =
      some (.struct "frame" [⟨"tag", "word"⟩, ⟨"body", "choice"⟩, ⟨"levels", "level[2]"⟩]) := rfl
  have hchoice : frameContext.resolve? "choice" =
      some (.union "choice" [⟨"small", "byte"⟩, ⟨"large", "word"⟩]) := rfl
  have hnumber : ∀ name number, frameContext.NamesFirstSlots name (.number number) :=
    fun _ _ => Context.namesFirstSlots_of_inside (by simp) (by rintro _ _ ⟨⟩)
  have hbool : ∀ name flag, frameContext.NamesFirstSlots name (.bool flag) :=
    fun _ _ => Context.namesFirstSlots_of_inside (by simp) (by rintro _ _ ⟨⟩)
  refine Context.namesFirstSlots_of_inside ?_ ?_
  · rintro entries record - hrecord hkind
    cases hframe.symm.trans hrecord
    contradiction
  rintro part inner (⟨hresolve, hslot, hmem⟩ | _)
  cases hframe.symm.trans hresolve
  simp only [List.mem_cons, Prod.mk.injEq, List.not_mem_nil, or_false] at hmem
  rcases hmem with ⟨rfl, rfl⟩ | ⟨rfl, rfl⟩ | ⟨rfl, rfl⟩
  · cases hslot
    refine Context.namesFirstSlots_of_inside ?_ ?_
    · rintro entries record heq hrecord -
      cases hchoice.symm.trans hrecord
      cases heq
      simp [TypeRecord.union]
    · rintro part inner (⟨-, -, hmem⟩ | _)
      cases List.mem_singleton.mp hmem
      exact hbool _ _
  · refine Context.namesFirstSlots_of_inside (by simp) ?_
    rintro part inner (_ | ⟨-, -, hmem⟩)
    simp only [List.mem_cons, List.not_mem_nil, or_false] at hmem
    rcases hmem with rfl | rfl <;> exact hnumber _ _
  · exact hnumber _ _

theorem ofText?_frameRequest : Document.ofText? frameRequest.value = some frameDocument := by
  decide +kernel

theorem recordsOfJson?_ofList {chars : List Char} {records : List TypeRecord}
    (h : ((Json.readValue Json.NumberText.value? (2 * chars.length + 1) chars).bind fun read =>
      if (Json.skipSpace read.2).isEmpty then Schema.recordsOfNode? read.1 else none) =
        some records) : Schema.recordsOfJson? (.ofList chars) = some records := by
  obtain ⟨⟨node, rest⟩, hread, hrecords⟩ := Option.bind_eq_some_iff.mp h
  rw [ite_eq_iff] at hrecords
  obtain ⟨hrest, hrecords⟩ | ⟨-, hnone⟩ := hrecords
  · simp [Schema.recordsOfJson?, Json.Node.ofText?, Json.Node.ofTextWith?, String.toList_ofList,
      hread, hrest, hrecords]
  · contradiction

theorem recordsOfJson?_frameText : Schema.recordsOfJson? frameText = some frameRecords :=
  recordsOfJson?_ofList (by decide +kernel)

theorem loadContext_frame :
    loadContext frameFiles frameRequest.schema frameRequest.platform = .ok frameContext :=
  loadContext_json (by decide +kernel) rfl recordsOfJson?_frameText

theorem report_of_written_frame :
    ∃ printed hex size report reported, frameRequest.run frameFiles = .ok printed ∧
      frameRequest.Prints hex printed ∧
      (frameRequest.readBack hex).run frameFiles = some (.ok report) ∧
      frameContext.sizeOf "frame" = .ok size ∧
      Document.HasText (.object [("type", .string "frame"),
        ("target", .string frameRequest.platform.id), ("offset", .number (.integer 0)),
        ("size", .number (.integer size.toNat)), ("value", reported)]) report ∧
      frameContext.mapNumbers? ScalarCodec.decoded? "frame" frameDocument = some reported ∧
      frameContext.mapNumbers? ScalarCodec.image? "frame" frameDocument = some reported := by
  let input : Input := .fields [("body", .fields [("small", .scalar (.uint 1))]),
    ("levels", .items [.scalar (.int 1), .scalar (.int 2)]), ("tag", .scalar (.int 257))]
  obtain ⟨value, hvalue, hsize, houtcome⟩ : ∃ value : Value,
      Value.wrap frameContext
        (.struct "frame" [⟨"tag", "word"⟩, ⟨"body", "choice"⟩, ⟨"levels", "level[2]"⟩]) input =
          .ok value ∧
      value.encodedSize frameContext = .ok 16 ∧
      (value.write frameContext (.zeros 16)).outcome = .ok () := ⟨_, rfl, rfl, rfl⟩
  have hinput : Input.ofDocument frameDocument = .ok input := rfl
  have htext : valueOfText frameContext
      (.struct "frame" [⟨"tag", "word"⟩, ⟨"body", "choice"⟩, ⟨"levels", "level[2]"⟩])
      frameRequest.value = .ok value :=
    valueOfText_eq_ok_iff.mpr ⟨frameDocument, input, ofText?_frameRequest, hinput, hvalue⟩
  have hwrite : frameRequest.run frameFiles = .ok _ :=
    WriteRequest.run_eq_ok_iff.mpr ⟨frameContext, _, value, 16, _, loadContext_frame, rfl, htext,
      hsize, Update.eq_done houtcome, rfl⟩
  obtain ⟨hex, size, report, reported, hprints, hrest⟩ := report_of_written loadContext_frame
    (throughout_frame (by decide) (by decide)) (throughout_frame (by decide) (by decide))
    (throughout_frame (by decide) (by decide)) ofText?_frameRequest namesFirstSlots_frame hwrite
  exact ⟨_, hex, size, report, reported, hwrite, hprints, hrest⟩

-- the truth value comes back as a one, the levels as floats
example : frameContext.mapNumbers? ScalarCodec.image? "frame" frameDocument =
    some (.object [("body", .object [("small", .number (.integer 1))]),
      ("levels", .array [.number (.float (.ofSingle 0x3f800000)),
        .number (.float (.ofSingle 0x40000000))]),
      ("tag", .number (.integer 257))]) := by
  rfl

end Command

end BinarySchema
