import Mathlib.Logic.Function.Basic
import BinarySchema.Proofs.Value.Reading

/-!
# Sessions

A program holds values in variables and changes them by calls, passing held values on; the schema
and the platform may change under it.  As long as they do not, and no call fails that may leave a
change half done, every held value has the types and places that the context asks for.  A successful
move or assignment to a slot restores the places in every case.
-/

namespace BinarySchema

/-! ## Calls -/

inductive Call where
  | create (name : String)
  | wrap (record : TypeRecord) (input : Input)
  | fetch (name : String) (buffer : Buffer) (offset : UInt64)
  | copy (part : Value)
  | set (input : Input)
  | setSlot (name : String) (input : Input)
  | push (input : Input)
  | moveTo (offset : UInt64)
  | read (buffer : Buffer)

namespace Call

def material : Call → List Value
  | .wrap _ input | .set input | .setSlot _ input | .push input => input.embedded
  | .copy part => [part]
  | .create _ | .fetch .. | .moveTo _ | .read _ => []

/-- A failure of the call leaves its variable alone. -/
def isAtomic : Call → Bool
  | .create _ | .wrap .. | .fetch .. | .copy _ | .set _ | .push _ => true
  | .setSlot .. | .moveTo _ | .read _ => false

/-- A success of the call places the whole value anew. -/
def places : Call → Bool
  | .set _ | .setSlot .. | .moveTo _ => true
  | _ => false

/-- A new content for a variable, which keeps the old one on failure. -/
def renew (old : Option Value) : Except Error Value → Update (Option Value)
  | .ok value => .done (some value)
  | .error failure => .failed old failure

/-- What a call makes of the content of a variable.  There is no result for a change of an unset
variable, nor for a read that does not end. -/
def run (context : Context) : Call → Option Value → Option (Update (Option Value))
  | .create name, old => some (renew old (context.create name))
  | .wrap record input, old => some (renew old (Value.wrap context record input))
  | .fetch name buffer offset, old => (context.read name buffer offset).map (renew old)
  | .copy part, _ => some (.done (some part))
  | .set input, some value => some ((value.set context input).within some)
  | .setSlot name input, some value => some ((value.setSlot context name input).within some)
  | .push input, some value => some ((value.push context input).within some)
  | .moveTo offset, some value => some ((value.moveTo context offset).within some)
  | .read buffer, some value => (value.read context buffer).map (Update.within some)
  | _, none => none

end Call

/-! ## Sessions -/

structure Session where
  context : Context
  held : String → Option Value

inductive Action where
  | call (name : String) (call : Call)
  | load (records : List TypeRecord) (discard : Bool)
  | retarget (platform : Platform)

namespace Session

def start (context : Context) : Session :=
  ⟨context, fun _ => none⟩

/-- A value is held by a variable, or is part of one that is. -/
def Contains (session : Session) (part : Value) : Prop :=
  ∃ name value, session.held name = some value ∧ part.PartOf value

/-- One action and its outcome.  Calls are given values that the session contains. -/
inductive Step : Session → Action → Except Error Unit → Session → Prop
  | call {session : Session} (name : String) {call : Call} {update : Update (Option Value)}
      (hmaterial : ∀ part ∈ call.material, session.Contains part)
      (hrun : call.run session.context (session.held name) = some update) :
      Step session (.call name call) update.outcome
        { session with held := Function.update session.held name update.left }
  | load {session : Session} {records : List TypeRecord} {discard : Bool} :
      Step session (.load records discard) (.ok ())
        { session with context := session.context.load records discard }
  | retarget {session : Session} {platform : Platform} :
      Step session (.retarget platform) (.ok ())
        { session with context := { session.context with platform } }

def Run : Session → Session → Prop :=
  Relation.ReflTransGen fun session next => ∃ action outcome, session.Step action outcome next

/-- A call that succeeds, or whose failure leaves its variable alone. -/
def CleanStep (session next : Session) : Prop :=
  ∃ name call outcome, session.Step (.call name call) outcome next ∧
    (outcome = .ok () ∨ call.isAtomic = true)

def CleanRun : Session → Session → Prop :=
  Relation.ReflTransGen CleanStep

theorem CleanRun.run {session next : Session} (h : CleanRun session next) : Run session next := by
  refine Relation.ReflTransGen.mono (fun _ _ hstep => ?_) _ _ h
  obtain ⟨name, call, outcome, hstep, -⟩ := hstep
  exact ⟨_, outcome, hstep⟩

end Session

/-! ## What calls do -/

namespace Call

variable {context : Context} {call : Call} {old : Option Value} {update : Update (Option Value)}

/-- The calls that make a value anew, with what they make. -/
inductive Makes (context : Context) : Call → Except Error Value → Prop
  | create {name : String} : Makes context (.create name) (context.create name)
  | wrap {record : TypeRecord} {input : Input} :
      Makes context (.wrap record input) (Value.wrap context record input)
  | fetch {name : String} {buffer : Buffer} {offset : UInt64} {result : Except Error Value}
      (hread : context.read name buffer offset = some result) :
      Makes context (.fetch name buffer offset) result
  | copy {part : Value} : Makes context (.copy part) (.ok part)

/-- The calls that change a value, with what they leave of it. -/
inductive Changes (context : Context) (value : Value) : Call → Update Value → Prop
  | set {input : Input} : Changes context value (.set input) (value.set context input)
  | setSlot {name : String} {input : Input} :
      Changes context value (.setSlot name input) (value.setSlot context name input)
  | push {input : Input} : Changes context value (.push input) (value.push context input)
  | moveTo {offset : UInt64} : Changes context value (.moveTo offset) (value.moveTo context offset)
  | read {buffer : Buffer} {change : Update Value}
      (hread : value.read context buffer = some change) :
      Changes context value (.read buffer) change

/-- A call makes a value for its variable or changes the one that is there. -/
theorem makes_or_changes (hrun : call.run context old = some update) :
    (∃ result, call.Makes context result ∧ update = renew old result) ∨
      ∃ value change, old = some value ∧ call.Changes context value change ∧
        update = change.within some := by
  cases call with
  | create | wrap | copy =>
      cases hrun
      exact .inl ⟨_, by constructor, rfl⟩
  | fetch =>
      obtain ⟨result, hread, rfl⟩ := Option.map_eq_some_iff.mp hrun
      exact .inl ⟨result, .fetch hread, rfl⟩
  | set | setSlot | push | moveTo =>
      cases old with
      | none => contradiction
      | some value =>
          cases hrun
          exact .inr ⟨value, _, rfl, by constructor, rfl⟩
  | read =>
      cases old with
      | none => contradiction
      | some value =>
          obtain ⟨change, hread, rfl⟩ := Option.map_eq_some_iff.mp hrun
          exact .inr ⟨value, change, rfl, .read hread, rfl⟩

theorem left_renew {P : Value → Prop} {result : Except Error Value}
    (hresult : ∀ value, result = .ok value → P value) (hold : ∀ value, old = some value → P value) :
    ∀ value, (renew old result).left = some value → P value := by
  cases result with
  | error failure => exact hold
  | ok made =>
      intro value h
      cases h
      exact hresult made rfl

/-! ## What calls keep -/

/-- The steps of making and reading a value lead from values with a property to values with it. -/
structure KeptByCalls (context : Context) (P : Value → Prop) : Prop where
  making : Value.KeptByMaking context P
  reading : ∀ {buffer fuel} {value after : Value}, P value →
    value.readWithin context buffer fuel = some (.done after) → P after

theorem keptByCalls_shaped (context : Context) : KeptByCalls context Value.Shaped :=
  ⟨Value.keptByMaking_shaped context, fun hvalue hread => Value.shaped_of_readWithin hvalue hread⟩

theorem keptByCalls_sound (context : Context) : KeptByCalls context (Value.Sound context) :=
  ⟨Value.keptByMaking_sound context, fun hvalue hread => (Value.sound_of_readWithin hvalue hread).1⟩

section

variable {P : Value → Prop} (hkept : KeptByCalls context P)
  (hmaterial : ∀ part ∈ call.material, P part)

include hkept hmaterial

theorem kept_of_makes {result : Except Error Value} (h : call.Makes context result) {value : Value}
    (hresult : result = .ok value) : P value := by
  cases h with
  | create =>
      obtain ⟨record, -, hempty⟩ := Value.create_eq_ok_iff.mp hresult
      exact hkept.making.empty hempty
  | wrap => exact (hkept.making.wrap hmaterial hresult).1
  | fetch hread =>
      obtain ⟨part, fuel, ⟨fresh, hfresh, hmove⟩, hread⟩ :=
        Value.readWithin_of_read (hresult ▸ hread)
      obtain ⟨record, -, hempty⟩ := Value.create_eq_ok_iff.mp hfresh
      exact hkept.reading (hkept.making.moveTo (hkept.making.empty hempty) hmove) hread
  | copy =>
      cases hresult
      exact hmaterial value (.head _)

theorem kept_of_changes {value : Value} {change : Update Value} (hvalue : P value)
    (h : call.Changes context value change)
    (hclean : change.outcome = .ok () ∨ call.isAtomic = true) : P change.left := by
  cases h with
  | set => exact Value.left_set hvalue fun next hnext => hkept.making.set hmaterial hnext
  | push => exact Value.left_push hvalue fun next hnext => hkept.making.push hvalue hmaterial hnext
  | setSlot =>
      have hdone := Update.eq_done (hclean.resolve_right (by simp [isAtomic]))
      exact hkept.making.setSlot hvalue hmaterial hdone
  | moveTo =>
      have hdone := Update.eq_done (hclean.resolve_right (by simp [isAtomic]))
      exact hkept.making.moveTo hvalue hdone
  | read hread =>
      have hdone := Update.eq_done (hclean.resolve_right (by simp [isAtomic]))
      exact hkept.reading hvalue (hdone ▸ hread)

theorem kept_of_run (hold : ∀ value, old = some value → P value)
    (hrun : call.run context old = some update)
    (hclean : update.outcome = .ok () ∨ call.isAtomic = true) :
    ∀ value, update.left = some value → P value := by
  rcases makes_or_changes hrun with ⟨result, hmakes, rfl⟩ | ⟨value, change, rfl, hchanges, rfl⟩
  · exact left_renew (fun _ hresult => kept_of_makes hkept hmaterial hmakes hresult) hold
  · rintro _ ⟨⟩
    exact kept_of_changes hkept hmaterial (hold value rfl) hchanges hclean

end

theorem shaped_of_changes {value : Value} {change : Update Value}
    (hmaterial : ∀ part ∈ call.material, part.Shaped) (hvalue : value.Shaped)
    (h : call.Changes context value change) : change.left.Shaped := by
  have hkept := Value.keptByMaking_shaped context
  cases h with
  | set => exact Value.left_set hvalue fun next hnext => hkept.set hmaterial hnext
  | setSlot => exact Value.shaped_setSlot hvalue hmaterial
  | push => exact Value.left_push hvalue fun next hnext => hkept.push hvalue hmaterial hnext
  | moveTo => exact hvalue.moveTo _ _
  | read hread => exact Value.shaped_of_readWithin hvalue hread

theorem shaped_of_run (hmaterial : ∀ part ∈ call.material, part.Shaped)
    (hold : ∀ value, old = some value → value.Shaped) (hrun : call.run context old = some update) :
    ∀ value, update.left = some value → value.Shaped := by
  rcases makes_or_changes hrun with ⟨result, hmakes, rfl⟩ | ⟨value, change, rfl, hchanges, rfl⟩
  · exact left_renew (fun _ hresult =>
      kept_of_makes (keptByCalls_shaped context) hmaterial hmakes hresult) hold
  · rintro _ ⟨⟩
    exact shaped_of_changes hmaterial (hold value rfl) hchanges

theorem correctlyPlaced_of_run (hmaterial : ∀ part ∈ call.material, part.Shaped)
    (hold : ∀ value, old = some value → value.Shaped) (hplaces : call.places = true)
    (hrun : call.run context old = some update) (hdone : update.outcome = .ok ()) :
    ∃ value, update.left = some value ∧ value.CorrectlyPlaced context := by
  rcases makes_or_changes hrun with ⟨result, hmakes, rfl⟩ | ⟨value, change, rfl, hchanges, rfl⟩
  · cases hmakes <;> contradiction
  · have hvalue := hold value rfl
    refine ⟨change.left, rfl, ?_⟩
    have hchange : change = .done change.left := Update.eq_done hdone
    cases hchanges with
    | push | read => contradiction
    | set => exact Value.correctlyPlaced_of_set hmaterial hchange
    | setSlot => exact Value.correctlyPlaced_of_setSlot hvalue hmaterial hchange
    | moveTo => exact Value.correctlyPlaced_of_moveTo hvalue hchange

end Call

/-! ## Runs -/

namespace Session

def AllHeld (P : Value → Prop) (session : Session) : Prop :=
  ∀ name value, session.held name = some value → P value

variable {P : Value → Prop} {session next : Session}

theorem AllHeld.of_contains (h : session.AllHeld P)
    (hinside : ∀ whole child : Value, P whole → child ∈ whole.children → P child) {part : Value}
    (hpart : session.Contains part) : P part := by
  obtain ⟨name, value, hvalue, hpart⟩ := hpart
  exact hpart.inherit hinside (h name value hvalue)

private theorem allHeld_update (h : session.AllHeld P) {name : String} {entry : Option Value}
    (hentry : ∀ value, entry = some value → P value) :
    AllHeld P { session with held := Function.update session.held name entry } := by
  intro other value hvalue
  dsimp only at hvalue
  rcases eq_or_ne other name with rfl | hne
  · rw [Function.update_self] at hvalue
    exact hentry value hvalue
  · rw [Function.update_of_ne hne] at hvalue
    exact h other value hvalue

theorem allHeld_shaped_of_step {action : Action} {outcome : Except Error Unit}
    (h : session.AllHeld Value.Shaped) (hstep : session.Step action outcome next) :
    next.AllHeld Value.Shaped := by
  cases hstep with
  | load => exact h
  | retarget => exact h
  | call name hmaterial hrun =>
      refine allHeld_update h (Call.shaped_of_run (fun part hpart => ?_) (h name) hrun)
      exact h.of_contains (fun _ child hwhole => hwhole.inside child) (hmaterial part hpart)

theorem allHeld_shaped_of_run (h : session.AllHeld Value.Shaped) (hrun : Run session next) :
    next.AllHeld Value.Shaped := by
  induction hrun with
  | refl => exact h
  | tail _ hstep ih =>
      obtain ⟨action, outcome, hstep⟩ := hstep
      exact allHeld_shaped_of_step ih hstep

theorem allHeld_of_cleanStep (hkept : Call.KeptByCalls session.context P) (h : session.AllHeld P)
    (hstep : session.CleanStep next) : next.AllHeld P ∧ next.context = session.context := by
  obtain ⟨name, call, outcome, hstep, hclean⟩ := hstep
  cases hstep with
  | call name hmaterial hrun =>
      have hparts : ∀ part ∈ call.material, P part := fun part hpart =>
        h.of_contains (fun _ _ => hkept.making.inside) (hmaterial part hpart)
      exact ⟨allHeld_update h (Call.kept_of_run hkept hparts (h name) hrun hclean), rfl⟩

theorem allHeld_start (context : Context) (P : Value → Prop) : (start context).AllHeld P := by
  intro name value h
  contradiction

theorem shaped_of_contains {context : Context} (hrun : Run (start context) session) {part : Value}
    (h : session.Contains part) : part.Shaped :=
  (allHeld_shaped_of_run (allHeld_start context _) hrun).of_contains
    (fun _ child hwhole => hwhole.inside child) h

/-- What the calls keep holds of every value of a clean run. -/
theorem kept_of_cleanRun {context : Context} (hkept : Call.KeptByCalls context P)
    (hrun : CleanRun (start context) session) {part : Value} (hpart : session.Contains part) :
    P part := by
  have hheld : session.AllHeld P ∧ session.context = context := by
    clear hpart
    induction hrun with
    | refl => exact ⟨allHeld_start context P, rfl⟩
    | tail _ hstep ih =>
        obtain ⟨hheld, hcontext⟩ := ih
        obtain ⟨hnext, hsame⟩ := allHeld_of_cleanStep (hcontext ▸ hkept) hheld hstep
        exact ⟨hnext, hsame.trans hcontext⟩
  exact hheld.1.of_contains (fun _ _ => hkept.making.inside) hpart

theorem sound_of_cleanRun {context : Context} {session : Session} {name : String} {value : Value}
    (hrun : CleanRun (start context) session) (hheld : session.held name = some value) :
    value.Sound context :=
  kept_of_cleanRun (Call.keptByCalls_sound context) hrun ⟨name, value, hheld, .refl⟩

/-- After a clean run every variable holds a value of the right types in the right places.  After any
run, failures and changes of the schema or the platform included, a successful move, replacement or
assignment to a slot puts everything in the value where the present context wants it. -/
theorem values_placed (context : Context) :
    (∀ session, CleanRun (start context) session →
      ∀ name value, session.held name = some value →
        value.WellTyped context ∧ value.CorrectlyPlaced context) ∧
    ∀ session next name call, Run (start context) session →
      session.Step (.call name call) (.ok ()) next → call.places = true →
      ∃ value, next.held name = some value ∧ value.CorrectlyPlaced next.context := by
  constructor
  · intro session hrun name value hvalue
    have hsound := sound_of_cleanRun hrun hvalue
    exact ⟨hsound.typed, hsound.placed⟩
  · intro session next name call hrun hstep hplaces
    -- failures and new contexts may have put values out of place, not out of shape
    have hshaped := allHeld_shaped_of_run (allHeld_start context _) hrun
    generalize houtcome : (Except.ok () : Except Error Unit) = outcome at hstep
    cases hstep with
    | call _ hmaterial hcall =>
        have hparts : ∀ part ∈ call.material, part.Shaped := fun part hpart =>
          hshaped.of_contains (fun _ child hwhole => hwhole.inside child) (hmaterial part hpart)
        obtain ⟨value, hvalue, hplaced⟩ :=
          Call.correctlyPlaced_of_run hparts (hshaped name) hplaces hcall houtcome.symm
        exact ⟨value, (Function.update_self ..).trans hvalue, hplaced⟩

/-- A value wrapped from raw material is held after a clean run. -/
theorem cleanRun_wrap {context : Context} {record : TypeRecord} {input : Input} {value : Value}
    (hraw : input.embedded = []) (hwrap : Value.wrap context record input = .ok value)
    (name : String) :
    ∃ session, CleanRun (start context) session ∧ session.context = context ∧
      session.held name = some value := by
  have hrun : (Call.wrap record input).run context none = some (.done (some value)) := by
    simp only [Call.run, hwrap, Call.renew]
  have hmaterial : ∀ part ∈ (Call.wrap record input).material, (start context).Contains part := by
    simp [Call.material, hraw]
  have hstep := Step.call name hmaterial hrun
  exact ⟨_, .single ⟨_, _, _, hstep, .inl rfl⟩, rfl, Function.update_self ..⟩

/-! ### A frame made from raw material -/

def frameMaterial : Input :=
  .fields [("tag", .scalar (.uint 257)), ("body", .fields [("small", .scalar (.uint 1))]),
    ("levels", .items [.scalar (.float (.ofSingle 0x01010101)),
      .scalar (.float (.ofSingle 0x01010101))])]

theorem cleanRun_frame :
    ∃ session, CleanRun (start frameContext) session ∧ session.context = frameContext ∧
      session.held "frame" = some (.frameValue 0) := by
  have hwrap : Value.wrap frameContext (Value.frameValue 0).record frameMaterial =
      .ok (.frameValue 0) := rfl
  exact cleanRun_wrap rfl hwrap "frame"

theorem values_placed_frame :
    ∃ session next, CleanRun (start frameContext) session ∧
      session.held "frame" = some (.frameValue 0) ∧
      session.Step (.call "frame" (.moveTo 8)) (.ok ()) next ∧
      ((Value.frameValue 0).WellTyped frameContext ∧
        (Value.frameValue 0).CorrectlyPlaced frameContext) ∧
      ∃ value, next.held "frame" = some value ∧ value.CorrectlyPlaced next.context := by
  obtain ⟨session, hrun, hcontext, hheld⟩ := cleanRun_frame
  have hmove : (Call.moveTo 8).run session.context (session.held "frame") =
      some (.done (some (.frameValue 8))) := by
    rw [hcontext, hheld]
    rfl
  have hstep := Step.call "frame" (by simp [Call.material]) hmove
  exact ⟨session, _, hrun, hheld, hstep,
    (values_placed frameContext).1 session hrun "frame" _ hheld,
    (values_placed frameContext).2 session _ "frame" (.moveTo 8) hrun.run hstep rfl⟩

end Session

end BinarySchema
