import Mathlib.Data.List.Forall2
import BinarySchema.Value.Basic

/-!
# Outcomes

Taking computations that may fail apart: a sequence of steps succeeds when each of its steps does.
-/

namespace BinarySchema

theorem bind_eq_ok_iff {α β : Type} {first : Except Error α} {next : α → Except Error β} {b : β} :
    first >>= next = .ok b ↔ ∃ a, first = .ok a ∧ next a = .ok b := by
  cases first with
  | error failure => simp [bind, Except.bind]
  | ok a => simp [bind, Except.bind]

theorem bind_eq_error_iff {α β : Type} {first : Except Error α} {next : α → Except Error β}
    {failure : Error} :
    first >>= next = .error failure ↔
      first = .error failure ∨ ∃ a, first = .ok a ∧ next a = .error failure := by
  cases first with
  | error other => simp [bind, Except.bind]
  | ok a => simp [bind, Except.bind]

@[simp] theorem ok_bind {α β : Type} (a : α) (next : α → Except Error β) :
    ((Except.ok a : Except Error α) >>= next) = next a := rfl

@[simp] theorem error_bind {α β : Type} (failure : Error) (next : α → Except Error β) :
    ((Except.error failure : Except Error α) >>= next) = .error failure := rfl

/-- The second step has to agree only on what the first one gives. -/
theorem bind_congr_ok {α β : Type} {first other : Except Error α} {next next' : α → Except Error β}
    (hfirst : first = other) (hnext : ∀ a, first = .ok a → next a = next' a) :
    first >>= next = other >>= next' := by
  subst hfirst
  cases first with
  | error failure => rfl
  | ok a => exact hnext a rfl

/-! ## Lists of steps -/

section

variable {α β : Type} {R : α → β → Prop} {xs : List α} {ys : List β}

theorem exists_getElem?_of_forall₂ (h : List.Forall₂ R xs ys) {index : Nat} {y : β}
    (hy : ys[index]? = some y) : ∃ x, xs[index]? = some x ∧ R x y := by
  induction h generalizing index with
  | nil => simp at hy
  | cons hhead _ ih =>
      cases index with
      | zero =>
          cases hy
          exact ⟨_, rfl, hhead⟩
      | succ index => exact ih hy

theorem rel_of_forall₂ (h : List.Forall₂ R xs ys) {index : Nat} {x : α} {y : β}
    (hx : xs[index]? = some x) (hy : ys[index]? = some y) : R x y := by
  obtain ⟨other, hother, hR⟩ := exists_getElem?_of_forall₂ h hy
  cases hx.symm.trans hother
  exact hR

theorem rel_of_forall₂_range {R : Nat → β → Prop} {count index : Nat} {y : β}
    (h : List.Forall₂ R (List.range count) ys) (hy : ys[index]? = some y) :
    index < count ∧ R index y := by
  obtain ⟨number, hnumber, hR⟩ := exists_getElem?_of_forall₂ h hy
  obtain ⟨hlt, rfl⟩ := List.getElem?_eq_some_iff.mp hnumber
  rw [List.getElem_range] at hR
  exact ⟨by simpa using hlt, hR⟩

theorem exists_of_mem_forall₂ (h : List.Forall₂ R xs ys) {y : β} (hy : y ∈ ys) :
    ∃ x ∈ xs, R x y := by
  obtain ⟨index, hindex⟩ := List.getElem?_of_mem hy
  obtain ⟨x, hx, hR⟩ := exists_getElem?_of_forall₂ h hindex
  exact ⟨x, List.mem_of_getElem? hx, hR⟩

theorem forall₂_of_getElem? (hlength : xs.length = ys.length)
    (h : ∀ (index : Nat) (x : α) (y : β), xs[index]? = some x → ys[index]? = some y → R x y) :
    List.Forall₂ R xs ys := by
  rw [List.forall₂_iff_get]
  refine ⟨hlength, fun index hx hy => ?_⟩
  rw [List.get_eq_getElem, List.get_eq_getElem]
  exact h index _ _ (List.getElem?_eq_getElem hx) (List.getElem?_eq_getElem hy)

theorem exists_forall₂ (h : ∀ x ∈ xs, ∃ y, R x y) : ∃ ys, List.Forall₂ R xs ys := by
  induction xs with
  | nil => exact ⟨[], .nil⟩
  | cons x rest ih =>
      obtain ⟨y, hy⟩ := h x (.head _)
      obtain ⟨others, hothers⟩ := ih fun other hmem => h other (.tail _ hmem)
      exact ⟨y :: others, .cons hy hothers⟩

theorem map_eq_map_of_forall₂ {γ : Type} {f : α → γ} {g : β → γ} (h : List.Forall₂ R xs ys)
    (hR : ∀ x y, R x y → f x = g y) : xs.map f = ys.map g := by
  induction h with
  | nil => rfl
  | cons hhead _ ih => rw [List.map_cons, List.map_cons, hR _ _ hhead, ih]

theorem forall₂_of_both {γ : Type} {S : α → γ → Prop} {T : β → γ → Prop} {zs : List γ}
    (hys : List.Forall₂ R xs ys) (hzs : List.Forall₂ S xs zs)
    (h : ∀ x ∈ xs, ∀ y z, R x y → S x z → T y z) : List.Forall₂ T ys zs := by
  induction hys generalizing zs with
  | nil =>
      cases hzs
      exact .nil
  | cons hy _ ih =>
      cases hzs with
      | cons hz hrest =>
          exact .cons (h _ (.head _) _ _ hy hz) (ih hrest fun x hmem => h x (.tail _ hmem))

theorem forall₂_zipWith {γ δ : Type} {S : γ → δ → Prop} {f : α → γ} {g : α → β → δ}
    (h : List.Forall₂ R xs ys) (hR : ∀ x ∈ xs, ∀ y, R x y → S (f x) (g x y)) :
    List.Forall₂ S (xs.map f) (List.zipWith g xs ys) := by
  induction h with
  | nil => exact .nil
  | cons hhead _ ih =>
      exact .cons (hR _ (.head _) _ hhead) (ih fun x hmem => hR x (.tail _ hmem))

/-- A step for every element of a list succeeds with one result for each. -/
theorem mapM_eq_ok_iff {step : α → Except Error β} :
    xs.mapM step = .ok ys ↔ List.Forall₂ (fun x y => step x = .ok y) xs ys := by
  induction xs generalizing ys with
  | nil => simp [pure, Except.pure, eq_comm]
  | cons x rest ih =>
      simp only [List.mapM_cons, bind_eq_ok_iff, ih, pure, Except.pure, Except.ok.injEq,
        List.forall₂_cons_left_iff]
      constructor
      · rintro ⟨y, hy, others, hothers, rfl⟩
        exact ⟨y, others, hy, hothers, rfl⟩
      · rintro ⟨y, others, hy, hothers, rfl⟩
        exact ⟨y, hy, others, hothers, rfl⟩

theorem mapM_congr {step step' : α → Except Error β} (h : ∀ x ∈ xs, step x = step' x) :
    xs.mapM step = xs.mapM step' := by
  induction xs with
  | nil => rfl
  | cons x rest ih =>
      rw [List.mapM_cons, List.mapM_cons, h x (.head _), ih fun other hmem => h other (.tail _ hmem)]

end

namespace Update

variable {α β : Type}

@[simp] theorem left_done (a : α) : (done a).left = a := rfl

@[simp] theorem outcome_done (a : α) : (done a).outcome = .ok () := rfl

@[simp] theorem left_failed (a : α) (failure : Error) : (failed a failure).left = a := rfl

@[simp] theorem outcome_failed (a : α) (failure : Error) :
    (failed a failure).outcome = .error failure := rfl

@[simp] theorem left_within (embed : α → β) (update : Update α) :
    (update.within embed).left = embed update.left := rfl

@[simp] theorem outcome_within (embed : α → β) (update : Update α) :
    (update.within embed).outcome = update.outcome := rfl

@[simp] theorem result_done (a : α) : (done a).result = .ok a := rfl

@[simp] theorem result_failed (a : α) (failure : Error) :
    (failed a failure).result = .error failure := rfl

theorem result_within (embed : α → β) (update : Update α) :
    (update.within embed).result = update.result.map embed := by
  obtain ⟨left, outcome⟩ := update
  cases outcome <;> rfl

theorem result_followedBy (update : Update α) (rest : List β) (embed : α → β)
    (next : Unit → Update (List β)) :
    (update.followedBy rest embed next).result =
      update.result >>= fun a => (next ()).result.map (embed a :: ·) := by
  obtain ⟨left, outcome⟩ := update
  cases outcome with
  | error failure => rfl
  | ok _ => exact result_within _ _

theorem result_eq_ok_iff {update : Update α} {a : α} :
    update.result = .ok a ↔ update = done a := by
  obtain ⟨left, outcome⟩ := update
  cases outcome with
  | error failure => simp [result, done]
  | ok _ => simp [result, done]

theorem eq_done {update : Update α} (h : update.outcome = .ok ()) : update = done update.left := by
  obtain ⟨left, outcome⟩ := update
  cases h
  rfl

/-- A change that leaves things as they were when it fails keeps what its successes keep. -/
theorem left_of_atomic {P : α → Prop} {update : Update α} {old : α}
    (hatomic : ∀ failure, update.outcome = .error failure → update.left = old) (hold : P old)
    (hdone : ∀ next, update = done next → P next) : P update.left := by
  cases houtcome : update.outcome with
  | error failure => exact hatomic failure houtcome ▸ hold
  | ok _ => exact hdone _ (eq_done houtcome)

theorem result_eq_error_iff {update : Update α} {failure : Error} :
    update.result = .error failure ↔ update.outcome = .error failure := by
  obtain ⟨left, outcome⟩ := update
  cases outcome with
  | error other => simp [result]
  | ok _ => simp [result]

@[simp] theorem failed_ne_done (a b : α) (failure : Error) : failed a failure ≠ done b := by
  simp [failed, done]

theorem within_eq_done_iff {embed : α → β} {update : Update α} {b : β} :
    update.within embed = done b ↔ ∃ a, update = done a ∧ b = embed a := by
  obtain ⟨left, outcome⟩ := update
  simp only [within, done, mk.injEq]
  constructor
  · rintro ⟨hleft, houtcome⟩
    exact ⟨left, ⟨rfl, houtcome⟩, hleft.symm⟩
  · rintro ⟨a, ⟨rfl, houtcome⟩, hembed⟩
    exact ⟨hembed.symm, houtcome⟩

theorem followedBy_eq_done_iff {update : Update α} {rest all : List β} {embed : α → β}
    {next : Unit → Update (List β)} :
    update.followedBy rest embed next = done all ↔
      ∃ a others, update = done a ∧ next () = done others ∧ all = embed a :: others := by
  obtain ⟨left, outcome⟩ := update
  cases outcome with
  | error failure => simp [followedBy, failed, done]
  | ok _ =>
      simp only [followedBy, within_eq_done_iff]
      constructor
      · rintro ⟨others, hnext, rfl⟩
        exact ⟨left, others, rfl, hnext, rfl⟩
      · rintro ⟨a, others, h, hnext, rfl⟩
        cases h
        exact ⟨others, hnext, rfl⟩

end Update

end BinarySchema
