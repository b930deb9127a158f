/-! # Chains of steps that may fail

A chain gives a result exactly when each of its steps does, and an error that one of its steps gives. -/

set_option autoImplicit false

namespace Spreadsheet

variable {ε δ α β : Type}

theorem bind_eq_ok {x : Except ε α} {f : α → Except ε β} {b : β} :
    x >>= f = .ok b ↔ ∃ a, x = .ok a ∧ f a = .ok b := by
  cases x with
  | error e =>
    constructor
    · intro h
      cases h
    · rintro ⟨a, h, -⟩
      cases h
  | ok a =>
    constructor
    · intro h
      exact ⟨a, rfl, h⟩
    · rintro ⟨a', h, hf⟩
      cases h
      exact hf

theorem ok_bind (a : α) (f : α → Except ε β) : (Except.ok a >>= f) = f a := rfl

theorem pure_eq_ok {a b : α} : (pure a : Except ε α) = .ok b ↔ a = b := by
  constructor
  · intro h
    exact Except.ok.inj h
  · rintro rfl
    rfl

theorem map_eq_ok {x : Except ε α} {f : α → β} {b : β} : x.map f = .ok b ↔ ∃ a, x = .ok a ∧ f a = b := by
  cases x with
  | error e =>
    constructor
    · intro h
      cases h
    · rintro ⟨a, h, -⟩
      cases h
  | ok a =>
    constructor
    · intro h
      exact ⟨a, rfl, Except.ok.inj h⟩
    · rintro ⟨a', h, rfl⟩
      cases h
      rfl

theorem mapError_eq_ok {x : Except ε α} {f : ε → δ} {a : α} : x.mapError f = .ok a ↔ x = .ok a := by
  cases x with
  | error e =>
    constructor
    · intro h
      cases h
    · intro h
      cases h
  | ok a' =>
    constructor
    · intro h
      cases h
      rfl
    · rintro h
      cases h
      rfl

theorem throw_bind (e : ε) (f : α → Except ε β) : (throw e >>= f) = .error e := rfl

theorem eq_ok_of_toOption {x : Except ε α} {a : α} (h : x.toOption = some a) : x = .ok a := by
  cases x with
  | error e => cases h
  | ok a' =>
    cases h
    rfl

theorem exists_of_map_toOption {x : Except ε α} {f : α → β} {b : β} (h : x.toOption.map f = some b) :
    ∃ a, x = .ok a ∧ f a = b := by
  obtain ⟨a, ha, hb⟩ := Option.map_eq_some_iff.mp h
  exact ⟨a, eq_ok_of_toOption ha, hb⟩

theorem eq_ok_getD {x : Except ε α} (d : α) (h : x.toOption.isSome = true) : x = .ok (x.toOption.getD d) := by
  cases x with
  | error e => cases h
  | ok a => rfl

theorem ite_error_eq_ok {c : Prop} [Decidable c] {e : ε} {x : Except ε α} {a : α} :
    (if c then .error e else x) = .ok a ↔ ¬c ∧ x = .ok a := by
  by_cases hc : c
  · rw [if_pos hc]
    constructor
    · intro h
      cases h
    · intro h
      exact absurd hc h.1
  · rw [if_neg hc]
    exact ⟨fun h => ⟨hc, h⟩, fun h => h.2⟩

/-! ## Errors of a kind -/

/-- A result that is no error, or one of a kind. -/
def Raises (P : ε → Prop) (r : Except ε α) : Prop := ∀ e, r = .error e → P e

section Raises

variable {P Q : ε → Prop}

theorem Raises.ok (x : α) : Raises P (.ok x) := fun _ h => nomatch h

theorem Raises.error {e : ε} (h : P e) : Raises P (.error e : Except ε α) := by
  rintro _ ⟨⟩
  exact h

theorem Raises.bind {r : Except ε α} {f : α → Except ε β} (hr : Raises P r) (hf : ∀ x, Raises P (f x)) :
    Raises P (r >>= f) := by
  cases r with
  | ok x => exact hf x
  | error e => exact .error (hr e rfl)

theorem Raises.map {r : Except ε α} (hr : Raises P r) (f : α → β) : Raises P (r.map f) := by
  cases r with
  | ok x => exact .ok (f x)
  | error e => exact .error (hr e rfl)

theorem Raises.mono {r : Except ε α} (hr : Raises P r) (h : ∀ e, P e → Q e) : Raises Q r := fun e he => h e (hr e he)

theorem raises_mapError {S : δ → Prop} {f : ε → δ} (h : ∀ e, S (f e)) (r : Except ε α) : Raises S (r.mapError f) := by
  cases r with
  | ok x => exact .ok x
  | error e => exact .error (h e)

end Raises

end Spreadsheet
