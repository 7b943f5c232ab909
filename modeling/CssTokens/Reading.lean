import CssTokens.Source

/-!
# CssTokens.Reading — values that depend on what can be read

Whatever looks at bytes of a source gives a `Reading`: a value, or the report of a read behind the
padding.  `Yields` says of a reading that it succeeds and what holds of its value, and `yields_bind`
carries this over from one reading to the one that goes on from it.
-/

namespace CssTokens

set_option autoImplicit false

/-- A value, or the report of a read behind the padding. -/
abbrev Reading (α : Type) : Type :=
  Except OutOfBounds α

/-- Outcomes can be compared if their values and their reports can. -/
instance decidableEqExcept {ε α : Type} [DecidableEq ε] [DecidableEq α] :
    DecidableEq (Except ε α)
  | .ok a, .ok b => decidable_of_iff (a = b) ⟨congrArg Except.ok, Except.ok.inj⟩
  | .error d, .error e => decidable_of_iff (d = e) ⟨congrArg Except.error, Except.error.inj⟩
  | .ok _, .error _ => .isFalse nofun
  | .error _, .ok _ => .isFalse nofun

namespace Reading

/-- A reading succeeds, and `P` holds of its value. -/
def Yields {α : Type} (r : Reading α) (P : α → Prop) : Prop :=
  ∃ a, r = .ok a ∧ P a

variable {α β : Type} {r : Reading α} {f : α → Reading β} {P : α → Prop} {Q : β → Prop}

theorem yields_pure {a : α} (h : P a) : Yields (pure a) P :=
  ⟨a, rfl, h⟩

theorem yields_ok {a : α} (h : P a) : Yields (.ok a) P :=
  ⟨a, rfl, h⟩

theorem yields_bind (h : Yields r P) (hf : ∀ a, r = .ok a → P a → Yields (f a) Q) :
    Yields (r >>= f) Q := by
  obtain ⟨a, ha, hp⟩ := h
  have hb := hf a ha hp
  subst ha
  exact hb

theorem Yields.imp {P' : α → Prop} (h : Yields r P) (hi : ∀ a, P a → P' a) : Yields r P' := by
  obtain ⟨a, ha, hp⟩ := h
  exact ⟨a, ha, hi a hp⟩

/-- What a reading yields holds of the value that it turned out to have. -/
theorem Yields.of_eq_ok {a : α} (h : Yields r P) (ha : r = .ok a) : P a := by
  obtain ⟨a', ha', hp⟩ := h
  rw [ha] at ha'
  injection ha' with ha'
  exact ha' ▸ hp

/-- What a reading that goes on from another one gives, it gives for the value of that one; and so
whatever else may fail. -/
theorem exists_of_bind {ε : Type} {r : Except ε α} {f : α → Except ε β} {b : β}
    (h : (r >>= f) = .ok b) : ∃ a, r = .ok a ∧ f a = .ok b := by
  cases r with
  | error e => cases h
  | ok a => exact ⟨a, rfl, h⟩

theorem Yields.ne_error {e : OutOfBounds} (h : Yields r P) : r ≠ .error e := by
  obtain ⟨a, rfl, -⟩ := h
  exact nofun

end Reading

end CssTokens
