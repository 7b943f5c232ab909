import CssTokens.Tokenizer

/-!
# CssTokens.Tokenizer.Collect — all tokens at once

A request that gives out a token leaves less to do (`nextWith_remaining_lt`), so asking until there
is nothing more, or an error, comes to an end.  `collect` does this for a tokenizer in any state, and
`tokenize` for an input from its start.
-/

namespace CssTokens

set_option autoImplicit false

namespace Tokenizer

variable {input : Input}

/-- Bounds the number of tokens still to be given out: the bytes left, and a token taken back. -/
def remaining (t : Tokenizer input) : Nat :=
  (input.source.size - t.position) + t.returned.toList.length

variable {t : Tokenizer input}

/-- A search that gives out a token leaves less to do. -/
theorem search_remaining_lt {recover : Bool} {token : Token}
    (h : (t.search recover).outcome = .ok (some token)) (hr : t.returned = none) :
    (t.search recover).after.remaining < t.remaining := by
  have hw := Scanner.step_within t.pos_le
  have hlt : (t.scanner.step t.pos_le).val.1.tag ≠ .finish →
      input.source.size - (t.scanner.step t.pos_le).val.2.pos < input.source.size - t.scanner.pos := by
    intro hne
    have hpos := hw.pos_eq
    have hlen := hw.length_pos hne
    have hle := hw.pos_le
    omega
  unfold search at h ⊢
  simp only at h ⊢
  split at h
  · exact absurd h (by simp)
  · next kind hk =>
    simp only [remaining, position, hr]
    exact Nat.add_lt_add_right (hlt (by simp [hk])) _
  · next construct hc =>
    split at h
    · next hrec =>
      simp only [hrec, if_true, remaining, position, hr]
      exact Nat.add_lt_add_right (hlt (by simp [hc])) _
    · exact absurd h (by simp [fail])

/-- A request that gives out a token leaves less to do. -/
theorem nextWith_remaining_lt {options : RequestOptions} {token : Token}
    (h : (t.nextWith options).outcome = .ok (some token)) :
    (t.nextWith options).after.remaining < t.remaining := by
  unfold nextWith at h ⊢
  split at h
  · next token' hr => simp [hr, remaining, position]
  · next hr =>
    split at h
    · exact absurd h (by simp)
    · next hf =>
      simp only [hf]
      exact search_remaining_lt h hr

/-- What is left of an input: its tokens, the error that put an end to them if there was one, what
was reported, and the tokenizer behind them. -/
structure Rest (input : Input) where
  tokens : Array Token
  error : Option UnclosedError
  events : Array Event
  after : Tokenizer input

/-- Appends all tokens that are left, up to the end or an error, and all that is reported. -/
def collectInto (t : Tokenizer input) (tokens : Array Token) (events : Array Event) : Rest input :=
  match _h : t.next with
  | ⟨.error e, reported, after⟩ => ⟨tokens, some e, events ++ reported, after⟩
  | ⟨.ok none, reported, after⟩ => ⟨tokens, none, events ++ reported, after⟩
  | ⟨.ok (some token), reported, after⟩ =>
    after.collectInto (tokens.push token) (events ++ reported)
termination_by t.remaining
decreasing_by
  have hlt := @nextWith_remaining_lt input t .usual token
  rw [show t.nextWith .usual = t.next from rfl, _h] at hlt
  exact hlt rfl

/-- All tokens that are left, up to the end or an error. -/
def collect (t : Tokenizer input) : Rest input :=
  t.collectInto #[] #[]

end Tokenizer

/-- All tokens of an input, or the first error. -/
def tokenize (input : Input) (options : Options) : Except UnclosedError (List Token) :=
  let rest := (Tokenizer.ofInput input options).collect
  match rest.error with
  | none => .ok rest.tokens.toList
  | some e => .error e

end CssTokens
