import CssTokens.Proofs.Copies
import CssTokens.Proofs.TokenizerRules

/-!
# CssTokens.Proofs.ExactPositions — the positions of tokens and errors are exact

Positions come out of a hint that is handed on from token to token, a table that is searched by
halving, and a walk back to the last character of a token.  None of this shows: in every state that
requests, tokens taken back and copies can lead to, a token that is searched for has the positions
that a reader finds by walking over the characters from the start of the text, and so has an
error.

A token taken back may be any token at all, with any positions.  It is given out unchanged and leaves
the hint alone, which is why the statement is about the other tokens only.
-/

namespace CssTokens.Tokenizer

set_option autoImplicit false

variable {input : Input}

/-- The moves of one holder of a tokenizer: a request with any options, or any token taken back. -/
inductive Moves : Tokenizer input → Tokenizer input → Prop where
  | request (t : Tokenizer input) (options : RequestOptions) : Moves t (t.nextWith options).after
  | takeBack {t t' : Tokenizer input} {token : Token} {events : List Event}
      (h : t.takeBack token = .ok (t', events)) : Moves t t'

theorem Sound.of_copies {first : Tokenizer input} {pool : List (Tokenizer input)}
    (h : Copies Moves first pool) (hfirst : first.Sound) : ∀ t ∈ pool, t.Sound := by
  apply h.forall_mem hfirst
  intro t t' ht hmove
  cases hmove with
  | request options => exact ht.nextWith options
  | takeBack htake => exact ht.takeBack htake

/-- The positions of a token are those of its first and of its last character, as a reader finds
them. -/
structure PositionsExact (input : Input) (token : Token) : Prop where
  boundary : Utf8.isBoundary input.text token.span.start = true
  stop_le : token.span.stop ≤ input.size
  first : token.first = walkTo input.text token.span.start
  last : ∃ o, Utf8.BeginsLast input.text token.span.start token.span.stop o ∧
    token.last = walkTo input.text o

theorem positionsExact_tokenOn (kind : Kind) {start stop : Nat}
    (hb : Utf8.isBoundary input.text start = true) (hlt : start < stop) (hle : stop ≤ input.size) :
    PositionsExact input (input.tokenOn kind ⟨start, stop⟩) := by
  have hlast := Utf8.lastCharOffset_beginsLast hb hlt
  refine ⟨hb, hle, ?_, _, hlast, ?_⟩
  · exact (LineRules.walkTo_eq_spot hb).symm
  · exact (LineRules.walkTo_eq_spot hlast.boundary).symm

/-- **Tokens that are searched for, and errors, have exact positions.** -/
theorem positions_exact (input : Input) (options : Options) {pool : List (Tokenizer input)}
    (hpool : Copies Moves (ofInput input options) pool) {t : Tokenizer input} (ht : t ∈ pool)
    (request : RequestOptions) :
    (∀ token, t.returned = none → (t.nextWith request).outcome = .ok (some token) →
      PositionsExact input token) ∧
    ∀ e, (t.nextWith request).outcome = .error e →
      Utf8.isBoundary input.text e.offset = true ∧ e.position = walkTo input.text e.offset := by
  have hsound : t.Sound := Sound.of_copies hpool (sound_ofInput input options) t ht
  cases hr : t.returned with
  | some other =>
      rw [nextWith_of_returned hr]
      exact ⟨fun token hnone => absurd hnone nofun, fun e he => absurd he nofun⟩
  | none =>
      cases hf : t.failed with
      | true =>
          rw [nextWith_of_failed hr hf]
          exact ⟨fun token _ htoken => absurd htoken nofun, fun e he => absurd he nofun⟩
      | false =>
          rw [(hsound.nextWith_answers hr hf request).outcome]
          constructor
          · intro token _ htoken
            obtain ⟨kind, hkind, rfl⟩ := Input.answer_eq_token htoken
            have hpos := hsound.length_pos (Tag.ne_finish_of_kind? hkind)
            have hle := t.step_pos_le
            rw [show (t.scanner.step t.pos_le).val.2.pos = _ from hsound.moved_position] at hle
            apply positionsExact_tokenOn kind hsound.scanner.boundary
            · exact Nat.lt_add_of_pos_right hpos
            · exact hle
          · intro e he
            obtain ⟨-, hoffset, hposition⟩ := Input.answer_eq_error he
            rw [hoffset, hposition]
            exact ⟨hsound.scanner.boundary,
              (LineRules.walkTo_eq_spot hsound.scanner.boundary).symm⟩

/-- A string over two lines that is never closed. -/
def openString : Input :=
  ⟨⟨"a 'é\r\nb", by decide⟩, "open.css", LineIndex.build "a 'é\r\nb", rfl⟩

/-- A token of some other input. -/
def foreignToken : Token :=
  ⟨.comment, ⟨70, 90⟩, ⟨7, 8⟩, ⟨9, 10⟩⟩

/-- Behind a foreign token that was taken back and the two tokens before it, the string ends in the
second line; as an error it begins in the first. -/
theorem positions_exact_of_openString :
    let first := ofInput openString .strict
    let taken := { first with returned := some foreignToken }
    let second := (taken.nextWith .usual).after
    let third := (second.nextWith .usual).after
    let t := (third.nextWith .usual).after
    Copies Moves first [t] ∧
      (t.nextWith ⟨true⟩).outcome = .ok (some ⟨.string, ⟨2, 8⟩, ⟨1, 3⟩, ⟨2, 1⟩⟩) ∧
      PositionsExact openString ⟨.string, ⟨2, 8⟩, ⟨1, 3⟩, ⟨2, 1⟩⟩ ∧
      (t.nextWith ⟨false⟩).outcome = .error ⟨.string, 2, ⟨1, 3⟩, "open.css"⟩ ∧
      walkTo openString.text 2 = ⟨1, 3⟩ := by
  intro first taken second third t
  have hfirst : Copies Moves first ([] ++ first :: []) := .start
  have htake : first.takeBack foreignToken = .ok (taken, [.takenBack foreignToken]) := rfl
  have htaken : Copies Moves first ([] ++ taken :: []) := hfirst.move (.takeBack htake)
  have hsecond : Copies Moves first ([] ++ second :: []) := htaken.move (.request taken .usual)
  have hthird : Copies Moves first ([] ++ third :: []) := hsecond.move (.request second .usual)
  have hpool : Copies Moves first [t] := hthird.move (.request third .usual)
  have hmem : t ∈ [t] := List.mem_singleton.mpr rfl
  have hnone : t.returned = none := by decide +kernel
  have htoken : (t.nextWith ⟨true⟩).outcome =
      .ok (some ⟨.string, ⟨2, 8⟩, ⟨1, 3⟩, ⟨2, 1⟩⟩) := by decide +kernel
  have herror : (t.nextWith ⟨false⟩).outcome = .error ⟨.string, 2, ⟨1, 3⟩, "open.css"⟩ := by
    decide +kernel
  have hexact := (positions_exact openString .strict hpool hmem ⟨true⟩).1 _ hnone htoken
  have hposition := (positions_exact openString .strict hpool hmem ⟨false⟩).2 _ herror
  exact ⟨hpool, htoken, hexact, herror, hposition.2.symm⟩

end CssTokens.Tokenizer
