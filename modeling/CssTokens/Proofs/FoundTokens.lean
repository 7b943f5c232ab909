import CssTokens.Proofs.Copies
import CssTokens.Proofs.Session

/-!
# CssTokens.Proofs.FoundTokens — what a session finds are the first tokens of the input

Tokens may be asked for in any way and taken back in between.  Those that are found by a search, leaving
out what is only given out again, come in the order of the text and without a gap.

A call that finds a token finds the first of those ahead (`Sound.tokensFrom_exchange`).  So the tokens
found so far, with those ahead behind them, are always all tokens of the input (`Finding.all`); once
an error was answered nothing more is found.  This is kept by every call, and holds of copies as well
(`Finding.of_copies`).
-/

namespace CssTokens

set_option autoImplicit false

theorem Answer.eq_of_token? {outcome : Outcome} {token : Token}
    (h : (Answer.outcome outcome).token? = some token) : outcome = .ok (some token) := by
  rcases outcome with e | _ | found
  · cases h
  · cases h
  · cases h
    rfl

variable {input : Input}

/-- A call that finds a token finds the first of those ahead, and leaves the others ahead. -/
theorem Tokenizer.Sound.tokensFrom_exchange {t : Tokenizer input} (h : t.Sound) {c : Call}
    {token : Token} (hfresh : (t.exchange c).1.fresh? = some token) :
    input.tokensFrom t.position = token :: input.tokensFrom (t.exchange c).2.position := by
  cases hc : c.options? with
  | none =>
      obtain ⟨other, rfl⟩ := Call.eq_takeBack hc
      rw [Tokenizer.exchange, Tokenizer.takeBack] at hfresh
      cases hr : t.returned with
      | none =>
          rw [hr] at hfresh
          cases hfresh
      | some pending =>
          rw [hr] at hfresh
          cases hfresh
  | some options =>
      obtain ⟨hafter, -, hpending, -, htoken, -⟩ := t.exchange_of_options hc
      rw [Exchange.fresh?, hpending] at hfresh
      cases hr : t.returned with
      | some pending =>
          rw [hr] at hfresh
          cases hfresh
      | none =>
          simp only [hr, htoken] at hfresh
          have houtcome := Answer.eq_of_token? hfresh
          cases hf : t.failed with
          | true =>
              rw [nextWith_of_failed hr hf] at houtcome
              cases houtcome
          | false =>
              rw [hafter]
              exact (h.nextWith_answers hr hf options).tokensFrom houtcome

namespace Session

/-- What is found so far are the first tokens of the input, and until there is an error those ahead
are the others. -/
structure Finding (s : Session input) : Prop where
  sound : s.tokenizer.Sound
  first : s.fresh <+: input.tokensFrom 0
  all : s.tokenizer.failed = false →
    s.fresh ++ input.tokensFrom s.tokenizer.position = input.tokensFrom 0

variable {s : Session input}

theorem finding_start (input : Input) (options : Options) : Finding (start input options) :=
  ⟨Tokenizer.sound_ofInput input options, List.nil_prefix, fun _ => rfl⟩

/-- A call that finds nothing and moves nothing keeps what was found and what is ahead. -/
theorem Finding.call_of_same {c : Call} (h : Finding s)
    (hfresh : (s.tokenizer.exchange c).1.fresh? = none)
    (hposition : (s.call c).tokenizer.position = s.tokenizer.position)
    (hsame : (s.call c).tokenizer.failed = s.tokenizer.failed) : Finding (s.call c) := by
  have hfound : (s.call c).fresh = s.fresh := by
    rw [fresh_call, hfresh, Option.toList_none, List.append_nil]
  refine ⟨h.sound.exchange c, ?_, ?_⟩
  · rw [hfound]
    exact h.first
  · rw [hfound, hposition, hsame]
    exact h.all

/-- Every call keeps it so. -/
theorem Finding.call (h : Finding s) (c : Call) : Finding (s.call c) := by
  cases h.sound.exchange_effect c with
  | quiet hfresh haccepted hfailed hevents hposition hsame =>
      exact h.call_of_same hfresh hposition hsame
  | taken token hfresh haccepted hfailed hevents hposition hsame =>
      exact h.call_of_same hfresh hposition hsame
  | found token hfresh haccepted hfailed hevents hlt hposition hbefore hsame =>
      have hall : (s.call c).fresh ++ input.tokensFrom (s.call c).tokenizer.position =
          input.tokensFrom 0 := by
        rw [fresh_call, hfresh, Option.toList_some, List.append_assoc, List.singleton_append,
          ← h.all hbefore, h.sound.tokensFrom_exchange hfresh]
        rfl
      exact ⟨h.sound.exchange c, ⟨_, hall⟩, fun _ => hall⟩
  | error hfresh haccepted hfailed hevents hposition hafter =>
      refine ⟨h.sound.exchange c, ?_, fun hf => ?_⟩
      · rw [fresh_call, hfresh, Option.toList_none, List.append_nil]
        exact h.first
      · cases hafter.symm.trans hf

theorem Finding.of_copies {first : Session input} {pool : List (Session input)}
    (h : Copies Moves first pool) (hfirst : Finding first) : ∀ s ∈ pool, Finding s := by
  apply h.forall_mem hfirst
  rintro s s' hs ⟨c, rfl⟩
  exact hs.call c

end Session

end CssTokens
