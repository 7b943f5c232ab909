import CssTokens.Proofs.Copies
import CssTokens.Proofs.Session

/-!
# CssTokens.Proofs.EndAndPosition — whether a tokenizer is done, and where it stands

`isDone` looks at three things: the pending token, whether an error occurred, and whether the text is
over.  A request looks for a token.  They agree in every state (`Sound.isDone_iff`), because a search
that does not begin at the end of the text always finds a token or an error there.

Where a tokenizer stands can be told from its past alone (`Session.reached`): behind the last token that
was found, at the start if there is none yet, and at the end of the text once an error was answered.
`Tracks` says so, and it is an invariant of all sessions, copied ones included (`Tracks.of_copies`).
-/

namespace CssTokens

set_option autoImplicit false

variable {input : Input}

/-! ## Whether a tokenizer is done -/

namespace Tokenizer

variable {t : Tokenizer input}

theorem isDone_eq_true_iff :
    t.isDone = true ↔ t.returned = none ∧ (t.failed = true ∨ t.position = input.size) := by
  rw [isDone, Bool.and_eq_true, Bool.or_eq_true, Option.isNone_iff_eq_none, beq_iff_eq]

theorem isDone_of_returned {pending : Token} (h : t.returned = some pending) :
    t.isDone = false := by
  rw [isDone, h]
  rfl

/-- The scanner sees the end of the text where the text is over. -/
theorem isDone_eq (t : Tokenizer input) :
    ∃ ended, t.scanner.atEnd = .ok ended ∧ t.isDone = (t.returned.isNone && (t.failed || ended)) := by
  obtain ⟨ended, hended, hiff⟩ := Cursor.atEnd_yields t.pos_le
  refine ⟨ended, hended, ?_⟩
  rw [isDone, show ended = (t.position == input.size) from Bool.eq_iff_iff.mpr ?_]
  rw [hiff, beq_iff_eq]
  rfl

theorem Sound.isDone_iff (h : t.Sound) (request : RequestOptions) :
    t.isDone = true ↔ (t.nextWith request).outcome = .ok none := by
  cases hr : t.returned with
  | some pending =>
      rw [isDone_of_returned hr, nextWith_of_returned hr]
      exact ⟨nofun, nofun⟩
  | none =>
      cases hf : t.failed with
      | true =>
          rw [nextWith_of_failed hr hf]
          exact ⟨fun _ => rfl, fun _ => isDone_eq_true_iff.mpr ⟨hr, Or.inl hf⟩⟩
      | false =>
          rw [nextWith_of_search hr hf]
          constructor
          · intro hdone
            obtain ⟨-, hfailed | hend⟩ := isDone_eq_true_iff.mp hdone
            · rw [hf] at hfailed
              cases hfailed
            · rw [h.search_eq, h.tag_eq_finish_iff.mpr hend]
          · intro ho
            exact isDone_eq_true_iff.mpr ⟨hr, Or.inr (h.search_over ho).2.1⟩

/-- A request put to a tokenizer that is done leaves it so. -/
theorem Sound.isDone_nextWith (h : t.Sound) (hdone : t.isDone = true) (request : RequestOptions) :
    (t.nextWith request).after.isDone = true := by
  have ho := (h.isDone_iff request).mp hdone
  obtain ⟨hr, hended⟩ := isDone_eq_true_iff.mp hdone
  cases hf : t.failed with
  | true =>
      rw [nextWith_of_failed hr hf]
      exact hdone
  | false =>
      rw [nextWith_of_search hr hf] at ho ⊢
      obtain ⟨-, hend, hstays⟩ := h.search_over ho
      exact isDone_eq_true_iff.mpr
        ⟨(h.search_answers _).returned.trans hr, Or.inr (hstays.trans hend)⟩

/-- No call moves a tokenizer back. -/
theorem Effect.position_le {x : Exchange} {t' : Tokenizer input} (h : Effect t x t') :
    t.position ≤ t'.position := by
  cases h with
  | quiet hfresh haccepted hfailed hevents hposition hsame => exact Nat.le_of_eq hposition.symm
  | taken token hfresh haccepted hfailed hevents hposition hsame =>
      exact Nat.le_of_eq hposition.symm
  | found token hfresh haccepted hfailed hevents hlt hposition hbefore hsame => exact Nat.le_of_lt hlt
  | error hfresh haccepted hfailed hevents hposition hafter =>
      rw [hposition]
      exact t.pos_le

/-- Once a token was taken back, accepted or not, one is pending; and the tokenizer was not moved. -/
theorem exchange_takeBack (t : Tokenizer input) (token : Token) :
    (t.exchange (.takeBack token)).2.returned ≠ none ∧
      (t.exchange (.takeBack token)).2.position = t.position := by
  rw [exchange, takeBack]
  cases hr : t.returned with
  | none => exact ⟨Option.some_ne_none token, rfl⟩
  | some pending =>
      refine ⟨?_, rfl⟩
      show t.returned ≠ none
      rw [hr]
      exact Option.some_ne_none pending

/-- While a token is pending no call moves the tokenizer. -/
theorem exchange_of_returned {pending : Token} (hr : t.returned = some pending) (c : Call) :
    (t.exchange c).2.position = t.position := by
  cases hc : c.options? with
  | none =>
      obtain ⟨token, rfl⟩ := Call.eq_takeBack hc
      exact (t.exchange_takeBack token).2
  | some options =>
      rw [(t.exchange_of_options hc).1, nextWith_of_returned hr]
      rfl

end Tokenizer

/-! ## Where a tokenizer stands -/

namespace Session

/-- Where a tokenizer must stand that has this past. -/
def reached (s : Session input) : Nat :=
  if s.failed then input.size
  else
    match s.fresh.getLast? with
    | some token => token.span.stop
    | none => 0

/-- What the state of a tokenizer tells about its past. -/
structure Tracks (s : Session input) : Prop where
  sound : s.tokenizer.Sound
  failed : s.tokenizer.failed = s.failed
  position : s.tokenizer.position = s.reached

variable {s : Session input} {c : Call}

theorem reached_of_failed (h : s.failed = true) : s.reached = input.size := by
  rw [reached, if_pos h]

theorem reached_of_found {tokens : List Token} {token : Token} (hfailed : s.failed = false)
    (hfresh : s.fresh = tokens ++ [token]) : s.reached = token.span.stop := by
  simp [reached, hfailed, hfresh]

theorem tracks_start (input : Input) (options : Options) : Tracks (start input options) :=
  ⟨Tokenizer.sound_ofInput input options, rfl, rfl⟩

/-- A call that finds nothing, is answered without an error and moves nothing keeps the invariant. -/
theorem Tracks.call_of_same (h : Tracks s) (hfresh : (s.tokenizer.exchange c).1.fresh? = none)
    (hfailed : (s.tokenizer.exchange c).1.failed = false)
    (hposition : (s.call c).tokenizer.position = s.tokenizer.position)
    (hsame : (s.call c).tokenizer.failed = s.tokenizer.failed) : Tracks (s.call c) := by
  refine ⟨h.sound.exchange c, ?_, ?_⟩
  · rw [hsame, h.failed, failed_call, hfailed, Bool.or_false]
  · rw [hposition, h.position]
    simp [reached, fresh_call, failed_call, hfresh, hfailed]

/-- Every call keeps the invariant. -/
theorem Tracks.call (h : Tracks s) (c : Call) : Tracks (s.call c) := by
  cases h.sound.exchange_effect c with
  | quiet hfresh haccepted hfailed hevents hposition hsame =>
      exact h.call_of_same hfresh hfailed hposition hsame
  | taken token hfresh haccepted hfailed hevents hposition hsame =>
      exact h.call_of_same hfresh hfailed hposition hsame
  | found token hfresh haccepted hfailed hevents hlt hposition hbefore hsame =>
      have hnone : (s.call c).failed = false := by
        rw [failed_call, ← h.failed, hbefore, hfailed, Bool.or_false]
      have hlast : (s.call c).fresh = s.fresh ++ [token] := by
        rw [fresh_call, hfresh, Option.toList_some]
      exact ⟨h.sound.exchange c, hsame.trans hnone.symm,
        hposition.trans (reached_of_found hnone hlast).symm⟩
  | error hfresh haccepted hfailed hevents hposition hafter =>
      have hsome : (s.call c).failed = true := by rw [failed_call, hfailed, Bool.or_true]
      exact ⟨h.sound.exchange c, hafter.trans hsome.symm,
        hposition.trans (reached_of_failed hsome).symm⟩

/-- The invariant holds of everything that calls and copies can lead to. -/
theorem Tracks.of_copies {first : Session input} {pool : List (Session input)}
    (h : Copies Moves first pool) (hfirst : Tracks first) : ∀ s ∈ pool, Tracks s := by
  apply h.forall_mem hfirst
  rintro s s' hs ⟨c, rfl⟩
  exact hs.call c

/-! ## In every state -/

theorem isDone_calls (h : s.tokenizer.Sound) (hdone : s.tokenizer.isDone = true)
    (calls : List Call) (hasks : ∀ c ∈ calls, c.options? ≠ none) :
    (s.calls calls).tokenizer.isDone = true := by
  induction calls generalizing s with
  | nil => exact hdone
  | cons c calls ih =>
      obtain ⟨options, hoptions⟩ := Option.ne_none_iff_exists'.mp (hasks c List.mem_cons_self)
      have hafter := (s.tokenizer.exchange_of_options hoptions).1
      apply ih (h.exchange c)
      · show (s.tokenizer.exchange c).2.isDone = true
        rw [hafter]
        exact h.isDone_nextWith hdone options
      · intro c' hc'
        exact hasks c' (List.mem_cons_of_mem c hc')

theorem position_le_calls (h : s.tokenizer.Sound) (calls : List Call) :
    s.tokenizer.position ≤ (s.calls calls).tokenizer.position := by
  induction calls generalizing s with
  | nil => exact Nat.le_refl _
  | cons c calls ih =>
      have hrest : (s.call c).tokenizer.position ≤ ((s.call c).calls calls).tokenizer.position :=
        ih (h.exchange c)
      exact Nat.le_trans (h.exchange_effect c).position_le hrest

/-- What it means that a tokenizer is done, and where it stands: of a tokenizer and all that came of
it so far. -/
structure EndAndPosition (s : Session input) : Prop where
  /-- It is done if the next request, whatever its options are, gives nothing. -/
  isDone_iff : ∀ request : RequestOptions,
    s.tokenizer.isDone = true ↔ (s.tokenizer.nextWith request).outcome = .ok none
  /-- That can be told from the sentinel under the cursor. -/
  atEnd : ∃ ended, s.tokenizer.scanner.atEnd = .ok ended ∧
    s.tokenizer.isDone = (s.tokenizer.returned.isNone && (s.tokenizer.failed || ended))
  /-- Then it stays done, however often it is asked for a token. -/
  isDone_calls : s.tokenizer.isDone = true → ∀ calls : List Call,
    (∀ c ∈ calls, c.options? ≠ none) → (s.calls calls).tokenizer.isDone = true
  /-- It is not done once a token was taken back. -/
  isDone_takeBack : ∀ token, (s.call (.takeBack token)).tokenizer.isDone = false
  /-- It stands behind the last token that was found, at the start if there is none, and at the end
  of the text once an error was answered. -/
  position_eq : s.tokenizer.position = s.reached
  position_le : s.tokenizer.position ≤ input.size
  /-- It never goes back. -/
  position_le_calls : ∀ calls, s.tokenizer.position ≤ (s.calls calls).tokenizer.position
  /-- Tokens taken back, accepted or not, do not move it. -/
  position_takeBack : ∀ token,
    (s.call (.takeBack token)).tokenizer.position = s.tokenizer.position
  /-- Nor does a call that gives a pending token out again. -/
  position_replay : s.tokenizer.returned ≠ none → ∀ c,
    (s.call c).tokenizer.position = s.tokenizer.position

theorem Tracks.endAndPosition {s : Session input} (h : Tracks s) : EndAndPosition s where
  isDone_iff request := h.sound.isDone_iff request
  atEnd := s.tokenizer.isDone_eq
  isDone_calls hdone calls hasks := isDone_calls h.sound hdone calls hasks
  isDone_takeBack token := by
    obtain ⟨hpending, -⟩ := s.tokenizer.exchange_takeBack token
    obtain ⟨pending, hpending⟩ := Option.ne_none_iff_exists'.mp hpending
    exact Tokenizer.isDone_of_returned hpending
  position_eq := h.position
  position_le := s.tokenizer.pos_le
  position_le_calls calls := position_le_calls h.sound calls
  position_takeBack token := (s.tokenizer.exchange_takeBack token).2
  position_replay hreturned c := by
    obtain ⟨pending, hpending⟩ := Option.ne_none_iff_exists'.mp hreturned
    exact Tokenizer.exchange_of_returned hpending c

/-- **Whether a tokenizer is done, and where it stands, is exact in every state** that calls and
copies can lead to. -/
theorem end_and_position_exact (input : Input) (options : Options) {pool : List (Session input)}
    (hpool : Copies Moves (start input options) pool) {s : Session input} (hs : s ∈ pool) :
    EndAndPosition s :=
  (Tracks.of_copies hpool (tracks_start input options) s hs).endAndPosition

/-- A word, and a string that is never closed. -/
def wordAndString : Input :=
  ⟨⟨"a'é", by decide⟩, "open.css", LineIndex.build "a'é", rfl⟩

/-- Behind the error a tokenizer is copied, and one of the two takes a token back, which is none of
this input: both stand at the end of the text, and only the other one is done. -/
theorem end_and_position_exact_of_wordAndString :
    let first := start wordAndString .strict
    let failed := (first.call .iterate).call (.ask .next)
    let reopened := failed.call (.takeBack ⟨.comment, ⟨70, 90⟩, ⟨7, 8⟩, ⟨9, 10⟩⟩)
    Copies Moves first [reopened, failed] ∧
      (EndAndPosition failed ∧ failed.tokenizer.position = 4 ∧ failed.tokenizer.isDone = true) ∧
      EndAndPosition reopened ∧ reopened.tokenizer.position = 4 ∧
      reopened.tokenizer.isDone = false := by
  intro first failed reopened
  have hfirst : Copies Moves first ([] ++ first :: []) := .start
  have hword : Copies Moves first ([] ++ first.call .iterate :: []) := hfirst.move ⟨_, rfl⟩
  have hfailed : Copies Moves first [failed] := hword.move ⟨_, rfl⟩
  have hcopied : Copies Moves first ([] ++ failed :: [failed]) :=
    hfailed.copy (List.mem_singleton.mpr rfl)
  have hpool : Copies Moves first [reopened, failed] := hcopied.move ⟨_, rfl⟩
  have hmem : failed ∈ [reopened, failed] := List.mem_cons_of_mem _ List.mem_cons_self
  refine ⟨hpool, ⟨end_and_position_exact wordAndString .strict hpool hmem, ?_, ?_⟩,
    end_and_position_exact wordAndString .strict hpool List.mem_cons_self, ?_, ?_⟩
  · decide +kernel
  · decide +kernel
  · decide +kernel
  · decide +kernel

end Session

end CssTokens
