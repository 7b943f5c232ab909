import CssTokens.Scanner

/-!
# CssTokens.Scanner.Progress — scanning the text always goes on

From a place in the text, and from its end, the next lexeme is found without reading behind the
padding.  The scanner then stands in the text again, as many bytes further as the lexeme is long,
and that is at least one byte unless the text is over (`next_yields`).  So the number of bytes left
bounds the number of lexemes, which is what every loop over them ends by.
-/

namespace CssTokens

set_option autoImplicit false

/-! ## What the first byte of a run says -/

namespace Byte

/-- What holds of all numbers below 256 holds of all bytes. -/
theorem forall_of_fin {P : UInt8 → Prop} (h : ∀ n : Fin 256, P (UInt8.ofFin n)) (b : UInt8) : P b := by
  simpa using h b.toFin

/-- A byte that begins a word does not end one. -/
theorem not_endsWord_of_isWordStart (b : UInt8) :
    isWordStart b = true → b ≠ slash ∧ b ≠ zero ∧ endsWord b = false := by
  refine forall_of_fin (P := fun b => isWordStart b = true →
    b ≠ slash ∧ b ≠ zero ∧ endsWord b = false) ?_ b
  decide +kernel

end Byte

namespace Opening

variable {b : UInt8}

theorem isBlank_of_ofByte (h : ofByte b = blank) : Byte.isBlank b = true := by
  revert h
  refine Byte.forall_of_fin (P := fun b => ofByte b = blank → Byte.isBlank b = true) ?_ b
  decide +kernel

theorem isWordStart_of_ofByte (h : ofByte b = word) : Byte.isWordStart b = true := by
  revert h
  refine Byte.forall_of_fin (P := fun b => ofByte b = word → Byte.isWordStart b = true) ?_ b
  decide +kernel

end Opening

namespace Cursor

open Reading

variable {src : Source} {c : Cursor src} {b : UInt8}

/-- A run that begins under the cursor is at least one byte long. -/
theorem skipWhile_yields_lt {p : UInt8 → Bool} (hp : p 0 = false) (h : c.current = .ok b)
    (hb : p b = true) : Yields (c.skipWhile p) fun c' => c.pos < c'.pos ∧ c'.pos ≤ src.size := by
  have hne : b ≠ 0 := by
    rintro rfl
    simp [hp] at hb
  have hlt := lt_size_of_current h hne
  have hstep : c.skipWhile p = (c.advance 1).skipWhile p := by
    rw [skipWhile]
    split
    · next e he => simp [h] at he
    · next d hd =>
      rw [h] at hd
      injection hd with hd
      rw [← hd, if_pos hb]
  rw [hstep]
  exact (skipWhile_yields hp hlt).imp fun c' hc' => ⟨hc'.1, hc'.2⟩

/-- A word that begins under the cursor is at least one byte long. -/
theorem skipWord_yields_lt (h : c.current = .ok b) (hb : Byte.isWordStart b = true) :
    Yields c.skipWord fun c' => c.pos < c'.pos ∧ c'.pos ≤ src.size := by
  obtain ⟨hslash, hzero, hends⟩ := Byte.not_endsWord_of_isWordStart b hb
  have hlt := lt_size_of_current h hzero
  have hunit : ∃ d, c.skipUnit = .ok (some d) := by
    cases Decidable.em (b = Byte.backslash) with
    | inl hbs =>
      obtain ⟨d, hd, -⟩ := skipEscape_yields hlt
      exact ⟨d, by simp [skipUnit, h, hd, hbs, bind, Except.bind, pure, Except.pure]⟩
    | inr hbs =>
      exact ⟨c.advance 1,
        by simp [skipUnit, h, hbs, hslash, hzero, hends, bind, Except.bind, pure, Except.pure]⟩
  obtain ⟨d, hd⟩ := hunit
  have hpos := skipUnit_eq_some hd
  have hstep : c.skipWord = d.skipWord := by
    rw [skipWord]
    split
    · next e he => simp [hd] at he
    · next he => simp [hd] at he
    · next d' hd' =>
      rw [hd] at hd'
      injection hd' with hd'
      injection hd' with hd'
      rw [hd']
  rw [hstep]
  exact (skipWord_yields hpos.2).imp fun c' hc' => ⟨Nat.lt_of_lt_of_le hpos.1 hc'.1, hc'.2⟩

end Cursor

/-! ## Steps of a scanner -/

namespace Scanner

open Reading

variable {src : Source} {s : Scanner src}

/-- A step from `s` with this result stays in the text: it covers the bytes between the two scanners,
and none only at the end of the text, where nothing changes any more. -/
structure StepsWithin (s : Scanner src) (r : Lexeme × Scanner src) : Prop where
  pos_eq : r.2.pos = s.pos + r.1.length
  pos_le : r.2.pos ≤ src.size
  finish_iff : r.1.tag = .finish ↔ s.pos = src.size
  length_pos : r.1.tag ≠ .finish → 0 < r.1.length
  eq_of_finish : r.1.tag = .finish → r.2 = s

/-- A lexeme other than the end that reaches up to a later place in the text. -/
theorem stepsWithin_upTo {tag : Tag} {c : Cursor src} (s' : Scanner src) (hs : s'.pos = s.pos)
    (ht : tag ≠ .finish) (hlt : s.pos < c.pos) (hle : c.pos ≤ src.size) :
    StepsWithin s (s'.upTo tag c) where
  pos_eq := by simp only [upTo, pos] at hs hlt ⊢; omega
  pos_le := hle
  finish_iff := ⟨fun h => absurd h ht, fun h => by omega⟩
  length_pos _ := by simp only [upTo, pos] at hs hlt ⊢; omega
  eq_of_finish h := absurd h ht

theorem stepsWithin_parenAlone (openParens : OpenParens) (hlt : s.pos < src.size) :
    StepsWithin s (s.parenAlone openParens) where
  pos_eq := rfl
  pos_le := hlt
  finish_iff := ⟨fun h => absurd h (by simp [parenAlone]), fun h => by omega⟩
  length_pos _ := Nat.succ_pos _
  eq_of_finish h := absurd h (by simp [parenAlone])

theorem nextParen_yields (hlt : s.pos < src.size) : Yields s.nextParen (StepsWithin s) := by
  unfold nextParen
  split
  next known openParens _ =>
  split
  · exact yields_pure (stepsWithin_parenAlone openParens hlt)
  · refine yields_bind (Cursor.scanGroup_yields (c := s.cursor.advance 1) hlt) ?_
    intro r _ hr
    cases r with
    | closed c =>
      exact yields_pure (stepsWithin_upTo _ rfl (by simp) (Nat.lt_of_succ_lt hr.1) hr.2)
    | quoted c opened => exact yields_pure (stepsWithin_parenAlone _ hlt)
    | missing c =>
      have hr : c.pos = src.size := hr
      exact yields_pure (stepsWithin_upTo _ rfl (by simp) (by omega) (by omega))

theorem nextSlash_yields (hlt : s.pos < src.size) : Yields s.nextSlash (StepsWithin s) := by
  unfold nextSlash
  refine yields_bind (Cursor.peek_yields hlt) ?_
  intro b hb _
  split
  · next hstar =>
    have hlt2 : s.pos + 1 < src.size := Source.lt_size_of_byteAt hb (by rw [hstar]; decide)
    have hpos := Cursor.skipPastCommentEnd_pos (c := s.cursor.advance 2) hlt2
    split
    · next c hc =>
      rw [hc] at hpos
      have hge : s.pos + 2 ≤ c.pos := hpos.1
      exact yields_pure (stepsWithin_upTo _ rfl (by simp) (by omega) hpos.2)
    · next c hc =>
      rw [hc] at hpos
      have hge : s.pos + 2 ≤ c.pos := hpos.1
      exact yields_pure (stepsWithin_upTo _ rfl (by simp) (by omega) hpos.2)
  · refine yields_bind (Cursor.advanceChar_yields hlt) ?_
    intro c _ hc
    exact yields_pure (stepsWithin_upTo _ rfl (by simp) hc.1 hc.2)

theorem nextQuote_yields (quote : UInt8) (hlt : s.pos < src.size) :
    Yields (s.nextQuote quote) (StepsWithin s) := by
  unfold nextQuote
  refine yields_bind (Cursor.skipString_yields (c := s.cursor.advance 1) hlt) ?_
  intro r _ hr
  obtain ⟨closed, c⟩ := r
  have hge : s.pos + 1 ≤ c.pos := hr.1
  cases closed with
  | true => exact yields_pure (stepsWithin_upTo _ rfl (by simp) (by omega) hr.2)
  | false => exact yields_pure (stepsWithin_upTo _ rfl (by simp) (by omega) hr.2)

theorem nextZero_yields (h : s.pos ≤ src.size) : Yields s.nextZero (StepsWithin s) := by
  unfold nextZero
  refine yields_bind (Cursor.atEnd_yields h) ?_
  intro e _ he
  split
  · next ht =>
    have heq : s.pos = src.size := he.mp ht
    exact yields_pure ⟨rfl, h, ⟨fun _ => heq, fun _ => rfl⟩, fun hn => absurd rfl hn, fun _ => rfl⟩
  · next hf =>
    have hne : ¬ s.pos = src.size := fun heq => hf (he.mpr heq)
    refine yields_bind (Cursor.advanceChar_yields (c := s.cursor) ?_) ?_
    · simp only [pos] at h hne
      omega
    · intro c _ hc
      exact yields_pure (stepsWithin_upTo _ rfl (by simp) hc.1 hc.2)

/-- From anywhere in the text, and from its end, the next lexeme is found and the scanner stays in
the text. -/
theorem next_yields (h : s.pos ≤ src.size) : Yields s.next (StepsWithin s) := by
  unfold next
  refine yields_bind (Cursor.current_yields h) ?_
  intro b hb _
  have hlt (hz : b ≠ 0) : s.pos < src.size := Cursor.lt_size_of_current hb hz
  have hof {o : Opening} (ho : Opening.ofByte b = o) (hn : o ≠ .zero) : s.pos < src.size :=
    hlt fun hz => hn (by rw [← ho, hz, Opening.ofByte_zero])
  split
  · exact nextZero_yields h
  · next ho =>
    refine yields_bind (Cursor.skipWhile_yields_lt (by decide) hb
      (Opening.isBlank_of_ofByte ho)) ?_
    intro c _ hc
    exact yields_pure (stepsWithin_upTo _ rfl (by simp) hc.1 hc.2)
  · next ho =>
    refine yields_bind (Cursor.skipWord_yields (c := s.cursor.advance 1) (hof ho (by simp))) ?_
    intro c _ hc
    exact yields_pure (stepsWithin_upTo _ rfl (by simp) hc.1 hc.2)
  · next ho => exact nextQuote_yields _ (hof ho (by simp))
  · next ho => exact nextSlash_yields (hof ho (by simp))
  · next ho => exact nextParen_yields (hof ho (by simp))
  · next ho =>
    exact yields_pure (stepsWithin_upTo _ rfl (by simp) (Nat.lt_succ_self _) (hof ho (by simp)))
  · next ho =>
    refine yields_bind (Cursor.skipWord_yields_lt hb (Opening.isWordStart_of_ofByte ho)) ?_
    intro c _ hc
    exact yields_pure (stepsWithin_upTo _ rfl (by simp) hc.1 hc.2)
  · next ho =>
    refine yields_bind (Cursor.advanceChar_yields (hof ho (by simp))) ?_
    intro c _ hc
    exact yields_pure (stepsWithin_upTo _ rfl (by simp) hc.1 hc.2)

/-- The step of a scanner in the text, which cannot fail. -/
def step (s : Scanner src) (h : s.pos ≤ src.size) : { r : Lexeme × Scanner src // s.next = .ok r } :=
  match hs : s.next with
  | .ok r => ⟨r, rfl⟩
  | .error _ => absurd hs (next_yields h).ne_error

theorem step_within (h : s.pos ≤ src.size) : StepsWithin s (s.step h).val :=
  (next_yields h).of_eq_ok (s.step h).property

end Scanner

end CssTokens
