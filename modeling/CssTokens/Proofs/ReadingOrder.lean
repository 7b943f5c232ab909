import CssTokens.Proofs.FoundTokens

/-!
# CssTokens.Proofs.ReadingOrder — what stands later in a text has a later position

Positions are compared as they are read, by line and then by column.  A walk over the bytes of a text
never goes back (`LineRules.spot_mono`): a byte begins a new line, or a column, or nothing.  And it
goes on at every byte with which a character begins (`LineRules.spot_lt_succ`), the bytes of line breaks
included, so two characters never have one position (`LineRules.spot_lt`).

Therefore tokens one behind the other are in reading order.  None ends before it begins, and each ends
before the next one begins, since its last character stands before the first of the next
(`Input.inReadingOrder_tokensFrom`).  So are the tokens that any session finds.
-/

namespace CssTokens

set_option autoImplicit false

/-! ## Earlier and later places -/

namespace LineRules

variable {text : String} {a b o : Nat}

theorem spot_le_succ (text : String) (o : Nat) : spot text o ≤ spot text (o + 1) := by
  rw [spot_succ]
  split
  · exact Position.le_iff.mpr (Or.inl (Nat.lt_succ_self _))
  · split
    · exact Position.le_iff.mpr (Or.inr ⟨rfl, Nat.le_succ _⟩)
    · exact Position.le_refl _

/-- A byte that begins a character is a step of the walk. -/
theorem spot_lt_succ (h : Utf8.isLead text o = true) : spot text o < spot text (o + 1) := by
  rw [spot_succ, if_pos h]
  split
  · exact Position.lt_iff.mpr (Or.inl (Nat.lt_succ_self _))
  · exact Position.lt_iff.mpr (Or.inr ⟨rfl, Nat.lt_succ_self _⟩)

theorem spot_mono (h : a ≤ b) : spot text a ≤ spot text b := by
  induction h with
  | refl => exact Position.le_refl _
  | step _ ih => exact Position.le_trans ih (spot_le_succ text _)

/-- Whatever stands behind the first byte of a character has a later position than it. -/
theorem spot_lt (ha : Utf8.isBoundary text a = true) (h : a < b) (hb : b ≤ text.utf8ByteSize) :
    spot text a < spot text b := by
  have hlead := (Utf8.isBoundary_iff_isLead (Nat.lt_of_lt_of_le h hb)).mp ha
  exact Position.lt_of_lt_of_le (spot_lt_succ hlead) (spot_mono h)

end LineRules

/-! ## Tokens in reading order -/

/-- No token ends before it begins, and each ends before those behind it begin. -/
structure InReadingOrder (tokens : List Token) : Prop where
  within : ∀ token ∈ tokens, token.first ≤ token.last
  between : tokens.Pairwise fun token later => token.last < later.first

theorem InReadingOrder.of_isPrefix {tokens more : List Token} (h : InReadingOrder more)
    (hfirst : tokens <+: more) : InReadingOrder tokens where
  within token ht := h.within token (hfirst.subset ht)
  between := h.between.sublist hfirst.sublist

namespace Input

variable {input : Input} {start : Nat}

theorem position_eq_spot (input : Input) (offset : Nat) :
    input.position offset = LineRules.spot input.text (min offset input.size) := by
  rw [position, input.lines_eq]
  exact LineIndex.position_build input.text offset

/-- Tokens from an offset on begin there or behind it, and have the spot of where they begin. -/
theorem first_of_mem_tokensFrom {token : Token} (h : token ∈ input.tokensFrom start) :
    token.first = LineRules.spot input.text token.span.start ∧ start ≤ token.span.start ∧
      token.span.start < input.size := by
  fun_induction tokensFrom input start with
  | case1 start hnone => cases h
  | case2 start kind hkind ih =>
      rcases List.mem_cons.mp h with rfl | hrest
      · exact ⟨rfl, Nat.le_refl start, input.lt_size_of_kind? hkind⟩
      · obtain ⟨hfirst, hle, hlt⟩ := ih hrest
        exact ⟨hfirst, Nat.le_trans (Nat.le_add_right _ _) hle, hlt⟩

/-- **The tokens of an input are in reading order.** -/
theorem inReadingOrder_tokensFrom (hb : Utf8.isBoundary input.text start = true) :
    InReadingOrder (input.tokensFrom start) := by
  fun_induction tokensFrom input start with
  | case1 start hnone => exact ⟨List.forall_mem_nil _, .nil⟩
  | case2 start kind hkind ih =>
      have hlt := input.lt_size_of_kind? hkind
      have hbehind := input.isBoundary_lexemeAt hlt hb
      have hpos := (input.lexemeAt_takes hlt).pos
      obtain ⟨hwithin, hbetween⟩ := ih hbehind
      -- The last character begins in the token, before anything behind it.
      have hlast : Utf8.BeginsLast input.text start (start + (input.lexemeAt start).length)
          (input.lastCharOffset ⟨start, start + (input.lexemeAt start).length⟩) :=
        Utf8.lastCharOffset_beginsLast hb (Nat.lt_add_of_pos_right hpos)
      refine ⟨?_, List.pairwise_cons.mpr ⟨?_, hbetween⟩⟩
      · intro token ht
        rcases List.mem_cons.mp ht with rfl | hrest
        · exact LineRules.spot_mono hlast.le
        · exact hwithin token hrest
      · intro later hlater
        obtain ⟨hfirst, hle, hlt'⟩ := first_of_mem_tokensFrom hlater
        rw [hfirst]
        exact LineRules.spot_lt hlast.boundary (Nat.lt_of_lt_of_le hlast.lt hle)
          (Nat.le_of_lt hlt')

end Input

/-! ## In every input -/

/-- **Positions order offsets, and tokens come in the order of their positions.** -/
theorem positions_in_reading_order (input : Input) :
    (∀ a b, Utf8.isBoundary input.text a = true → a < b → b ≤ input.size →
      input.position a < input.position b) ∧
    (∀ a b, a ≤ b → input.position a ≤ input.position b) ∧
    ∀ options,
      (∀ tokens, tokenize input options = .ok tokens → InReadingOrder tokens) ∧
      ∀ pool, Copies Session.Moves (Session.start input options) pool →
        ∀ s ∈ pool, InReadingOrder s.fresh := by
  have hall : InReadingOrder (input.tokensFrom 0) :=
    Input.inReadingOrder_tokensFrom (Utf8.isBoundary_zero input.text)
  refine ⟨?_, ?_, fun options => ⟨?_, ?_⟩⟩
  · intro a b ha hlt hb
    have hlt' : a < input.size := Nat.lt_of_lt_of_le hlt hb
    rw [input.position_eq_spot, input.position_eq_spot, Nat.min_eq_left hb,
      Nat.min_eq_left (Nat.le_of_lt hlt')]
    exact LineRules.spot_lt ha hlt hb
  · intro a b hle
    rw [input.position_eq_spot, input.position_eq_spot]
    apply LineRules.spot_mono
    omega
  · intro tokens htokens
    rw [tokenize_eq_ok htokens]
    exact hall
  · intro pool hpool s hs
    have hfinding := Session.Finding.of_copies hpool (Session.finding_start input options) s hs
    exact hall.of_isPrefix hfinding.first

/-- An escape that takes the first half of a line break, and a string that is never closed. -/
def splitLineBreak : Input :=
  ⟨⟨"\\\r\né'b", by decide⟩, "open.css", LineIndex.build "\\\r\né'b", rfl⟩

/-- The two halves of the line break have two positions, and the end of the word has one before both
of them; so the three tokens that come before the error are in reading order, although a token of some
other input was taken back meanwhile. -/
theorem positions_in_reading_order_of_splitLineBreak :
    let first := Session.start splitLineBreak .strict
    let taken := (first.call .iterate).call (.takeBack ⟨.comment, ⟨70, 90⟩, ⟨7, 8⟩, ⟨9, 10⟩⟩)
    let failed := (((taken.call .iterate).call (.ask .next)).call .iterate).call .iterate
    let tokens : List Token :=
      [⟨.word, ⟨0, 2⟩, ⟨1, 1⟩, ⟨1, 2⟩⟩, ⟨.space, ⟨2, 3⟩, ⟨1, 3⟩, ⟨1, 3⟩⟩,
        ⟨.word, ⟨3, 5⟩, ⟨2, 1⟩, ⟨2, 1⟩⟩]
    (Utf8.isBoundary splitLineBreak.text 1 = true ∧ 1 < 2 ∧ 2 ≤ splitLineBreak.size ∧
      splitLineBreak.position 1 < splitLineBreak.position 2) ∧
    splitLineBreak.position 3 ≤ splitLineBreak.position 4 ∧
    Copies Session.Moves first [failed] ∧ failed.failed = true ∧ failed.fresh = tokens ∧
      InReadingOrder tokens := by
  intro first taken failed tokens
  obtain ⟨hstrict, hmono, hstreams⟩ := positions_in_reading_order splitLineBreak
  have hboundary : Utf8.isBoundary splitLineBreak.text 1 = true := by decide +kernel
  have hsize : 2 ≤ splitLineBreak.size := by decide
  have hfirst : Copies Session.Moves first ([] ++ first :: []) := .start
  have hword : Copies Session.Moves first ([] ++ first.call .iterate :: []) :=
    hfirst.move ⟨_, rfl⟩
  have htaken : Copies Session.Moves first ([] ++ taken :: []) := hword.move ⟨_, rfl⟩
  have hreplayed : Copies Session.Moves first ([] ++ taken.call .iterate :: []) :=
    htaken.move ⟨_, rfl⟩
  have hspace : Copies Session.Moves first
      ([] ++ (taken.call .iterate).call (.ask .next) :: []) := hreplayed.move ⟨_, rfl⟩
  have hline : Copies Session.Moves first
      ([] ++ ((taken.call .iterate).call (.ask .next)).call .iterate :: []) :=
    hspace.move ⟨_, rfl⟩
  have hpool : Copies Session.Moves first [failed] := hline.move ⟨_, rfl⟩
  have hfailed : failed.failed = true := by decide +kernel
  have hfresh : failed.fresh = tokens := by decide +kernel
  have horder := (hstreams .strict).2 [failed] hpool failed (List.mem_singleton.mpr rfl)
  rw [hfresh] at horder
  exact ⟨⟨hboundary, by decide, hsize, hstrict 1 2 hboundary (by decide) hsize⟩,
    hmono 3 4 (by decide), hpool, hfailed, hfresh, horder⟩

end CssTokens
