import CssTokens.Proofs.CheckedScanner
import CssTokens.Proofs.DisjointSearches
import CssTokens.Proofs.GroupDepth
import CssTokens.Proofs.SafeScanning

/-!
# CssTokens.Proofs.MemoInvariant — what is remembered, in every state

The memo of parentheses is an array and a count of the entries that have been passed.  In every state
that a scanner comes to, wherever it began, the entries ascend, those that have been passed lie behind
the scanner, and each is the offset of a parenthesis whose group a quote prevents (`MemoKept`).

That a look-up answers yes for every remembered offset, and that a search which a quote stops throws
away only what lies behind it, are global facts about earlier searches.  What carries them is
`Serves`: either the quote of the last such search is still ahead, and until it is passed no other
search is stopped; or everything that is remembered has been passed.
-/

namespace CssTokens

set_option autoImplicit false

variable {src : Source}

/-! ## Parentheses that are found open at a quote -/

namespace Cursor

/-- What is found open at a quote and was not open before is a parenthesis. -/
theorem paren_of_quoted {opened found : List Nat} {c quote : Cursor src} {o : Nat}
    (h : c.scanGroup opened = .ok (.quoted quote found)) (ho : o ∈ found) :
    o ∈ opened ∨ src.byteAt o = .ok Byte.openParen := by
  fun_induction scanGroup opened c with
  | case1 opened c c' hd => cases h
  | case2 opened c b c' hd hq =>
      cases h
      exact Or.inl ho
  | case3 opened c c' e he hd hq => cases h
  | case4 opened c c' c'' he hd hq ih => exact ih h
  | case5 opened c c' hd hq hb ih =>
      rcases ih h with hmem | hparen
      · rcases List.mem_cons.mp hmem with rfl | hmem
        · exact Or.inr (skipTo_eq_some hd).2.2.1
        · exact Or.inl hmem
      · exact Or.inr hparen
  | case6 c b c' hd hq hb hp => cases h
  | case7 c b c' hd hq hb hp p outer ih =>
      rcases ih h with hmem | hparen
      · exact Or.inl (List.mem_cons_of_mem p hmem)
      · exact Or.inr hparen

/-- If a quote stops the search from a parenthesis, then to one who counts, too, a quote comes before
the closing parenthesis. -/
theorem AbortsAt.counts {quote : Cursor src} {o : Nat} (h : AbortsAt quote o)
    (hparen : src.byteAt o = .ok Byte.openParen) :
    GroupDepth.Quoted 1 (GroupDepth.unescaped (o + 1) (src.charsFrom (o + 1))) := by
  obtain ⟨opened, hscan⟩ := h
  obtain ⟨bs, hr⟩ := exists_rest_of_current (c := (⟨o⟩ : Cursor src)) hparen (by decide)
  have hbytes : Utf8.encode (src.charsFrom (o + 1)) = bs :=
    (Source.encode_charsFrom (isBoundary_of_rest hr (by decide))).trans (rest_advance_one hr)
  have hcounts := GroupDepth.group_counts 0 (o + 1) (src.charsFrom (o + 1))
  obtain ⟨r, hfound, hending⟩ :=
    scanGroup_ending [] (c := (⟨o + 1⟩ : Cursor src)) (lt_size_of_rest hr)
  cases hscan.symm.trans hfound
  have hrest : (⟨o + 1⟩ : Cursor src).rest = bs := rest_advance_one hr
  rw [hrest, List.length_nil] at hending
  rw [hbytes] at hcounts
  generalize ByteRules.group 0 bs = found at hcounts hending
  obtain ⟨ending, n⟩ := found
  obtain rfl : ByteRules.Ending.quoted = ending := congrArg Prod.fst hending
  exact hcounts

end Cursor

/-! ## The count of passed entries -/

namespace OpenParens

theorem lookup_next_le {memo : OpenParens} (h : memo.next ≤ memo.offsets.size) (offset : Nat) :
    (memo.lookup offset).2.next ≤ (memo.lookup offset).2.offsets.size := by
  fun_induction lookup memo offset with
  | case1 memo hb hlt ih => exact ih hb
  | case2 memo hb hge => exact h
  | case3 memo hb => exact h

end OpenParens

namespace Scanner

open Reading

variable {s s' : Scanner src} {l : Lexeme}

/-- The memo behind a step is the old one, looked up or not, or made anew. -/
theorem memo_of_next (hnext : s.next = .ok (l, s')) :
    s'.openParens = s.openParens ∨ s'.openParens = (s.openParens.lookup s.pos).2 ∨
      ∃ opened, s'.openParens = .ofInnermostFirst opened := by
  obtain ⟨b, hb, -⟩ := exists_of_bind hnext
  by_cases hparen : Opening.ofByte b = .paren
  · right
    obtain rfl := Opening.eq_of_ofByte_paren hparen
    rw [next_of_paren hb] at hnext
    unfold nextParen at hnext
    by_cases hknown : (s.openParens.lookup s.pos).1 = true
    · simp only [if_pos hknown] at hnext
      cases hnext
      exact Or.inl rfl
    · simp only [if_neg hknown] at hnext
      obtain ⟨ending, -, hnext⟩ := exists_of_bind hnext
      cases ending with
      | closed c =>
          cases hnext
          exact Or.inl rfl
      | quoted quote opened =>
          cases hnext
          exact Or.inr ⟨opened, rfl⟩
      | missing c =>
          cases hnext
          exact Or.inl rfl
  · exact Or.inl (openParens_of_next hb hparen hnext)

theorem next_le_of_next (h : s.openParens.next ≤ s.openParens.offsets.size)
    (hnext : s.next = .ok (l, s')) : s'.openParens.next ≤ s'.openParens.offsets.size := by
  rcases memo_of_next hnext with hmemo | hmemo | ⟨opened, hmemo⟩
  · exact hmemo ▸ h
  · exact hmemo ▸ OpenParens.lookup_next_le h s.pos
  · exact hmemo ▸ Nat.zero_le _

/-! ## The invariant -/

/-- What is remembered still serves, as its quote is ahead; or all of it has been passed. -/
def Serves (s : Scanner src) : Prop :=
  (∃ quote, s.Guarded quote ∧ ∀ o ∈ s.openParens.offsets, o < quote.pos) ∨
    ∀ o ∈ s.openParens.offsets, o < s.pos

/-- What every step keeps of the memo. -/
structure MemoKept (s : Scanner src) : Prop where
  ascending : s.openParens.offsets.toList.Pairwise (· < ·)
  next_le : s.openParens.next ≤ s.openParens.offsets.size
  passed : s.openParens.PassedBelow s.pos
  paren : ∀ o ∈ s.openParens.offsets, src.byteAt o = .ok Byte.openParen
  sound : s.openParens.Sound src
  serves : s.Serves

theorem memoKept_ofCursor (c : Cursor src) : (ofCursor c).MemoKept where
  ascending := .nil
  next_le := Nat.le_refl 0
  passed i hi _ := absurd hi (Nat.not_lt_zero i)
  paren o ho := absurd ho (Array.not_mem_empty o)
  sound := OpenParens.sound_empty
  serves := Or.inr fun o ho => absurd ho (Array.not_mem_empty o)

/-- Behind the text a step changes nothing. -/
theorem eq_of_next_of_size_lt (hlt : src.size < s.pos) (hnext : s.next = .ok (l, s')) : s' = s := by
  obtain ⟨b, hb, -⟩ := exists_of_bind hnext
  cases (next_of_padding hlt (Source.lt_paddedSize_of_byteAt hb)).symm.trans hnext
  rfl

/-- A search that a quote stops leaves a memo of its own, which serves up to that quote. -/
theorem memoKept_of_stopped {quote : Cursor src} {opened : List Nat} (hle : s'.pos ≤ src.size)
    (hscan : s'.cursor.scanGroup [] = .ok (.quoted quote opened))
    (hmemo : s'.openParens = .ofInnermostFirst opened) : s'.MemoKept := by
  have hguarded := guarded_of_stopped hle hscan hmemo
  have hmem {o : Nat} (ho : o ∈ s'.openParens.offsets) : o ∈ opened := by
    rw [hmemo, OpenParens.ofInnermostFirst] at ho
    simpa using ho
  refine ⟨hguarded.sorted, hmemo ▸ Nat.zero_le _, hguarded.passed, fun o ho => ?_, ?_, ?_⟩
  · exact (Cursor.paren_of_quoted hscan (hmem ho)).resolve_left List.not_mem_nil
  · rw [hmemo]
    exact OpenParens.sound_ofInnermostFirst hscan
  · refine Or.inl ⟨quote, hguarded, fun o ho => ?_⟩
    exact (Cursor.lt_of_quoted hle hscan o (hmem ho)).resolve_left List.not_mem_nil

/-- While entries are only passed, the memo serves up to its quote, and behind the quote all of it
has been passed. -/
theorem Serves.step (h : s.Serves) (hle : s.pos ≤ src.size) (hm : s.openParens.Sound src)
    (hnext : s.next = .ok (l, s')) (hoffsets : s'.openParens.offsets = s.openParens.offsets) :
    s'.Serves := by
  rw [Serves, hoffsets]
  rcases h with ⟨quote, hguarded, hbefore⟩ | hbehind
  · rcases hguarded.step hle hm hnext with hguarded' | hpast
    · exact Or.inl ⟨quote, hguarded', hbefore⟩
    · exact Or.inr fun o ho => Nat.lt_trans (hbefore o ho) hpast
  · have hpos : s'.pos = s.pos + l.length := ((next_yields hle).of_eq_ok hnext).pos_eq
    exact Or.inr fun o ho => Nat.lt_of_lt_of_le (hbehind o ho) (hpos ▸ Nat.le_add_right _ _)

theorem MemoKept.step (h : s.MemoKept) (hnext : s.next = .ok (l, s')) : s'.MemoKept := by
  rcases Nat.lt_or_ge src.size s.pos with hlt | hle
  · rw [eq_of_next_of_size_lt hlt hnext]
    exact h
  have hwithin := (next_yields hle).of_eq_ok hnext
  have hpos : s'.pos = s.pos + l.length := hwithin.pos_eq
  cases next_memoStep hnext with
  | passes hstopped hoffsets hpassed =>
      exact {
        ascending := hoffsets ▸ h.ascending
        next_le := next_le_of_next h.next_le hnext
        passed := (hpassed h.passed).mono (hpos ▸ Nat.le_add_right _ _)
        paren := hoffsets ▸ h.paren
        sound := sound_of_next h.sound hnext
        serves := h.serves.step hle h.sound hnext hoffsets }
  | stops hstopped hcursor hscan hmemo => exact memoKept_of_stopped hwithin.pos_le hscan hmemo

/-- When a search is stopped, everything that was remembered has been passed. -/
theorem MemoKept.lt_of_stopped (h : s.MemoKept) {a : StoppedSearch}
    (ha : s.stoppedSearch? = some a) : ∀ o ∈ s.openParens.offsets, o < s.pos := by
  rcases h.serves with ⟨quote, hguarded, -⟩ | hbehind
  · cases hguarded.stoppedSearch?_eq_none.symm.trans ha
  · exact hbehind

/-! ## The memo in every state -/

/-- A step whose search is stopped finds the parenthesis alone and remembers what the search opened. -/
theorem next_of_stoppedSearch? {a : StoppedSearch} (ha : s.stoppedSearch? = some a) :
    ∃ quote opened, (s.cursor.advance 1).scanGroup [] = .ok (.quoted quote opened) ∧
      a = ⟨s.pos, quote.pos⟩ ∧ s.next = .ok (s.parenAlone (.ofInnermostFirst opened)) := by
  unfold stoppedSearch? at ha
  split at ha
  · next hparen =>
      obtain ⟨hb, hunknown⟩ := hparen
      split at ha
      · next quote opened hscan =>
          cases ha
          refine ⟨quote, opened, hscan, rfl, ?_⟩
          rw [next_of_paren hb, nextParen, hscan]
          simp only [hunknown]
          rfl
      · cases ha
  · cases ha

/-- What the memo of a scanner is. -/
structure MemoInvariant (s : Scanner src) : Prop where
  ascending : s.openParens.offsets.toList.Pairwise (· < ·)
  next_le : s.openParens.next ≤ s.openParens.offsets.size
  /-- The entries that have been passed lie behind the scanner. -/
  passed : ∀ i (h : i < s.openParens.offsets.size), i < s.openParens.next →
    s.openParens.offsets[i] < s.pos
  /-- Every entry is the offset of a parenthesis.  A search from it, with nothing remembered, is
  stopped by a quote; and to one who counts, a quote comes before its closing parenthesis. -/
  entries : ∀ o ∈ s.openParens.offsets, src.byteAt o = .ok Byte.openParen ∧
    (∃ quote opened, (⟨o + 1⟩ : Cursor src).scanGroup [] = .ok (.quoted quote opened)) ∧
    GroupDepth.Quoted 1 (GroupDepth.unescaped (o + 1) (src.charsFrom (o + 1)))
  /-- A look-up finds what is remembered, and nothing else. -/
  known_iff : (s.openParens.lookup s.pos).1 = true ↔ s.pos ∈ s.openParens.offsets
  /-- A search that a quote stops has put its own parentheses on top of those remembered.  What is
  drained from below them lies behind the scanner, and what is left lies ahead. -/
  drained : ∀ a, s.stoppedSearch? = some a → ∃ quote opened s',
    (s.cursor.advance 1).scanGroup [] = .ok (.quoted quote opened) ∧
    s.next = .ok (⟨.token .openParen, 1⟩, s') ∧
    ∀ stack, Checked.Stacked s.openParens.offsets opened stack →
      Checked.drain stack s.openParens.offsets.size = .ok s'.openParens.offsets ∧
      (∀ o ∈ stack.take s.openParens.offsets.size, o < s.pos) ∧
      ∀ o ∈ s'.openParens.offsets, s.pos < o

theorem MemoKept.invariant (h : s.MemoKept) : s.MemoInvariant where
  ascending := h.ascending
  next_le := h.next_le
  passed := h.passed
  entries o ho := by
    obtain ⟨quote, habort⟩ := h.sound o ho
    exact ⟨h.paren o ho, ⟨quote, habort⟩, habort.counts (h.paren o ho)⟩
  known_iff := ⟨OpenParens.lookup_fst_mem, OpenParens.lookup_fst_of_mem h.ascending h.passed⟩
  drained a ha := by
    obtain ⟨quote, opened, hscan, -, hnext⟩ := next_of_stoppedSearch? ha
    refine ⟨quote, opened, _, hscan, hnext, fun stack hstacked => ⟨hstacked.drain, ?_, ?_⟩⟩
    · rw [hstacked.take]
      exact h.lt_of_stopped ha
    · intro o ho
      have hopened : o ∈ opened := by simpa [OpenParens.ofInnermostFirst] using ho
      exact (Cursor.mem_or_le_of_quoted hscan hopened).resolve_left List.not_mem_nil

/-- **The memo is ordered, is passed in order, and remembers parentheses that open no group**, in
every state of a scanner and of its copies, wherever the scanner began. -/
theorem memo_invariant {start : Nat} {pool : List (Scanner src)}
    (hpool : Copies Moves (ofCursor ⟨start⟩) pool) {s : Scanner src} (hs : s ∈ pool) :
    s.MemoInvariant := by
  have hkept : ∀ s ∈ pool, s.MemoKept :=
    hpool.forall_mem (memoKept_ofCursor _) fun _ _ h ⟨_, hnext⟩ => h.step hnext
  exact (hkept s hs).invariant

/-- Two parentheses before a string, and another before a quote. -/
def parenBehindString : Source :=
  ⟨"((''('", by decide⟩

/-- Behind the string the second parenthesis is still remembered, and the search from the third
drains it. -/
theorem memo_invariant_of_parenBehindString :
    let s : Scanner parenBehindString := ⟨⟨4⟩, ⟨#[1], 0⟩⟩
    Copies Moves (ofCursor ⟨0⟩) [s] ∧ s.stoppedSearch? = some ⟨4, 5⟩ ∧ s.MemoInvariant := by
  intro s
  have hopens : Moves (ofCursor ⟨0⟩) (⟨⟨1⟩, ⟨#[1], 0⟩⟩ : Scanner parenBehindString) :=
    ⟨⟨.token .openParen, 1⟩, by decide +kernel⟩
  have hknown : Moves ⟨⟨1⟩, ⟨#[1], 0⟩⟩ (⟨⟨2⟩, ⟨#[1], 0⟩⟩ : Scanner parenBehindString) :=
    ⟨⟨.token .openParen, 1⟩, by decide +kernel⟩
  have hstring : Moves ⟨⟨2⟩, ⟨#[1], 0⟩⟩ s := ⟨⟨.token .string, 2⟩, by decide +kernel⟩
  have hstart : Copies Moves (ofCursor ⟨0⟩) ([] ++ (ofCursor ⟨0⟩ : Scanner parenBehindString) :: []) :=
    .start
  have hone : Copies Moves (ofCursor ⟨0⟩) ([] ++ _ :: []) := hstart.move hopens
  have htwo : Copies Moves (ofCursor ⟨0⟩) ([] ++ _ :: []) := hone.move hknown
  have hpool : Copies Moves (ofCursor ⟨0⟩) [s] := htwo.move hstring
  exact ⟨hpool, by decide +kernel, memo_invariant hpool (List.mem_singleton.mpr rfl)⟩

end Scanner

end CssTokens
