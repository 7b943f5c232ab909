import CssTokens.Proofs.LexemeAlignment
import CssTokens.Proofs.ScannerRun

/-!
# CssTokens.Proofs.AbandonedGroups — a group is given up for a quote that is one

A parenthesis opens no group if the search for its end meets a quote first.  The search takes what
stands between for opaque; the scanner then splits it.  The two agree on the quote: it begins a
string or lies in a comment, and no word and no group takes it in.  And they agree on the
parentheses that the search found open there: each is a parenthesis alone, or lies in a comment too.

The proof goes along the run (`exists_explains`).  As long as the quote is not reached, the search
from behind each lexeme comes to the same quote, over parentheses that lexemes have shown
(`Cursor.aligned_lexeme`).
-/

namespace CssTokens.Scanner

set_option autoImplicit false

open Reading

variable {src : Source} {quote : Cursor src} {opened found : List Nat}

/-- If the search from where a scanner stands will come to a quote, a lexeme of the run explains the
quote, and lexemes of the run show the parentheses that are then found open and were not before. -/
theorem exists_explains (s : Scanner src) (h : s.pos ≤ src.size) (hm : s.openParens.Sound src)
    (hscan : s.cursor.scanGroup opened = .ok (.quoted quote found)) :
    (∃ v ∈ s.run h, v.lexeme.Explains v.start quote.pos) ∧
      ∀ o ∈ found, o ∈ opened ∨ ∃ v ∈ s.run h, v.lexeme.Shows v.start o := by
  fun_induction run s h generalizing opened with
  | case1 s h hend =>
      have hbounds := Cursor.quote_bounds h hscan
      have hpos : s.cursor.pos = src.size := hend
      omega
  | case2 s h hend ih =>
      have hrules := (next_followsRules h hm).of_eq_ok (s.step h).property
      have haligned := Cursor.aligned_lexeme h hscan
      rw [← hrules.lexeme_eq] at haligned
      rcases haligned with ⟨hexplains, hshows⟩ | ⟨inner, hnext, hshows⟩
      · refine ⟨⟨_, List.mem_cons_self, hexplains⟩, fun o ho => ?_⟩
        rcases hshows o ho with hmem | hshow
        · exact Or.inl hmem
        · exact Or.inr ⟨_, List.mem_cons_self, hshow⟩
      · rw [← hrules.cursor_eq] at hnext
        obtain ⟨⟨v, hv, hexplains⟩, hrest⟩ := ih hrules.sound hnext
        refine ⟨⟨v, List.mem_cons_of_mem _ hv, hexplains⟩, fun o ho => ?_⟩
        rcases hrest o ho with hmem | ⟨w, hw, hshow⟩
        · rcases hshows o hmem with hopened | hshow
          · exact Or.inl hopened
          · exact Or.inr ⟨_, List.mem_cons_self, hshow⟩
        · exact Or.inr ⟨w, List.mem_cons_of_mem _ hw, hshow⟩

theorem sound_of_mem_run {s : Scanner src} {h : s.pos ≤ src.size} (hm : s.openParens.Sound src) :
    ∀ v ∈ s.run h, v.scanner.openParens.Sound src := by
  apply forall_mem_run (P := fun s => s.openParens.Sound src) hm
  intro s l s' hle hsound hnext
  exact ((next_followsRules hle hsound).of_eq_ok hnext).sound

/-- A scanner with a sound memo finds a parenthesis alone if the search from behind it meets a
quote. -/
theorem quoted_of_next {s s' : Scanner src} {l : Lexeme} (h : s.pos ≤ src.size)
    (hm : s.openParens.Sound src) (hnext : s.next = .ok (l, s'))
    (htag : l.tag = .token .openParen) :
    s'.cursor = ⟨s.pos + 1⟩ ∧
      ∃ quote opened, s'.cursor.scanGroup [] = .ok (.quoted quote opened) := by
  have hrules := (next_followsRules h hm).of_eq_ok hnext
  have hlexeme : l = ByteRules.lexeme s.cursor.rest := hrules.lexeme_eq
  have hcursor : s'.cursor = s.cursor.advance l.length := hrules.cursor_eq
  obtain ⟨ds, n, hr, hgroup⟩ := ByteRules.quoted_of_openParen (hlexeme ▸ htag)
  have hone : l = ByteRules.enclosed .bracket 1 (ByteRules.group 0 ds) := by
    rw [hlexeme, hr]
    rfl
  rw [hgroup] at hone
  subst hone
  refine ⟨hcursor, ?_⟩
  obtain ⟨r, hscan, hending⟩ :=
    Cursor.scanGroup_ending [] (c := s.cursor.advance 1) (Cursor.lt_size_of_rest hr)
  rw [Cursor.rest_advance_one hr, List.length_nil, hgroup] at hending
  cases r with
  | closed a => cases congrArg Prod.fst hending
  | quoted quote opened =>
      rw [hcursor]
      exact ⟨quote, opened, hscan⟩
  | missing a => cases congrArg Prod.fst hending

/-- What justifies, in a run, that the parenthesis at an offset was taken to open no group: the quote
that the search for the end of the group meets, and the parentheses that are then open in it. -/
structure Justified (run : List (Visit src)) (paren : Nat) (quote : Cursor src)
    (opened : List Nat) : Prop where
  /-- The search meets the quote before the matching parenthesis. -/
  scan : (⟨paren + 1⟩ : Cursor src).scanGroup [] = .ok (.quoted quote opened)
  isQuote : ∃ b, quote.current = .ok b ∧ Byte.isQuote b = true
  /-- The quote begins a string or lies in a comment, behind its opener. -/
  explained : ∃ v ∈ run, (v.kind? = some .string ∧ v.start = quote.pos) ∨
    (v.kind? = some .comment ∧ v.start + 2 ≤ quote.pos ∧ quote.pos < v.stop)
  /-- A parenthesis that is open at the quote is alone too, or lies in a comment. -/
  shown : ∀ o ∈ opened, ∃ v ∈ run, (v.lexeme = ⟨.token .openParen, 1⟩ ∧ v.start = o) ∨
    (v.kind? = some .comment ∧ v.start + 2 ≤ o ∧ o < v.stop)
  /-- Nothing but a string or a comment covers the quote. -/
  covered : ∀ v ∈ run, v.start ≤ quote.pos → quote.pos < v.stop →
    v.kind? = some .string ∨ v.kind? = some .comment

/-- **A group is given up for a quote that is one.** -/
theorem abandoned_groups_justified (src : Source) {start : Nat} (hstart : start ≤ src.size) :
    ∀ v ∈ (ofCursor ⟨start⟩ : Scanner src).run hstart, v.lexeme.tag = .token .openParen →
      ∃ quote opened, Justified ((ofCursor ⟨start⟩ : Scanner src).run hstart) v.start quote opened := by
  intro v hv htag
  obtain ⟨hlt, s', hnext, h', hmem⟩ := exists_run_of_mem hv
  have hm := sound_of_mem_run OpenParens.sound_empty v hv
  have hrules := (next_followsRules (Nat.le_of_lt hlt) hm).of_eq_ok hnext
  obtain ⟨hcursor, quote, opened, hscan⟩ := quoted_of_next (Nat.le_of_lt hlt) hm hnext htag
  obtain ⟨⟨w, hw, hexplains⟩, hshows⟩ := exists_explains s' h' hrules.sound hscan
  refine ⟨quote, opened, hcursor ▸ hscan, Cursor.isQuote_of_quoted hscan, ⟨w, hmem w hw, ?_⟩, ?_, ?_⟩
  · exact hexplains.imp (fun hstring => ⟨hstring.1, hstring.2.symm⟩) id
  · intro o ho
    rcases hshows o ho with hnil | ⟨u, hu, hshow⟩
    · cases hnil
    · exact ⟨u, hmem u hu, hshow.imp (fun hparen => ⟨hparen.1, hparen.2.symm⟩) id⟩
  · intro u hu hfrom hto
    have hwo := hexplains.covers (start_lt_stop_of_mem_run hw)
    obtain rfl := eq_of_mem_run (hmem w hw) hu hwo ⟨hfrom, hto⟩
    exact hexplains.imp And.left And.left

/-- A parenthesis in a parenthesis, and behind them a quote that a comment hides. -/
def hiddenQuote : Source :=
  ⟨"é(x(/*'*/", by decide⟩

/-- From inside of the first character, both parentheses are alone because of the quote in the
comment. -/
theorem abandoned_groups_justified_of_hiddenQuote :
    ∃ h : 1 ≤ hiddenQuote.size,
      ⟨⟨⟨2⟩, .empty⟩, ⟨.token .openParen, 1⟩⟩ ∈ (ofCursor ⟨1⟩ : Scanner hiddenQuote).run h ∧
      Justified ((ofCursor ⟨1⟩ : Scanner hiddenQuote).run h) 2 ⟨7⟩ [4] := by
  have hmem : ⟨⟨⟨2⟩, .empty⟩, ⟨.token .openParen, 1⟩⟩ ∈
      (ofCursor ⟨1⟩ : Scanner hiddenQuote).run (by decide) := by decide +kernel
  have hscan : (⟨3⟩ : Cursor hiddenQuote).scanGroup [] = .ok (.quoted ⟨7⟩ [4]) := by
    decide +kernel
  obtain ⟨quote, opened, hjustified⟩ := abandoned_groups_justified hiddenQuote _ _ hmem rfl
  cases hjustified.scan.symm.trans hscan
  exact ⟨_, hmem, hjustified⟩

end CssTokens.Scanner
