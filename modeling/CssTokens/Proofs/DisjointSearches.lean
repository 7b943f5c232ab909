import Mathlib.Data.List.Basic
import CssTokens.Proofs.GroupSearches
import CssTokens.Proofs.LexemeAlignment
import CssTokens.Proofs.NextLexeme

/-!
# CssTokens.Proofs.DisjointSearches — no stretch of text is searched in vain twice

A search for the end of a group that a quote stops has read everything up to the quote, and all that
comes of it is one parenthesis.  Every parenthesis that the quote would stop is remembered by then, so
the next search that fails begins behind the quote.  Failed searches never overlap, and together they
are no longer than the text (`stopped_total_le`).  Which searches fail is read off the scanner before each
step (`stoppedSearches`); they are those among all searches made that a quote stops
(`stoppedSearches_eq`).

The memo passes entries for good and is replaced as a whole, so this takes an argument.  Until the
scanner has passed the quote it is `Guarded`: a search from where it stands would come to the quote
with just the remembered offsets open, and only offsets behind the scanner have been passed.  Lexemes
keep that up because the search stays aligned with them (`Cursor.aligned_lexeme`).
-/

namespace CssTokens

set_option autoImplicit false

variable {src : Source}

/-! ## Remembered offsets are found -/

namespace OpenParens

variable {memo : OpenParens} {offset later : Nat}

/-- All entries that have been passed are before an offset. -/
def PassedBelow (memo : OpenParens) (offset : Nat) : Prop :=
  ∀ i (h : i < memo.offsets.size), i < memo.next → memo.offsets[i] < offset

theorem PassedBelow.mono (h : memo.PassedBelow offset) (hle : offset ≤ later) :
    memo.PassedBelow later :=
  fun i hi hnext => Nat.lt_of_lt_of_le (h i hi hnext) hle

theorem PassedBelow.succ (h : memo.PassedBelow offset) (hb : memo.next < memo.offsets.size)
    (hlt : memo.offsets[memo.next] < offset) :
    (⟨memo.offsets, memo.next + 1⟩ : OpenParens).PassedBelow offset := by
  intro i hi hnext
  rcases Nat.lt_or_eq_of_le (Nat.le_of_lt_succ hnext) with hbefore | rfl
  · exact h i hi hbefore
  · exact hlt

theorem PassedBelow.lookup (h : memo.PassedBelow offset) :
    (memo.lookup offset).2.PassedBelow offset := by
  fun_induction OpenParens.lookup memo offset with
  | case1 memo hb hlt ih => exact ih (h.succ hb hlt)
  | case2 memo hb hge => exact h
  | case3 memo hb => exact h

/-- A remembered offset is found, unless it has been passed. -/
theorem lookup_fst_of_mem (hsorted : memo.offsets.toList.Pairwise (· < ·))
    (hpassed : memo.PassedBelow offset) (hmem : offset ∈ memo.offsets) :
    (memo.lookup offset).1 = true := by
  fun_induction lookup memo offset with
  | case1 memo hb hlt ih => exact ih hsorted (hpassed.succ hb hlt) hmem
  | case2 memo hb hge =>
      obtain ⟨i, hi, rfl⟩ := Array.mem_iff_getElem.mp hmem
      have hnext : ¬ i < memo.next := fun hlt => Nat.lt_irrefl _ (hpassed i hi hlt)
      rcases Nat.lt_or_eq_of_le (Nat.le_of_not_lt hnext) with hlt | rfl
      · exact absurd (List.pairwise_iff_getElem.mp hsorted _ _ hb hi hlt) hge
      · exact beq_self_eq_true _
  | case3 memo hb =>
      obtain ⟨i, hi, rfl⟩ := Array.mem_iff_getElem.mp hmem
      have hlt := hpassed i hi (by omega)
      exact absurd hlt (Nat.lt_irrefl _)

end OpenParens

/-! ## Searches that a quote stops -/

/-- A search for the end of a group that a quote stopped. -/
structure StoppedSearch where
  /-- Offset of the parenthesis. -/
  paren : Nat
  /-- Offset of the quote. -/
  quote : Nat
deriving DecidableEq

namespace StoppedSearch

/-- Whether a search came by an offset, from the parenthesis up to the quote. -/
def Covers (a : StoppedSearch) (offset : Nat) : Prop :=
  a.paren ≤ offset ∧ offset ≤ a.quote

/-- Number of bytes that a search came by. -/
def length (a : StoppedSearch) : Nat :=
  a.quote + 1 - a.paren

/-- Number of bytes that some searches came by, one after the other. -/
def total : List StoppedSearch → Nat
  | [] => 0
  | a :: searches => a.length + total searches

/-- Searches, in the order in which they were made, that never overlap. -/
structure Disjoint (searches : List StoppedSearch) : Prop where
  paren_lt : ∀ a ∈ searches, a.paren < a.quote
  /-- Each begins behind the quotes of those before it. -/
  behind : searches.Pairwise fun a b => a.quote < b.paren
  /-- No offset is come by twice. -/
  apart : searches.Pairwise fun a b => ∀ offset, ¬ (a.Covers offset ∧ b.Covers offset)
  /-- No quote stops two of them. -/
  once : (searches.map quote).Nodup

/-- Searches that lie one behind the other have room where they lie. -/
theorem total_le {searches : List StoppedSearch} {lo hi : Nat}
    (hbehind : searches.Pairwise fun a b => a.quote < b.paren) (hle : lo ≤ hi)
    (hbounds : ∀ a ∈ searches, lo ≤ a.paren ∧ a.paren < a.quote ∧ a.quote < hi) :
    total searches ≤ hi - lo := by
  induction searches generalizing lo with
  | nil => exact Nat.zero_le _
  | cons a searches ih =>
      obtain ⟨hlt, hrest⟩ := List.pairwise_cons.mp hbehind
      obtain ⟨hlo, hparen, hhi⟩ := hbounds a List.mem_cons_self
      have htotal := ih hrest (Nat.succ_le_of_lt hhi) fun b hb =>
        ⟨hlt b hb, (hbounds b (List.mem_cons_of_mem a hb)).2⟩
      rw [total, length]
      omega

end StoppedSearch

/-- The quote that stopped a search, if one did, and the parenthesis in front of the search. -/
def GroupSearch.stopped? (a : GroupSearch src) : Option StoppedSearch :=
  match a.found with
  | .ok (.quoted quote _) => some ⟨a.start.pos - 1, quote.pos⟩
  | _ => none

namespace Scanner

open Reading

variable {s s' : Scanner src} {quote : Cursor src} {opened found : List Nat} {l : Lexeme}

/-- The search that the next step makes and that a quote stops: at a parenthesis that the memo does
not answer for. -/
def stoppedSearch? (s : Scanner src) : Option StoppedSearch :=
  if s.cursor.current = .ok Byte.openParen ∧ (s.openParens.lookup s.pos).1 = false then
    match (s.cursor.advance 1).scanGroup [] with
    | .ok (.quoted quote _) => some ⟨s.pos, quote.pos⟩
    | _ => none
  else
    none

/-- The stopped searches of a run, in order. -/
def stoppedSearches (s : Scanner src) (h : s.pos ≤ src.size) : List StoppedSearch :=
  (s.run h).filterMap fun v => v.scanner.stoppedSearch?

/-- **The stopped search of a step is the one that the step makes, if a quote stops it.** -/
theorem toList_stoppedSearch? (s : Scanner src) :
    s.stoppedSearch?.toList = s.searches.filterMap GroupSearch.stopped? := by
  rw [stoppedSearch?, searches_eq]
  split
  · rw [List.filterMap_cons, List.filterMap_nil, GroupSearch.stopped?]
    match (s.cursor.advance 1).scanGroup [] with
    | .ok (.quoted quote opened) => rfl
    | .ok (.closed c) => rfl
    | .ok (.missing c) => rfl
    | .error e => rfl
  · rfl

/-- **The stopped searches of a run are those among all searches made that a quote stops.** -/
theorem stoppedSearches_eq (s : Scanner src) (h : s.pos ≤ src.size) :
    s.stoppedSearches h = (s.runSearches h).filterMap GroupSearch.stopped? := by
  rw [stoppedSearches, List.filterMap_eq_flatMap_toList, runSearches, List.filterMap_flatMap]
  exact List.flatMap_congr fun v _ => v.scanner.toList_stoppedSearch?

/-- A search that is stopped begins where the scanner stands. -/
theorem bounds_of_stoppedSearch? {a : StoppedSearch}
    (ha : s.stoppedSearch? = some a) : a.paren = s.pos ∧ s.pos < a.quote ∧ a.quote < src.size := by
  unfold stoppedSearch? at ha
  split at ha
  · next hparen =>
      have hlt : s.pos < src.size := Source.lt_size_of_byteAt hparen.1 (by decide)
      split at ha
      · next quote opened hscan =>
          cases ha
          exact ⟨rfl, Cursor.quote_bounds (c := s.cursor.advance 1) hlt hscan⟩
      · cases ha
  · cases ha

/-- What a step does to the memo: entries may be passed; or a search is stopped, and what it found is
all that is remembered then. -/
inductive MemoStep (s s' : Scanner src) : Prop where
  | passes (hstopped : s.stoppedSearch? = none)
      (hoffsets : s'.openParens.offsets = s.openParens.offsets)
      (hpassed : s.openParens.PassedBelow s.pos → s'.openParens.PassedBelow s.pos)
  | stops {quote : Cursor src} {opened : List Nat}
      (hstopped : s.stoppedSearch? = some ⟨s.pos, quote.pos⟩)
      (hcursor : s'.cursor = s.cursor.advance 1)
      (hscan : s'.cursor.scanGroup [] = .ok (.quoted quote opened))
      (hmemo : s'.openParens = .ofInnermostFirst opened)

theorem memoStep_of_eq (hstopped : s.stoppedSearch? = none) (h : s'.openParens = s.openParens) :
    MemoStep s s' :=
  .passes hstopped (congrArg OpenParens.offsets h) (fun hpassed => h ▸ hpassed)

theorem memoStep_of_lookup (hstopped : s.stoppedSearch? = none)
    (h : s'.openParens = (s.openParens.lookup s.pos).2) : MemoStep s s' :=
  .passes hstopped (h ▸ OpenParens.lookup_snd.1) (fun hpassed => h ▸ hpassed.lookup)

theorem nextParen_memoStep (hb : s.cursor.current = .ok Byte.openParen)
    (hnext : s.nextParen = .ok (l, s')) : MemoStep s s' := by
  unfold nextParen at hnext
  by_cases hknown : (s.openParens.lookup s.pos).1 = true
  · have hstopped : s.stoppedSearch? = none := by
      rw [stoppedSearch?, if_neg]
      rintro ⟨-, hunknown⟩
      cases hknown.symm.trans hunknown
    simp only [if_pos hknown] at hnext
    cases hnext
    exact memoStep_of_lookup hstopped rfl
  · have hstopped : s.stoppedSearch? = match (s.cursor.advance 1).scanGroup [] with
        | .ok (.quoted quote _) => some ⟨s.pos, quote.pos⟩
        | _ => none := by
      rw [stoppedSearch?, if_pos ⟨hb, Bool.eq_false_iff.mpr hknown⟩]
    simp only [if_neg hknown] at hnext
    obtain ⟨r, hscan, hnext⟩ := exists_of_bind hnext
    rw [hscan] at hstopped
    cases r with
    | closed c =>
        cases hnext
        exact memoStep_of_lookup hstopped rfl
    | quoted quote opened =>
        cases hnext
        exact .stops hstopped rfl hscan rfl
    | missing c =>
        cases hnext
        exact memoStep_of_lookup hstopped rfl

theorem next_memoStep (hnext : s.next = .ok (l, s')) : MemoStep s s' := by
  obtain ⟨b, hb, -⟩ := exists_of_bind hnext
  by_cases hparen : Opening.ofByte b = .paren
  · obtain rfl := Opening.eq_of_ofByte_paren hparen
    rw [next_of_paren hb] at hnext
    exact nextParen_memoStep hb hnext
  · refine memoStep_of_eq ?_ (openParens_of_next hb hparen hnext)
    rw [stoppedSearch?, if_neg]
    rintro ⟨hopen, -⟩
    cases hb.symm.trans hopen
    exact hparen rfl

/-! ## The memo serves until the quote is passed -/

/-- The scanner has not passed a quote yet, and remembers the parentheses that are open there. -/
structure Guarded (quote : Cursor src) (s : Scanner src) : Prop where
  scan : ∃ opened, s.cursor.scanGroup opened =
    .ok (.quoted quote s.openParens.offsets.toList.reverse)
  sorted : s.openParens.offsets.toList.Pairwise (· < ·)
  passed : s.openParens.PassedBelow s.pos

/-- A stopped search leaves the scanner guarded. -/
theorem guarded_of_stopped (h : s'.pos ≤ src.size)
    (hscan : s'.cursor.scanGroup [] = .ok (.quoted quote opened))
    (hmemo : s'.openParens = .ofInnermostFirst opened) : s'.Guarded quote := by
  have hoffsets : s'.openParens.offsets.toList = opened.reverse := by
    rw [hmemo]
    rfl
  have hdescending := Cursor.descending_of_quoted h hscan (List.pairwise_singleton _ _)
  refine ⟨⟨[], ?_⟩, ?_, ?_⟩
  · rw [hoffsets, List.reverse_reverse, hscan]
  · rw [hoffsets, List.pairwise_reverse]
    exact hdescending
  · rw [hmemo]
    exact fun i _ hlt => absurd hlt (Nat.not_lt_zero i)

/-- A guarded scanner makes no search that a quote stops. -/
theorem Guarded.stoppedSearch?_eq_none (h : s.Guarded quote) : s.stoppedSearch? = none := by
  obtain ⟨opened, hscan⟩ := h.scan
  rw [stoppedSearch?]
  split
  · next hparen =>
      obtain ⟨hb, hunknown⟩ := hparen
      obtain ⟨bs, hr⟩ := Cursor.exists_rest_of_current hb (by decide)
      have hopen : s.cursor.scanGroup opened = (s.cursor.advance 1).scanGroup (s.pos :: opened) :=
        Cursor.scanGroup_of_rest opened hr
      have hframe := Cursor.scanGroup_append [] (s.pos :: opened) (s.cursor.advance 1)
      rw [List.nil_append, ← hopen, hscan] at hframe
      split
      · next q inner hinner =>
          -- The quote would be the same, so the parenthesis is one of those open at it.
          rw [hinner] at hframe
          injection hframe with hframe
          injection hframe with _ hfound
          have hmem : s.pos ∈ s.openParens.offsets := by
            rw [← Array.mem_toList_iff, ← List.mem_reverse, hfound]
            exact List.mem_append_right _ List.mem_cons_self
          have hknown := OpenParens.lookup_fst_of_mem h.sorted h.passed hmem
          cases hknown.symm.trans hunknown
      · rfl
  · rfl

/-- A guarded scanner stays guarded until it has passed the quote. -/
theorem Guarded.step (h : s.Guarded quote) (hle : s.pos ≤ src.size) (hm : s.openParens.Sound src)
    (hnext : s.next = .ok (l, s')) : s'.Guarded quote ∨ quote.pos < s'.pos := by
  have hrules := (next_followsRules hle hm).of_eq_ok hnext
  have hwithin := (next_yields hle).of_eq_ok hnext
  have hpos : s'.pos = s.pos + l.length := hwithin.pos_eq
  have hcursor : s'.cursor = s.cursor.advance l.length := hrules.cursor_eq
  obtain ⟨opened, hscan⟩ := h.scan
  have haligned := Cursor.aligned_lexeme hle hscan
  rw [← hrules.lexeme_eq] at haligned
  rcases haligned with ⟨hexplains, -⟩ | ⟨inner, hscan', -⟩
  · have hquote := (Cursor.quote_bounds hle hscan)
    have hfinish : l.tag ≠ .finish := fun htag => by
      have hend := hwithin.finish_iff.mp htag
      simp only [pos] at hend
      omega
    have hcovers := hexplains.covers (Nat.lt_add_of_pos_right (hwithin.length_pos hfinish))
    exact Or.inr (hpos ▸ hcovers.2)
  · rw [← hcursor] at hscan'
    cases next_memoStep hnext with
    | passes hstopped hoffsets hpassed =>
        refine Or.inl ⟨⟨inner, hoffsets ▸ hscan'⟩, hoffsets ▸ h.sorted, ?_⟩
        exact (hpassed h.passed).mono (hpos ▸ Nat.le_add_right _ _)
    | stops hstopped hcursor hscan hmemo =>
        cases h.stoppedSearch?_eq_none.symm.trans hstopped

/-- From a guarded scanner on, the searches that are stopped begin behind the quote. -/
theorem Guarded.lt_of_mem_run (s : Scanner src) (hle : s.pos ≤ src.size)
    (hm : s.openParens.Sound src) (h : s.Guarded quote) :
    ∀ v ∈ s.run hle, ∀ a, v.scanner.stoppedSearch? = some a → quote.pos < a.paren := by
  fun_induction run s hle with
  | case1 s hle hend =>
      intro v hv
      cases hv
  | case2 s hle hend ih =>
      intro v hv a ha
      have hnext := (s.step hle).property
      have hm' := ((next_followsRules hle hm).of_eq_ok hnext).sound
      rcases List.mem_cons.mp hv with rfl | hrest
      · cases h.stoppedSearch?_eq_none.symm.trans ha
      · rcases h.step hle hm hnext with hguarded | hpassed
        · exact ih hm' hguarded v hrest a ha
        · rw [(bounds_of_stoppedSearch? ha).1]
          exact Nat.lt_of_lt_of_le hpassed (pos_le_of_mem_run hrest)

/-- **A search that is stopped begins behind the quote of every earlier one.** -/
theorem stoppedSearches_pairwise (s : Scanner src) (h : s.pos ≤ src.size)
    (hm : s.openParens.Sound src) :
    (s.stoppedSearches h).Pairwise fun a b => a.quote < b.paren := by
  refine List.pairwise_filterMap.mpr ?_
  fun_induction run s h with
  | case1 s h hend => exact .nil
  | case2 s h hend ih =>
      have hnext := (s.step h).property
      have hm' := ((next_followsRules h hm).of_eq_ok hnext).sound
      refine .cons (fun v hv a ha b hb => ?_) (ih hm')
      cases next_memoStep hnext with
      | passes hstopped => cases hstopped.symm.trans ha
      | stops hstopped hcursor hscan hmemo =>
          cases hstopped.symm.trans ha
          have hguarded := guarded_of_stopped (step_within h).pos_le hscan hmemo
          exact hguarded.lt_of_mem_run _ _ hm' v hv b hb

theorem bounds_of_mem_stoppedSearches {s : Scanner src} {h : s.pos ≤ src.size} :
    ∀ a ∈ s.stoppedSearches h, s.pos ≤ a.paren ∧ a.paren < a.quote ∧ a.quote < src.size := by
  intro a ha
  obtain ⟨v, hv, hstopped⟩ := List.mem_filterMap.mp ha
  obtain ⟨hparen, hbounds⟩ := bounds_of_stoppedSearch? hstopped
  rw [hparen]
  exact ⟨pos_le_of_mem_run hv, hbounds⟩

/-- **Searches in vain take no longer than the text.** -/
theorem stopped_total_le (s : Scanner src) (h : s.pos ≤ src.size) (hm : s.openParens.Sound src) :
    StoppedSearch.total (s.stoppedSearches h) ≤ src.size - s.pos :=
  StoppedSearch.total_le (stoppedSearches_pairwise s h hm) h bounds_of_mem_stoppedSearches

/-- **Searches that a quote stops never overlap.** -/
theorem stopped_searches_disjoint (src : Source) {start : Nat} (hstart : start ≤ src.size) :
    StoppedSearch.Disjoint ((ofCursor ⟨start⟩ : Scanner src).stoppedSearches hstart) := by
  have hbehind := stoppedSearches_pairwise (ofCursor ⟨start⟩) hstart OpenParens.sound_empty
  have hbounds := bounds_of_mem_stoppedSearches (s := ofCursor ⟨start⟩) (h := hstart)
  refine ⟨fun a ha => (hbounds a ha).2.1, hbehind, ?_, ?_⟩
  · refine hbehind.imp fun hlt offset hcovers => ?_
    obtain ⟨⟨-, hto⟩, hfrom, -⟩ := hcovers
    omega
  · refine List.pairwise_map.mpr (hbehind.imp_of_mem fun _ hb hlt => ?_)
    exact Nat.ne_of_lt (Nat.lt_trans hlt (hbounds _ hb).2.1)

/-- A string in a group, and two parentheses before one quote. -/
def twoStopped : Source :=
  ⟨"('a'(b(\"", by decide⟩

/-- The last parenthesis is remembered from the search before, and not searched from again. -/
theorem stopped_searches_disjoint_of_twoStopped :
    ∃ h : 0 ≤ twoStopped.size,
      (ofCursor ⟨0⟩ : Scanner twoStopped).stoppedSearches h = [⟨0, 1⟩, ⟨4, 7⟩] ∧
      StoppedSearch.Disjoint ((ofCursor ⟨0⟩ : Scanner twoStopped).stoppedSearches h) :=
  ⟨Nat.zero_le _, by decide +kernel, stopped_searches_disjoint twoStopped (Nat.zero_le _)⟩

end Scanner

end CssTokens
