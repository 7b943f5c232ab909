import CssTokens.Proofs.CheckedScanner
import CssTokens.Proofs.ScannerSound

/-!
# CssTokens.Proofs.SafeScanning — scanning is safe and goes on

A scanner may be put anywhere in a text, also inside a character.  Calls of it are made in checked steps
(`Checked.run`).  From a place in the text, or from its end, no step fails however many calls are made;
each lexeme is at least one byte long and ends where a character begins, so after as many lexemes as
there are bytes the end is reached, where nothing changes any more (`Safe`).

A scanner put behind the text, but not behind the padding, finds the end and stays where it is.  Behind
the padding the first call faults, and only there.

The invariant is that the scanner stands in the text and that its memo is sound (`InText`).  Inside a
character it has to find a word, because the bytes there begin nothing else, and a word ends at an ASCII
byte or with the text (`boundary_of_next`).
-/

namespace CssTokens

set_option autoImplicit false

open Reading

variable {src : Source}

/-! ## Where lexemes end -/

/-- A byte that continues a character can only begin a word. -/
theorem Opening.ofByte_of_isContinuation {b : UInt8} (h : Utf8.isContinuation b = true) :
    ofByte b = .word := by
  revert h
  refine Byte.forall_of_fin (P := fun b => Utf8.isContinuation b = true → ofByte b = .word) ?_ b
  decide +kernel

namespace Scanner

variable {s : Scanner src} {r : Lexeme × Scanner src}

/-- A scanner put at an offset, which knows nothing yet. -/
def ofOffset (src : Source) (offset : Nat) : Scanner src :=
  ofCursor ⟨offset⟩

theorem pos_ofOffset (src : Source) (offset : Nat) : (ofOffset src offset).pos = offset := rfl

/-- Inside a character there is a word. -/
theorem lexeme_of_not_boundary (hlt : s.pos < src.size)
    (hb : ¬ Utf8.isBoundary src.text s.pos = true) :
    ByteRules.lexeme s.cursor.rest = ⟨.token .word, ByteRules.wordLength s.cursor.rest⟩ := by
  have hi : s.pos < src.bytes.length := by rwa [Source.length_bytes]
  have hbyte : Utf8.byte? src.text s.pos = some src.bytes[s.pos] := by
    rw [Utf8.byte?_eq]
    exact List.getElem?_eq_getElem hi
  have hcontinues : Utf8.isContinuation src.bytes[s.pos] = true := by
    rw [Utf8.isBoundary_iff_isLead hlt, Utf8.isLead, hbyte, Option.any_some] at hb
    simpa using hb
  have hrest : s.cursor.rest = src.bytes[s.pos] :: src.bytes.drop (s.pos + 1) :=
    List.drop_eq_getElem_cons hi
  rw [hrest, ByteRules.lexeme, Opening.ofByte_of_isContinuation hcontinues]

/-- Wherever a lexeme begins, it ends where a character begins. -/
theorem boundary_of_next (hpos : s.pos ≤ src.size) (hmemo : s.openParens.Sound src)
    (h : s.next = .ok r) (hne : r.1.tag ≠ .finish) :
    Utf8.isBoundary src.text r.2.pos = true := by
  have hrules := (next_followsRules hpos hmemo).of_eq_ok h
  have hwithin := (next_yields hpos).of_eq_ok h
  by_cases hb : Utf8.isBoundary src.text s.pos = true
  · exact hrules.boundary ⟨hb, hmemo⟩ hwithin.pos_le
  · have hlt : s.pos < src.size :=
      Nat.lt_of_le_of_ne hpos fun heq => hne (hwithin.finish_iff.mpr heq)
    have hlength : r.1.length = ByteRules.wordLength (src.bytes.drop s.pos) := by
      rw [hrules.lexeme_eq, lexeme_of_not_boundary hlt hb]
      rfl
    refine Utf8.isBoundary_iff_encoded.mpr ⟨hwithin.pos_le, ?_⟩
    rw [hwithin.pos_eq, hlength]
    exact ByteRules.wordLength_drop_encoded (Utf8.encoded_bytes src.text) s.pos

/-- Behind the text every call finds the end, up to the end of the padding. -/
theorem next_of_padding (hlt : src.size < s.pos) (hpad : s.pos < src.paddedSize) :
    s.next = .ok (⟨.finish, 0⟩, s) := by
  have hcurrent : s.cursor.current = .ok 0 := Source.byteAt_of_ge (Nat.le_of_lt hlt) hpad
  have hended : s.atEnd = .ok true := by
    rw [atEnd, Cursor.atEnd, hcurrent]
    show Except.ok (decide (src.size ≤ s.pos)) = _
    rw [decide_eq_true (Nat.le_of_lt hlt)]
  rw [next, hcurrent]
  show s.nextZero = _
  rw [nextZero, hended]
  rfl

end Scanner

/-! ## Calls in checked steps -/

namespace Checked

/-- A call of a scanner. -/
inductive Query where
  | next
  | atEnd
deriving DecidableEq

/-- The scanner behind a call made in checked steps. -/
def ask (s : Scanner src) : Query → Checked (Scanner src)
  | .next => do return (← next s).2
  | .atEnd => do
      let _ ← atEnd s.cursor
      return s

/-- The scanner behind calls made in checked steps, one after the other. -/
def run (s : Scanner src) : List Query → Checked (Scanner src)
  | [] => return s
  | query :: queries => do run (← ask s query) queries

/-- What holds of a scanner between two calls. -/
structure InText (s : Scanner src) : Prop where
  pos_le : s.pos ≤ src.size
  memo : s.openParens.Sound src

/-- A scanner that stands in the text, or at its end, is safe to call and goes on. -/
structure Safe (s : Scanner src) : Prop where
  pos_le : s.pos ≤ src.size
  /-- Whether it is at the end of the text is found without a fault. -/
  atEnd : atEnd s.cursor = .ok (decide (s.pos = src.size))
  /-- So is the next lexeme, which is that of the plain scanner.  It covers the bytes up to where the
  scanner stands then, at least one and up to where a character begins; or the text is over, and
  nothing changes. -/
  next : ∃ lexeme s', Checked.next s = .ok (lexeme, s') ∧ s.next = .ok (lexeme, s') ∧
    s.StepsWithin (lexeme, s') ∧ (lexeme.tag ≠ .finish → Utf8.isBoundary src.text s'.pos = true)

variable {s s' : Scanner src}

theorem inText_ofOffset {skip : Nat} (h : skip ≤ src.size) : InText (Scanner.ofOffset src skip) :=
  ⟨h, OpenParens.sound_empty⟩

theorem atEnd_of_le (h : s.pos ≤ src.size) : atEnd s.cursor = .ok (decide (s.pos = src.size)) := by
  obtain ⟨ended, hended, hiff⟩ := Cursor.atEnd_yields h
  rw [atEnd_eq, hended]
  show Except.ok ended = _
  rw [Bool.eq_iff_iff.mpr (hiff.trans decide_eq_true_iff.symm)]
  rfl

theorem InText.safe (h : InText s) : Safe s := by
  obtain ⟨⟨lexeme, s'⟩, hnext, hwithin⟩ := Scanner.next_yields h.pos_le
  refine ⟨h.pos_le, atEnd_of_le h.pos_le, lexeme, s', ?_, hnext, hwithin, ?_⟩
  · rw [next_eq, hnext]
    rfl
  · exact Scanner.boundary_of_next h.pos_le h.memo hnext

/-- A call keeps the invariant, and one for a lexeme moves the scanner unless the text is over. -/
theorem InText.ask (h : InText s) (query : Query) :
    ∃ s', ask s query = .ok s' ∧ InText s' ∧
      min src.size (s.pos + if query == .next then 1 else 0) ≤ s'.pos := by
  cases query with
  | atEnd =>
      refine ⟨s, ?_, h, Nat.min_le_right _ _⟩
      rw [Checked.ask, atEnd_of_le h.pos_le]
      rfl
  | next =>
      obtain ⟨⟨lexeme, s'⟩, hnext, hwithin⟩ := Scanner.next_yields h.pos_le
      have hrules := (Scanner.next_followsRules h.pos_le h.memo).of_eq_ok hnext
      refine ⟨s', ?_, ⟨hwithin.pos_le, hrules.sound⟩, ?_⟩
      · rw [Checked.ask, next_eq, hnext]
        rfl
      · show min src.size (s.pos + 1) ≤ s'.pos
        have hpos : s'.pos = s.pos + lexeme.length := hwithin.pos_eq
        by_cases hfinish : lexeme.tag = .finish
        · have hend := hwithin.finish_iff.mp hfinish
          omega
        · have hlength : 0 < lexeme.length := hwithin.length_pos hfinish
          omega

/-- However many calls are made, the invariant is kept, and each call for a lexeme has moved the
scanner until the text was over. -/
theorem InText.run (h : InText s) (queries : List Query) :
    ∃ s', run s queries = .ok s' ∧ InText s' ∧
      min src.size (s.pos + queries.count .next) ≤ s'.pos := by
  induction queries generalizing s with
  | nil => exact ⟨s, rfl, h, Nat.min_le_right _ _⟩
  | cons query queries ih =>
      obtain ⟨s₁, hask, hin, hmoved⟩ := h.ask query
      obtain ⟨s', hrun, hin', hmoved'⟩ := ih hin
      refine ⟨s', ?_, hin', ?_⟩
      · rw [Checked.run, hask]
        exact hrun
      · rw [List.count_cons]
        omega

theorem run_of_padding (hlt : src.size < s.pos) (hpad : s.pos < src.paddedSize)
    (queries : List Query) : run s queries = .ok s := by
  induction queries with
  | nil => rfl
  | cons query queries ih =>
      have hask : ask s query = .ok s := by
        cases query with
        | next =>
            rw [ask, next_eq, Scanner.next_of_padding hlt hpad]
            rfl
        | atEnd =>
            have hcurrent : current s.cursor = .ok 0 :=
              congrArg lift (Source.byteAt_of_ge (Nat.le_of_lt hlt) hpad)
            rw [ask, atEnd, hcurrent]
            rfl
      rw [run, hask]
      exact ih

theorem next_of_padding (hlt : src.size < s.pos) (hpad : s.pos < src.paddedSize) :
    next s = .ok (⟨.finish, 0⟩, s) := by
  rw [next_eq, Scanner.next_of_padding hlt hpad]
  rfl

theorem next_of_paddedSize_le (h : src.paddedSize ≤ s.pos) :
    next s = .error (.read ⟨src.paddedSize, s.pos⟩) := by
  have hcurrent : current s.cursor = .error (.read ⟨src.paddedSize, s.pos⟩) :=
    congrArg lift (Source.byteAt_of_paddedSize_le h)
  rw [next, hcurrent]
  rfl

/-- What it means that scanning is safe: of a scanner put at an offset, in checked steps. -/
structure ScanningSafe (src : Source) (skip : Nat) : Prop where
  /-- In the text no call ever faults, and the end is reached after at most as many lexemes as there
  are bytes. -/
  inText : skip ≤ src.size → ∀ queries, ∃ s, run (Scanner.ofOffset src skip) queries = .ok s ∧
    Safe s ∧ (src.size - skip ≤ queries.count .next → s.pos = src.size)
  /-- On the padding behind the text there is nothing but the end, and the scanner stays. -/
  onPadding : src.size < skip → skip < src.paddedSize → ∀ queries,
    run (Scanner.ofOffset src skip) queries = .ok (Scanner.ofOffset src skip) ∧
      next (Scanner.ofOffset src skip) = .ok (⟨.finish, 0⟩, Scanner.ofOffset src skip)
  /-- Behind the padding, and only there, the first call for a lexeme faults: it reads there. -/
  fault_iff : ∀ fault, next (Scanner.ofOffset src skip) = .error fault ↔
    src.paddedSize ≤ skip ∧ fault = .read ⟨src.paddedSize, skip⟩

/-- **Scanning is safe and goes on**, wherever in a source it begins. -/
theorem scanning_safe (src : Source) (skip : Nat) : ScanningSafe src skip where
  inText hle queries := by
    obtain ⟨s, hrun, hin, hmoved⟩ := (inText_ofOffset hle).run queries
    refine ⟨s, hrun, hin.safe, ?_⟩
    intro hcount
    have hend := hin.pos_le
    rw [Scanner.pos_ofOffset] at hmoved
    omega
  onPadding hlt hpad queries :=
    ⟨run_of_padding (s := .ofOffset src skip) hlt hpad queries,
      next_of_padding (s := .ofOffset src skip) hlt hpad⟩
  fault_iff fault := by
    rcases Nat.lt_or_ge skip src.paddedSize with hlt | hge
    · refine ⟨fun hfault => ?_, fun ⟨hge, _⟩ => absurd hlt (Nat.not_lt.mpr hge)⟩
      -- In the text and on the padding a lexeme is found.
      rcases Nat.lt_or_ge src.size skip with hbehind | hle
      · cases (next_of_padding (s := .ofOffset src skip) hbehind hlt).symm.trans hfault
      · obtain ⟨lexeme, s', hnext, -⟩ := (inText_ofOffset hle).safe.next
        cases hnext.symm.trans hfault
    · rw [next_of_paddedSize_le (s := .ofOffset src skip) hge]
      exact ⟨fun hfault => ⟨hge, (Except.error.inj hfault).symm⟩, fun ⟨_, hfault⟩ => hfault ▸ rfl⟩

/-- Sixty-three bytes, so that a single zero byte stands behind them; the last two are one character. -/
def oneZeroBehind : Source :=
  ⟨String.ofList (List.replicate 61 ' ' ++ ['é']), by decide +kernel⟩

/-- From inside the last character there is a word of one byte, up to the end of the text; behind the
zero byte the first call faults. -/
example :
    oneZeroBehind.size = 63 ∧ oneZeroBehind.paddedSize = 64 ∧
      next (.ofOffset oneZeroBehind 62) = .ok (⟨.token .word, 1⟩, .ofOffset oneZeroBehind 63) ∧
      next (.ofOffset oneZeroBehind 63) = .ok (⟨.finish, 0⟩, .ofOffset oneZeroBehind 63) ∧
      next (.ofOffset oneZeroBehind 64) = .error (.read ⟨64, 64⟩) := by
  decide +kernel

end Checked

end CssTokens
