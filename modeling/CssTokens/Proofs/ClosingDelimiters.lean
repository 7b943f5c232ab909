import Mathlib.Algebra.Group.Nat.Even
import Mathlib.Order.Bounds.Basic
import CssTokens.Proofs.Characters
import CssTokens.Proofs.NextLexeme

/-!
# CssTokens.Proofs.ClosingDelimiters — where strings and comments end, seen from the end

A quote closes a string if the backslashes right before it are even in number (`ClosesString`); who
wants to know this of a quote looks back from it, and not further than to the quote that opened the
string.  A scanner never looks back.  It goes from one escape to the next, each time over a whole
character, and takes the first quote that it comes to.  The two agree because behind an escape the
number of backslashes is even again (`escape_passes`).

A comment is closed by the first `*/` that begins behind its own opening (`ClosesComment`).

Both are stated of offsets, so the ends found are the least of all offsets that close
(`FirstFrom`, `ends_exact`).
-/

namespace CssTokens

set_option autoImplicit false

open ByteRules Utf8
open LineRules (byte?_add byte?_of_drop drop_succ_of_drop)

namespace ClosingDelimiters

variable (text : String)

/-! ## Offsets that close -/

/-- Number of the backslashes in a row that end right before an offset, as far as they stand behind
`start`. -/
def backslashesBefore (start : Nat) : Nat → Nat
  | 0 => 0
  | o + 1 =>
      if start < o ∧ byte? text o = some Byte.backslash then backslashesBefore start o + 1 else 0

/-- The quote at an offset closes a string that was opened at `start`. -/
structure ClosesString (quote : UInt8) (start o : Nat) : Prop where
  lt : start < o
  quote : byte? text o = some quote
  even : Even (backslashesBefore text start o)

/-- The `*/` at an offset closes a comment that was opened at `start`. -/
structure ClosesComment (start o : Nat) : Prop where
  le : start + 2 ≤ o
  star : byte? text o = some Byte.star
  slash : byte? text (o + 1) = some Byte.slash

/-- What a search from an offset on finds: the first of the delimiters of `width` bytes that close,
with what there is before it, or that none closes. -/
def FirstFrom (closes : Nat → Prop) (width i : Nat) : Ending × Nat → Prop
  | (.closed, n) => ∃ o, IsLeast {o | i ≤ o ∧ closes o} o ∧ i + n = o + width
  | (.quoted, _) => False
  | (.missing, _) => ∀ o, i ≤ o → ¬ closes o

variable {text} {closes : Nat → Prop} {width start i : Nat} {found : Ending × Nat} {quote : UInt8}
  {b : UInt8} {bs : List UInt8}

theorem FirstFrom.behind {n : Nat} (h : FirstFrom closes width (i + n) found)
    (hnone : ∀ o, i ≤ o → o < i + n → ¬ closes o) : FirstFrom closes width i (behind n found) := by
  have hskip {o : Nat} (hle : i ≤ o) (ho : closes o) : i + n ≤ o :=
    Nat.le_of_not_lt fun hlt => hnone o hle hlt ho
  obtain ⟨ending, m⟩ := found
  cases ending with
  | closed =>
      obtain ⟨o, ⟨⟨hle, ho⟩, hleast⟩, hsum⟩ := h
      refine ⟨o, ⟨⟨Nat.le_trans (Nat.le_add_right i n) hle, ho⟩, ?_⟩, ?_⟩
      · intro o' ho'
        exact hleast ⟨hskip ho'.1 ho'.2, ho'.2⟩
      · rw [← hsum, Nat.add_assoc]
  | quoted => exact h
  | missing => exact fun o hle ho => h o (hskip hle ho) ho

/-- Where the text is over nothing closes. -/
theorem firstFrom_nil (h : (bytes text).drop i = []) (n : Nat)
    (hcloses : ∀ o, closes o → byte? text o ≠ none) : FirstFrom closes width i (.missing, n) := by
  intro o hle ho
  apply hcloses o ho
  rw [byte?_eq_none_iff, ← length_bytes]
  exact Nat.le_trans (List.drop_eq_nil_iff.mp h) hle

/-! ## Strings -/

theorem backslashesBefore_succ (hlt : start < i) (hb : byte? text i = some Byte.backslash) :
    backslashesBefore text start (i + 1) = backslashesBefore text start i + 1 :=
  if_pos ⟨hlt, hb⟩

theorem backslashesBefore_of_ne (hb : byte? text i ≠ some Byte.backslash) :
    backslashesBefore text start (i + 1) = 0 :=
  if_neg fun h => hb h.2

theorem quote_ne_backslash (hquote : Byte.isQuote quote = true) : quote ≠ Byte.backslash := by
  rintro rfl
  cases hquote

theorem not_closesString (hb : byte? text i = some b) (hne : b ≠ quote) :
    ¬ ClosesString text quote start i := by
  intro h
  rw [h.quote] at hb
  exact hne (Option.some.inj hb).symm

/-- Over a backslash and the character behind it: nothing in them closes a string, and an even number
of backslashes becomes an even number again. -/
theorem escape_passes (hquote : Byte.isQuote quote = true) (hlt : start < i)
    (h : (bytes text).drop i = Byte.backslash :: b :: bs)
    (heven : Even (backslashesBefore text start i)) :
    Even (backslashesBefore text start (i + (charLength (b :: bs) + 1))) ∧
      ∀ o, i ≤ o → o < i + (charLength (b :: bs) + 1) → ¬ ClosesString text quote start o := by
  have hback : byte? text i = some Byte.backslash := byte?_of_drop h
  have hencoded : Encoded (b :: bs) := by
    rw [← drop_succ_of_drop h]
    exact (encoded_bytes text).drop_succ (by rw [← byte?_eq, hback]) (by decide)
  obtain ⟨ds, rest, rfl, hlead, hds, -⟩ := hencoded.uncons
  have hlen : charLength (b :: (ds ++ rest)) = ds.length + 1 := by
    rw [charLength, hlead.1, List.length_append]
    omega
  -- The bytes of the character but its first are neither quotes nor backslashes.
  have hcont {k : Nat} (hk : k < ds.length) {d : UInt8}
      (hd : byte? text (i + (k + 2)) = some d) : isContinuation d = true := by
    rw [byte?_add, h, List.getElem?_cons_succ, List.getElem?_cons_succ,
      List.getElem?_append_left hk] at hd
    exact hds d (List.mem_of_getElem? hd)
  have hodd : ¬ Even (backslashesBefore text start (i + 1)) := by
    rw [backslashesBefore_succ hlt hback, Nat.even_add_one, not_not]
    exact heven
  rw [hlen]
  constructor
  · by_cases hlast : byte? text (i + (ds.length + 1)) = some Byte.backslash
    · cases ds with
      | nil =>
          rw [← Nat.add_assoc, backslashesBefore_succ (Nat.lt_add_right _ hlt) hlast,
            Nat.even_add_one]
          exact hodd
      | cons d ds => cases hcont (k := ds.length) (Nat.lt_succ_self _) hlast
    · rw [← Nat.add_assoc, backslashesBefore_of_ne hlast]
      exact Even.zero
  · intro o hle ho hcloses
    obtain ⟨k, rfl⟩ := Nat.exists_eq_add_of_le hle
    rcases k with _ | _ | k
    · exact not_closesString hback (quote_ne_backslash hquote).symm hcloses
    · exact hodd hcloses.even
    · have hfalse := hcont (k := k) (by omega) hcloses.quote
      rw [(leads_of_lt (lt_of_isQuote hquote)).2] at hfalse
      cases hfalse

/-- **The search for the end of a string finds the first quote that closes it.** -/
theorem string_firstFrom (hquote : Byte.isQuote quote = true) (hlt : start < i)
    (h : (bytes text).drop i = bs) (heven : Even (backslashesBefore text start i)) :
    FirstFrom (ClosesString text quote start) 1 i (string quote bs) := by
  have hover {o : Nat} (ho : ClosesString text quote start o) : byte? text o ≠ none := by
    rw [ho.quote]
    exact Option.some_ne_none _
  fun_induction string quote bs generalizing i with
  | case1 => exact firstFrom_nil h 0 fun _ => hover
  | case2 bs ih =>
      cases bs with
      | nil =>
          -- A backslash at the end of the text escapes nothing.
          rw [List.drop_nil, string]
          apply FirstFrom.behind (firstFrom_nil (drop_succ_of_drop h) 0 fun _ => hover)
          intro o hle ho
          have hzero : charLength [] = 0 := rfl
          obtain rfl : o = i := by omega
          exact not_closesString (byte?_of_drop h) (quote_ne_backslash hquote).symm
      | cons b bs =>
          obtain ⟨heven', hnone⟩ := escape_passes hquote hlt h heven
          apply FirstFrom.behind _ hnone
          apply ih
          · omega
          · rw [← List.drop_drop, h, List.drop_succ_cons]
          · exact heven'
  | case3 bs hne =>
      refine ⟨i, ⟨⟨Nat.le_refl i, hlt, byte?_of_drop h, heven⟩, fun o ho => ho.1⟩, rfl⟩
  | case4 b bs hback hne ih =>
      have hbyte : byte? text i = some b := byte?_of_drop h
      apply FirstFrom.behind
      · apply ih (i := i + 1)
        · omega
        · exact drop_succ_of_drop h
        · rw [backslashesBefore_of_ne (by rw [hbyte]; exact fun hb => hback (Option.some.inj hb))]
          exact Even.zero
      · intro o hle ho
        obtain rfl : o = i := by omega
        exact not_closesString hbyte hne

/-! ## Comments -/

/-- **The search for the end of a comment finds the first that closes it.** -/
theorem comment_firstFrom (hle : start + 2 ≤ i) (h : (bytes text).drop i = bs) :
    FirstFrom (ClosesComment text start) 2 i (comment bs) := by
  fun_induction comment bs generalizing i with
  | case1 =>
      apply firstFrom_nil h 0
      intro o ho
      rw [ho.star]
      exact Option.some_ne_none _
  | case2 b bs hend =>
      obtain ⟨rfl, hslash⟩ := hend
      refine ⟨i, ⟨⟨Nat.le_refl i, hle, byte?_of_drop h, ?_⟩, fun o ho => ho.1⟩, rfl⟩
      obtain ⟨more, rfl⟩ := List.head?_eq_some_iff.mp hslash
      exact byte?_of_drop (drop_succ_of_drop h)
  | case3 b bs hne ih =>
      apply FirstFrom.behind
      · exact ih (i := i + 1) (by omega) (drop_succ_of_drop h)
      · intro o hle' ho hcloses
        obtain rfl : o = i := by omega
        apply hne
        have hstar := hcloses.star
        have hslash := hcloses.slash
        rw [byte?_of_drop h] at hstar
        rw [byte?_eq, ← List.head?_drop, drop_succ_of_drop h] at hslash
        exact ⟨Option.some.inj hstar, hslash⟩

end ClosingDelimiters

namespace Scanner

open ClosingDelimiters

variable {src : Source} {s : Scanner src} {b : UInt8}

/-- What a step finds that is made at the opening delimiter of a construct, for the offsets at which a
closing delimiter of `width` bytes stands. -/
structure FindsClosing (s : Scanner src) (construct : Unclosed) (width : Nat)
    (closes : Nat → Prop) (l : Lexeme) (s' : Scanner src) : Prop where
  pos_eq : s'.pos = s.pos + l.length
  /-- The construct is a token if it is closed, up to and with the first that closes it. -/
  closed : ∀ n, l = ⟨.token construct.kind, n⟩ ↔
    ∃ o, IsLeast {o | closes o} o ∧ s.pos + n = o + width
  /-- It lacks its end if nothing closes it, and then it reaches to the end of the text. -/
  missing : l = ⟨.unclosed construct, src.size - s.pos⟩ ↔ ¬ ∃ o, closes o

theorem findsClosing_of_firstFrom {construct : Unclosed} {width n : Nat} {closes : Nat → Prop}
    {found : Ending × Nat} {s' : Scanner src}
    (hfound : FirstFrom closes width (s.pos + n) found)
    (hcloses : ∀ o, closes o → s.pos + n ≤ o)
    (hpos : s'.pos = s.pos + (enclosed construct n found).length)
    (hend : found.1 = .missing → n + found.2 = src.size - s.pos) :
    s.FindsClosing construct width closes (enclosed construct n found) s' := by
  have hset : {o | s.pos + n ≤ o ∧ closes o} = {o | closes o} :=
    Set.ext fun o => ⟨fun ho => ho.2, fun ho => ⟨hcloses o ho, ho⟩⟩
  obtain ⟨ending, m⟩ := found
  cases ending with
  | closed =>
      obtain ⟨o, hleast, hsum⟩ := hfound
      rw [hset] at hleast
      refine ⟨hpos, fun k => ⟨?_, ?_⟩, iff_of_false nofun fun hnone => hnone ⟨o, hleast.1⟩⟩
      · intro hl
        cases hl
        exact ⟨o, hleast, by rw [← hsum, Nat.add_assoc]⟩
      · rintro ⟨o', hleast', hsum'⟩
        obtain rfl := hleast.unique hleast'
        have hk : k = n + m := by omega
        rw [hk]
        rfl
  | quoted => exact hfound.elim
  | missing =>
      have hnone : ¬ ∃ o, closes o := fun ⟨o, ho⟩ => hfound o (hcloses o ho) ho
      refine ⟨hpos, fun k => iff_of_false nofun fun ⟨o, hleast, _⟩ => hnone ⟨o, hleast.1⟩,
        iff_of_true ?_ hnone⟩
      rw [enclosed, hend rfl]

/-- A step at an opening delimiter of `n` bytes finds the first that closes, if the rule for the bytes
behind the delimiter does. -/
theorem next_findsClosing {construct : Unclosed} {width n : Nat} {closes : Nat → Prop} {close : UInt8}
    {found : Ending × Nat} (hb : s.cursor.current = .ok b) (hne : b ≠ Byte.openParen)
    (hn : s.pos + n ≤ src.size) (hlexeme : lexeme s.cursor.rest = enclosed construct n found)
    (hreaches : Reaches close (src.bytes.drop (s.pos + n)) found)
    (hfound : FirstFrom closes width (s.pos + n) found)
    (hcloses : ∀ o, closes o → s.pos + n ≤ o) :
    ∃ l s', s.next = .ok (l, s') ∧ s.FindsClosing construct width closes l s' := by
  obtain ⟨s', hnext, hpos⟩ := next_of_ne_openParen (by omega) hb hne
  rw [hlexeme] at hnext hpos
  refine ⟨_, s', hnext, findsClosing_of_firstFrom hfound hcloses hpos ?_⟩
  intro hmissing
  rw [hreaches.length_of_missing hmissing, List.length_drop, Source.length_bytes]
  omega

/-- **Strings and comments end at the first delimiter that closes them.** -/
theorem ends_exact (s : Scanner src) :
    (∀ quote, s.cursor.current = .ok quote → Byte.isQuote quote = true →
      ∃ l s', s.next = .ok (l, s') ∧
        s.FindsClosing .string 1 (ClosesString src.text quote s.pos) l s') ∧
    (s.cursor.current = .ok Byte.slash → s.cursor.peek = .ok Byte.star →
      ∃ l s', s.next = .ok (l, s') ∧
        s.FindsClosing .comment 2 (ClosesComment src.text s.pos) l s' ∧
        ∀ n, l = ⟨.token .comment, n⟩ → 4 ≤ n) := by
  constructor
  · intro quote hb hquote
    have hzero : quote ≠ 0 := by
      rintro rfl
      cases hquote
    have hne : quote ≠ Byte.openParen := by
      rintro rfl
      cases hquote
    obtain ⟨bs, hr⟩ := Cursor.exists_rest_of_current hb hzero
    have hdrop : src.bytes.drop (s.pos + 1) = bs := Cursor.rest_advance_one hr
    have hlexeme : lexeme s.cursor.rest = enclosed .string 1 (string quote bs) := by
      rw [hr, lexeme, Opening.ofByte_of_isQuote hquote]
    apply next_findsClosing hb hne (Cursor.lt_size_of_rest hr) hlexeme
    · rw [hdrop]
      exact string_reaches quote bs
    · apply string_firstFrom hquote (Nat.lt_succ_self _) hdrop
      have hnone : backslashesBefore src.text s.pos (s.pos + 1) = 0 :=
        if_neg fun h => Nat.lt_irrefl _ h.1
      rw [hnone]
      exact Even.zero
    · exact fun o ho => ho.lt
  · intro hb hpeek
    obtain ⟨bs, hr⟩ := Cursor.exists_rest_of_current hb (by decide)
    have hstar : bs.head? = some Byte.star := by
      rw [Cursor.peek_of_rest hr] at hpeek
      exact (Cursor.head?_getD_eq_iff (by decide)).mp (Except.ok.inj hpeek)
    obtain ⟨bs, rfl⟩ := List.head?_eq_some_iff.mp hstar
    have hone : src.bytes.drop (s.pos + 1) = Byte.star :: bs := Cursor.rest_advance_one hr
    have hdrop : src.bytes.drop (s.pos + 2) = bs := drop_succ_of_drop hone
    have hlexeme : lexeme s.cursor.rest = enclosed .comment 2 (comment bs) := by
      rw [hr]
      rfl
    have hle : s.pos + 2 ≤ src.size := lt_size_of_byte? (byte?_of_drop hone)
    have hreaches : Reaches Byte.slash (src.bytes.drop (s.pos + 2)) (comment bs) := by
      rw [hdrop]
      exact comment_reaches bs
    obtain ⟨l, s', hnext, hfinds⟩ := next_findsClosing hb (by decide) hle hlexeme hreaches
      (comment_firstFrom (Nat.le_refl _) hdrop) fun o ho => ho.le
    refine ⟨l, s', hnext, hfinds, ?_⟩
    intro n hl
    obtain ⟨o, hleast, hsum⟩ := (hfinds.closed n).mp hl
    have hle : s.pos + 2 ≤ o := hleast.1.le
    omega

/-- A string with three escapes, one of them of a quote and one of a backslash before its end, and a
comment whose opener is followed by a slash. -/
def escapesAndSlash : Source :=
  ⟨"'\\'\\é\"\\\\'/*/*/", by decide⟩

/-- The string ends at its third quote, and the comment at the second `*/` of the text. -/
theorem ends_exact_of_escapesAndSlash :
    let s : Scanner escapesAndSlash := ofCursor ⟨0⟩
    let s' : Scanner escapesAndSlash := ofCursor ⟨10⟩
    let s'' : Scanner escapesAndSlash := ofCursor ⟨15⟩
    s.cursor.current = .ok Byte.singleQuote ∧ Byte.isQuote Byte.singleQuote = true ∧
      s.next = .ok (⟨.token .string, 10⟩, s') ∧
      s.FindsClosing .string 1 (ClosesString escapesAndSlash.text Byte.singleQuote 0)
        ⟨.token .string, 10⟩ s' ∧
      s'.cursor.current = .ok Byte.slash ∧ s'.cursor.peek = .ok Byte.star ∧
      s'.next = .ok (⟨.token .comment, 5⟩, s'') ∧
      s'.FindsClosing .comment 2 (ClosesComment escapesAndSlash.text 10) ⟨.token .comment, 5⟩ s'' := by
  intro s s' s''
  have hquote : s.cursor.current = .ok Byte.singleQuote := by decide +kernel
  have hslash : s'.cursor.current = .ok Byte.slash := by decide +kernel
  have hstar : s'.cursor.peek = .ok Byte.star := by decide +kernel
  have hstring : s.next = .ok (⟨.token .string, 10⟩, s') := by decide +kernel
  have hcomment : s'.next = .ok (⟨.token .comment, 5⟩, s'') := by decide +kernel
  obtain ⟨l, t, hnext, hfinds⟩ := (ends_exact s).1 Byte.singleQuote hquote (by decide)
  cases hstring.symm.trans hnext
  obtain ⟨l, t, hnext', hfinds', -⟩ := (ends_exact s').2 hslash hstar
  cases hcomment.symm.trans hnext'
  exact ⟨hquote, by decide, hstring, hfinds, hslash, hstar, hcomment, hfinds'⟩

end Scanner

end CssTokens
