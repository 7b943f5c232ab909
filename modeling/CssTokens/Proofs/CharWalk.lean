import CssTokens.Proofs.LineRules
import CssTokens.Proofs.Utf8Encoding

/-!
# CssTokens.Proofs.CharWalk — positions by walking over the characters

A reader finds the position of an offset by reading the text from its start, one character at a
time: a character is one column, and a line break puts the next character at the start of a new
line.  `walkTo` does just this and knows nothing of bytes.

At every offset between two characters it gives the spot of the offset (`walkTo_eq_spot`): the first
byte of a character takes the one step that the character takes, and the other bytes take none.

The last character of a stretch of text is found by stepping back over bytes
(`Utf8.lastCharOffset_beginsLast`).
-/

namespace CssTokens

set_option autoImplicit false

/-- The position behind a character, which may depend on the character that follows. -/
def Position.after (p : Position) (c : Char) (next? : Option Char) : Position :=
  if c = '\n' ∨ c = '\x0c' ∨ (c = '\r' ∧ next? ≠ some '\n') then ⟨p.line + 1, 1⟩
  else ⟨p.line, p.column + 1⟩

/-- Walks over the characters of the next `n` bytes. -/
def walk (p : Position) : List Char → Nat → Position
  | [], _ => p
  | c :: cs, n => if n = 0 then p else walk (p.after c cs.head?) cs (n - c.utf8Size)

/-- The position of an offset, found by walking there from the start of the text. -/
def walkTo (text : String) (offset : Nat) : Position :=
  walk ⟨1, 1⟩ text.toList offset

/-! ## One character -/

namespace Utf8

/-- Only an ASCII character begins with its own byte. -/
theorem head?_utf8EncodeChar_iff (c d : Char) (hd : d.toNat < 0x80) :
    (String.utf8EncodeChar c).head? = some (UInt8.ofNat d.toNat) ↔ c = d := by
  have hsmall {m n : Nat} (hm : m < 0x100) (hn : n < 0x100) :
      (some (UInt8.ofNat m) = some (UInt8.ofNat n)) ↔ m = n := by
    rw [Option.some.injEq, ← UInt8.toNat_inj, UInt8.toNat_ofNat_of_lt' hm,
      UInt8.toNat_ofNat_of_lt' hn]
  have heq : c = d ↔ c.toNat = d.toNat := ⟨congrArg Char.toNat, fun h => Char.toNat_inj.mp h⟩
  have hv : c.toNat = c.val.toNat := rfl
  rw [heq]
  fun_cases String.utf8EncodeChar c with
  | case1 v h => exact hsmall (by omega) (by omega)
  | case2 v h1 h =>
      rw [List.head?_cons, hsmall (by omega) (by omega)]
      omega
  | case3 v h1 h2 h =>
      rw [List.head?_cons, hsmall (by omega) (by omega)]
      omega
  | case4 v h1 h2 h3 =>
      rw [List.head?_cons, hsmall (by omega) (by omega)]
      omega

end Utf8

namespace LineRules

open Utf8

variable {text : String} {i : Nat} {c : Char} {cs : List Char}

theorem byte?_add (text : String) (i k : Nat) : byte? text (i + k) = ((bytes text).drop i)[k]? := by
  rw [byte?_eq, List.getElem?_drop]

theorem byte?_of_drop {b : UInt8} {bs : List UInt8} (h : (bytes text).drop i = b :: bs) :
    byte? text i = some b := by
  rw [byte?_eq, ← List.head?_drop, h, List.head?_cons]

theorem drop_succ_of_drop {b : UInt8} {bs : List UInt8} (h : (bytes text).drop i = b :: bs) :
    (bytes text).drop (i + 1) = bs := by
  rw [← List.drop_drop, h, List.drop_one, List.tail_cons]

theorem drop_char (h : (bytes text).drop i = (c :: cs).flatMap String.utf8EncodeChar) :
    (bytes text).drop (i + c.utf8Size) = cs.flatMap String.utf8EncodeChar := by
  rw [← List.drop_drop, h, List.flatMap_cons, ← String.length_utf8EncodeChar, List.drop_left]

/-- A character begins at its first byte. -/
theorem isLead_char (h : (bytes text).drop i = (c :: cs).flatMap String.utf8EncodeChar) :
    isLead text i = true := by
  obtain ⟨b, ds, hc, hlead, -⟩ := utf8EncodeChar_shape c
  rw [List.flatMap_cons, hc] at h
  rw [isLead, byte?_of_drop h, Option.any_some, hlead.2]
  rfl

/-- The other bytes of a character continue it. -/
theorem exists_isContinuation {n : Nat}
    (h : (bytes text).drop i = (c :: cs).flatMap String.utf8EncodeChar) (hn : 0 < n)
    (hlt : n < c.utf8Size) : ∃ d, byte? text (i + n) = some d ∧ isContinuation d = true := by
  obtain ⟨b, ds, hc, -, hds⟩ := utf8EncodeChar_shape c
  rw [← String.length_utf8EncodeChar, hc, List.length_cons] at hlt
  obtain ⟨k, rfl⟩ : ∃ k, n = k + 1 := ⟨n - 1, by omega⟩
  have hk : k < ds.length := Nat.lt_of_succ_lt_succ hlt
  refine ⟨ds[k], ?_, hds _ (List.getElem_mem hk)⟩
  rw [byte?_add, h, List.flatMap_cons, hc, List.cons_append, List.getElem?_cons_succ,
    List.getElem?_append_left hk, List.getElem?_eq_getElem hk]

/-- The line break that a character is, if it is one. -/
theorem breakEnds_iff (h : (bytes text).drop i = (c :: cs).flatMap String.utf8EncodeChar) :
    breakEnds text (i + 1) = true ↔
      c = '\n' ∨ c = '\x0c' ∨ (c = '\r' ∧ cs.head? ≠ some '\n') := by
  have hfirst : byte? text i = (String.utf8EncodeChar c).head? := by
    obtain ⟨b, ds, hc, -, -⟩ := utf8EncodeChar_shape c
    rw [byte?_eq, ← List.head?_drop, h, List.flatMap_cons, hc]
    rfl
  have hlf : byte? text i = some Byte.lineFeed ↔ c = '\n' := by
    rw [hfirst]
    exact head?_utf8EncodeChar_iff c '\n' (by decide)
  have hff : byte? text i = some Byte.formFeed ↔ c = '\x0c' := by
    rw [hfirst]
    exact head?_utf8EncodeChar_iff c '\x0c' (by decide)
  have hcr : byte? text i = some Byte.carriageReturn ↔ c = '\r' := by
    rw [hfirst]
    exact head?_utf8EncodeChar_iff c '\r' (by decide)
  have hnext (hc : c = '\r') : byte? text (i + 1) = some Byte.lineFeed ↔ cs.head? = some '\n' := by
    subst hc
    have hrest : byte? text (i + 1) = (cs.flatMap String.utf8EncodeChar).head? := by
      rw [byte?_add, h]
      exact (List.head?_eq_getElem? ..).symm
    rw [hrest]
    cases cs with
    | nil => simp
    | cons d cs =>
        obtain ⟨b, ds, hd, -, -⟩ := utf8EncodeChar_shape d
        have hiff := head?_utf8EncodeChar_iff d '\n' (by decide)
        rw [hd] at hiff
        rw [List.flatMap_cons, hd, List.head?_cons, Option.some.injEq]
        exact hiff
  simp only [breakEnds, Bool.or_eq_true, Bool.and_eq_true, beq_iff_eq, bne_iff_ne, hlf, hff, hcr,
    or_assoc]
  constructor
  · rintro (hc | hc | ⟨hc, hn⟩)
    · exact Or.inl hc
    · exact Or.inr (Or.inl hc)
    · exact Or.inr (Or.inr ⟨hc, fun hh => hn ((hnext hc).mpr hh)⟩)
  · rintro (hc | hc | ⟨hc, hn⟩)
    · exact Or.inl hc
    · exact Or.inr (Or.inl hc)
    · exact Or.inr (Or.inr ⟨hc, fun hh => hn ((hnext hc).mp hh)⟩)

theorem isLead_of_isContinuation {d : UInt8} (h : byte? text i = some d)
    (hd : isContinuation d = true) : isLead text i = false := by
  rw [isLead, h, Option.any_some, hd]
  rfl

theorem breakEnds_of_isContinuation {d : UInt8} (h : byte? text i = some d)
    (hd : isContinuation d = true) : breakEnds text (i + 1) = false := by
  apply Bool.eq_false_iff.mpr
  intro hb
  simp only [breakEnds, Bool.or_eq_true, Bool.and_eq_true, beq_iff_eq, h, Option.some.injEq] at hb
  rcases hb with (rfl | rfl) | ⟨rfl, -⟩
  · cases hd
  · cases hd
  · cases hd

/-- A byte that continues a character is no step. -/
theorem spot_of_isContinuation {d : UInt8} (h : byte? text i = some d)
    (hd : isContinuation d = true) : spot text (i + 1) = spot text i := by
  rw [spot_succ, breakEnds_of_isContinuation h hd, isLead_of_isContinuation h hd]
  rfl

theorem spot_of_continuations {ds rest : List UInt8} (h : (bytes text).drop i = ds ++ rest)
    (hds : ∀ d ∈ ds, isContinuation d = true) : spot text (i + ds.length) = spot text i := by
  induction ds generalizing i with
  | nil => rfl
  | cons d ds ih =>
      have hrest := ih (drop_succ_of_drop h) (fun e he => hds e (List.mem_cons_of_mem d he))
      rw [List.length_cons, Nat.add_comm ds.length 1, ← Nat.add_assoc, hrest]
      exact spot_of_isContinuation (byte?_of_drop h) (hds d List.mem_cons_self)

/-- Over the bytes of a character the spot takes the step of the character. -/
theorem spot_char (h : (bytes text).drop i = (c :: cs).flatMap String.utf8EncodeChar) :
    spot text (i + c.utf8Size) = (spot text i).after c cs.head? := by
  obtain ⟨b, ds, hc, -, hds⟩ := utf8EncodeChar_shape c
  have hsize : c.utf8Size = 1 + ds.length := by
    rw [← String.length_utf8EncodeChar, hc, List.length_cons, Nat.add_comm]
  have hdrop : (bytes text).drop (i + 1) = ds ++ cs.flatMap String.utf8EncodeChar := by
    rw [List.flatMap_cons, hc] at h
    exact drop_succ_of_drop h
  rw [hsize, ← Nat.add_assoc, spot_of_continuations hdrop hds, spot_succ, Position.after]
  by_cases hbreak : breakEnds text (i + 1) = true
  · rw [if_pos hbreak, if_pos ((breakEnds_iff h).mp hbreak)]
  · rw [if_neg hbreak, if_pos (isLead_char h), if_neg (fun hc => hbreak ((breakEnds_iff h).mpr hc))]

/-! ## The walk -/

/-- There is no boundary inside of a character. -/
theorem utf8Size_le_of_isBoundary {n : Nat}
    (h : (bytes text).drop i = (c :: cs).flatMap String.utf8EncodeChar) (hn : 0 < n)
    (hb : isBoundary text (i + n) = true) : c.utf8Size ≤ n := by
  apply Nat.le_of_not_lt
  intro hlt
  obtain ⟨d, hbyte, hd⟩ := exists_isContinuation h hn hlt
  have hlead := (isBoundary_iff_isLead (lt_size_of_byte? hbyte)).mp hb
  rw [isLead_of_isContinuation hbyte hd] at hlead
  cases hlead

theorem walk_eq_spot {n : Nat} (h : (bytes text).drop i = cs.flatMap String.utf8EncodeChar)
    (hb : isBoundary text (i + n) = true) : walk (spot text i) cs n = spot text (i + n) := by
  induction cs generalizing i n with
  | nil =>
      have hle := le_size_of_isBoundary hb
      have hlen := congrArg List.length h
      rw [List.length_drop, length_bytes, List.flatMap_nil, List.length_nil] at hlen
      have hn : n = 0 := by omega
      subst hn
      rfl
  | cons c cs ih =>
      rw [walk]
      by_cases hn : n = 0
      · rw [if_pos hn, hn]
        rfl
      · have hsize := utf8Size_le_of_isBoundary h (Nat.pos_of_ne_zero hn) hb
        have hsum : i + c.utf8Size + (n - c.utf8Size) = i + n := by omega
        rw [if_neg hn, ← spot_char h, ih (drop_char h) (by rwa [hsum]), hsum]

/-- **Between two characters, a walk over the characters and one over the bytes find the same
position.** -/
theorem walkTo_eq_spot {offset : Nat} (h : isBoundary text offset = true) :
    walkTo text offset = spot text offset := by
  have hwalk := walk_eq_spot (i := 0) (bytes_eq_flatMap text) (by rwa [Nat.zero_add])
  rw [Nat.zero_add] at hwalk
  exact hwalk

/-- A carriage return and the line feed behind it are two columns of one line. -/
example : walkTo "a\r\nb" 2 = ⟨1, 3⟩ ∧ walkTo "a\r\nb" 3 = ⟨2, 1⟩ := by decide

end LineRules

/-! ## The last character of a stretch -/

namespace Utf8

variable {text : String} {start stop : Nat}

/-- The last of the characters that begin from `start` on and before `stop` begins at `o`. -/
structure BeginsLast (text : String) (start stop o : Nat) : Prop where
  le : start ≤ o
  lt : o < stop
  boundary : isBoundary text o = true
  last : ∀ o', o < o' → o' < stop → isBoundary text o' = false

theorem boundaryBefore_beginsLast {i : Nat} (hstart : isBoundary text start = true)
    (hle : start ≤ i) : BeginsLast text start (i + 1) (boundaryBefore text start i) := by
  induction i with
  | zero =>
      obtain rfl : start = 0 := Nat.le_zero.mp hle
      exact ⟨Nat.le_refl 0, Nat.succ_pos 0, hstart, fun o' h h' => by omega⟩
  | succ i ih =>
      rw [boundaryBefore]
      by_cases hb : isBoundary text (i + 1) = true
      · rw [hb, Bool.not_true, Bool.and_false, if_neg Bool.false_ne_true]
        exact ⟨hle, Nat.lt_succ_self _, hb, fun o' h h' => by omega⟩
      · have hlt : start < i + 1 := by
          apply Nat.lt_of_le_of_ne hle
          rintro rfl
          exact hb hstart
        have hfalse : isBoundary text (i + 1) = false := Bool.eq_false_iff.mpr hb
        obtain ⟨hge, hlt', hbound, hlast⟩ := ih (Nat.le_of_lt_succ hlt)
        rw [hfalse, decide_eq_true hlt, Bool.not_false, Bool.and_true, if_pos rfl]
        refine ⟨hge, Nat.lt_succ_of_lt hlt', hbound, ?_⟩
        intro o' h h'
        rcases Nat.lt_or_eq_of_le (Nat.le_of_lt_succ h') with hless | rfl
        · exact hlast o' h hless
        · exact hfalse

theorem lastCharOffset_beginsLast (hstart : isBoundary text start = true) (hlt : start < stop) :
    BeginsLast text start stop (lastCharOffset text start stop) := by
  obtain ⟨i, rfl⟩ : ∃ i, stop = i + 1 := ⟨stop - 1, by omega⟩
  rw [lastCharOffset, if_neg (Nat.ne_of_lt hlt), Nat.add_sub_cancel]
  exact boundaryBefore_beginsLast hstart (Nat.le_of_lt_succ hlt)

end Utf8

end CssTokens
