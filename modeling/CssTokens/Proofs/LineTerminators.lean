import CssTokens.Proofs.Characters
import CssTokens.Proofs.LineLookup

/-!
# CssTokens.Proofs.LineTerminators — lines and columns by counting

Whoever counts lines by hand goes through the characters of the text and notes where each line
terminator ends (`terminatorEnds`) and where each character begins (`charOffsets`).  The line of an
offset is then one more than the number of ends up to it.  Its column is one more than the number of
characters that begin before it but not before the last of these ends.

The index looks at bytes, has a table of line starts and halves it.  The table is the list of ends
with a zero in front (`starts_eq_terminatorEnds`), and the bytes that begin a character stand at the
offsets of the characters (`charOffsets_eq_offsetsFrom`).  So the positions are the same, also inside of a
character, between the two characters of a line break, and behind the text
(`position_counts_terminators`).
-/

namespace CssTokens

set_option autoImplicit false

open Utf8 LineRules

/-! ## Counting by hand -/

/-- Where the line terminators end in characters of which the first begins at an offset. -/
def terminatorEnds (offset : Nat) : List Char → List Nat
  | [] => []
  | '\r' :: '\n' :: cs => (offset + 2) :: terminatorEnds (offset + 2) cs
  | c :: cs =>
      if c = '\n' ∨ c = '\x0c' ∨ c = '\r' then (offset + 1) :: terminatorEnds (offset + 1) cs
      else terminatorEnds (offset + c.utf8Size) cs

/-- A line break of two characters ends once, and behind it is a line that a form feed ends. -/
example : terminatorEnds 0 "é\r\n\x0c".toList = [4, 5] := by decide

/-- Where the characters begin of which the first begins at an offset. -/
def charOffsets (offset : Nat) : List Char → List Nat
  | [] => []
  | c :: cs => offset :: charOffsets (offset + c.utf8Size) cs

/-- The last of some ends that is not behind an offset, or zero if there is none. -/
def lastEnd (ends : List Nat) (offset : Nat) : Nat :=
  (ends.filter (· ≤ offset)).getLast?.getD 0

/-! ## What is noted by hand is found in the bytes -/

variable {text : String} {i : Nat} {c : Char} {cs : List Char}

/-- The offsets from `i` to the end of the text that satisfy `p`. -/
def offsetsFrom (text : String) (p : Nat → Bool) (i : Nat) : List Nat :=
  (List.range' i (text.utf8ByteSize - i)).filter p

theorem offsetsFrom_nil (p : Nat → Bool) (h : (bytes text).drop i = []) :
    offsetsFrom text p i = [] := by
  have hle : text.utf8ByteSize ≤ i := by
    rw [← length_bytes]
    exact List.drop_eq_nil_iff.mp h
  rw [offsetsFrom, Nat.sub_eq_zero_of_le hle]
  rfl

/-- Where no continuation byte satisfies `p`, at most the first byte of a character does. -/
theorem offsetsFrom_char {p : Nat → Bool}
    (hp : ∀ k d, byte? text k = some d → isContinuation d = true → p k = false)
    (h : (bytes text).drop i = encode (c :: cs)) :
    offsetsFrom text p i =
      (if p i then [i] else []) ++ offsetsFrom text p (i + c.utf8Size) := by
  have hlen : text.utf8ByteSize - i = c.utf8Size + (text.utf8ByteSize - (i + c.utf8Size)) := by
    have hlen := congrArg List.length h
    rw [List.length_drop, length_bytes, encode_cons, List.length_append,
      String.length_utf8EncodeChar] at hlen
    omega
  obtain ⟨n, hsize⟩ : ∃ n, c.utf8Size = n + 1 := Nat.exists_eq_add_one.mpr c.utf8Size_pos
  have hrest : (List.range' (i + 1) n).filter p = [] := by
    apply List.filter_eq_nil_iff.mpr
    intro k hk
    obtain ⟨hle, hlt⟩ := List.mem_range'_1.mp hk
    obtain ⟨m, rfl⟩ := Nat.exists_eq_add_of_le hle
    obtain ⟨d, hbyte, hd⟩ := exists_isContinuation (n := 1 + m) h (by omega) (by omega)
    rw [← Nat.add_assoc] at hbyte
    rw [hp _ d hbyte hd]
    exact Bool.false_ne_true
  rw [offsetsFrom, hlen, ← List.range'_append_1, List.filter_append, hsize, List.range'_succ,
    List.filter_cons, hrest]
  rfl

/-- Characters begin at the bytes that continue none. -/
theorem charOffsets_eq_offsetsFrom (h : (bytes text).drop i = encode cs) :
    charOffsets i cs = offsetsFrom text (isLead text) i := by
  induction cs generalizing i with
  | nil => exact (offsetsFrom_nil _ h).symm
  | cons c cs ih =>
      rw [charOffsets, offsetsFrom_char (fun _ _ => isLead_of_isContinuation) h, if_pos (isLead_char h),
        ih (drop_char h)]
      rfl

/-- A character ends a line if it is a line terminator that no other character completes. -/
theorem breaks_char (h : (bytes text).drop i = encode (c :: cs)) :
    offsetsFrom text (fun k => breakEnds text (k + 1)) i =
      (if c = '\n' ∨ c = '\x0c' ∨ (c = '\r' ∧ cs.head? ≠ some '\n') then [i] else []) ++
        offsetsFrom text (fun k => breakEnds text (k + 1)) (i + c.utf8Size) := by
  rw [offsetsFrom_char (fun _ _ => breakEnds_of_isContinuation) h]
  simp only [breakEnds_iff h]

/-- Line terminators end where line breaks do. -/
theorem terminatorEnds_eq_offsetsFrom (h : (bytes text).drop i = encode cs) :
    terminatorEnds i cs = (offsetsFrom text (fun k => breakEnds text (k + 1)) i).map (· + 1) := by
  fun_induction terminatorEnds i cs with
  | case1 i => rw [offsetsFrom_nil _ h, List.map_nil]
  | case2 i cs ih =>
      -- The carriage return ends nothing, and the line feed behind it does.
      have hreturn : ¬ ('\r' = '\n' ∨ '\r' = '\x0c' ∨
          ('\r' = '\r' ∧ ('\n' :: cs).head? ≠ some '\n')) := by
        simp
      have hfeed : (bytes text).drop (i + 1) = encode ('\n' :: cs) := drop_char h
      have hone : '\r'.utf8Size = 1 := rfl
      rw [breaks_char h, if_neg hreturn, hone, breaks_char hfeed, if_pos (Or.inl rfl),
        ih (drop_char hfeed)]
      rfl
  | case3 i c cs hreturn hc ih =>
      have hbreak : c = '\n' ∨ c = '\x0c' ∨ (c = '\r' ∧ cs.head? ≠ some '\n') := by
        refine hc.imp_right (Or.imp_right fun hcr => ⟨hcr, fun hhead => ?_⟩)
        obtain ⟨more, hcs⟩ := List.head?_eq_some_iff.mp hhead
        exact hreturn more hcr hcs
      have hsize : c.utf8Size = 1 := by
        rcases hc with rfl | rfl | rfl
        · rfl
        · rfl
        · rfl
      have hdrop : (bytes text).drop (i + 1) = encode cs := by
        rw [← hsize]
        exact drop_char h
      rw [breaks_char h, if_pos hbreak, hsize, ih hdrop]
      rfl
  | case4 i c cs hreturn hc ih =>
      have hbreak : ¬ (c = '\n' ∨ c = '\x0c' ∨ (c = '\r' ∧ cs.head? ≠ some '\n')) :=
        fun hb => hc (hb.imp_right (Or.imp_right And.left))
      rw [breaks_char h, if_neg hbreak, ih (drop_char h), List.nil_append]

/-! ## Lines and columns -/

/-- **The table of the index is the list of the ends, with a zero in front.** -/
theorem starts_eq_terminatorEnds (text : String) :
    starts text = 0 :: terminatorEnds 0 text.toList := by
  have hrange : List.range' 1 text.utf8ByteSize = (List.range' 0 text.utf8ByteSize).map (· + 1) := by
    simp only [Nat.add_comm _ 1, List.map_add_range']
  have hbytes : (bytes text).drop 0 = encode text.toList := (encode_toList text).symm
  rw [terminatorEnds_eq_offsetsFrom hbytes, ← build_starts, LineIndex.build, startsFrom_toList,
    offsetsFrom, Nat.sub_zero, Nat.zero_add, hrange, List.filter_map]
  rfl

/-- The ends up to an offset are as many as there are lines before, and the last is the start of its
line. -/
theorem terminatorEnds_upTo {o : Nat} (h : o ≤ text.utf8ByteSize) :
    1 + (terminatorEnds 0 text.toList).countP (· ≤ o) = line text o ∧
      lastEnd (terminatorEnds 0 text.toList) o = start text o := by
  obtain ⟨before, behind, hstarts, hlen, hbefore, hbehind⟩ := starts_split text h
  have hall : before.filter (· ≤ o) = before :=
    List.filter_eq_self.mpr fun s hs => decide_eq_true (hbefore s hs)
  have hnone : behind.filter (· ≤ o) = [] :=
    List.filter_eq_nil_iff.mpr fun s hs hle =>
      Nat.not_le_of_lt (hbehind s hs) (of_decide_eq_true hle)
  have hupTo : (starts text).filter (· ≤ o) = before ++ [start text o] := by
    rw [hstarts, List.filter_append, hall, List.filter_cons, hnone,
      if_pos (decide_eq_true (start_le text o))]
  rw [starts_eq_terminatorEnds, List.filter_cons, if_pos (decide_eq_true (Nat.zero_le o))] at hupTo
  constructor
  · rw [List.countP_eq_length_filter, ← hlen, Nat.add_comm, ← List.length_cons (a := 0), hupTo,
      List.length_append, List.length_singleton]
  · have hlast := congrArg List.getLast? hupTo
    rw [List.getLast?_cons, List.getLast?_append] at hlast
    exact Option.some.inj hlast

theorem countLeads_eq_countP (text : String) (i n : Nat) :
    countLeads text i n 0 = (List.range' i n).countP (isLead text) := by
  induction n generalizing i with
  | zero => rfl
  | succ n ih =>
      rw [countLeads, countLeads_add, ih, List.range'_succ, List.countP_cons, Nat.zero_add,
        Nat.add_comm]

theorem filter_between {a b n : Nat} (hab : a ≤ b) (hb : b ≤ n) :
    (List.range' 0 n).filter (fun k => a ≤ k ∧ k < b) = List.range' a (b - a) := by
  have hsplit : List.range' 0 n =
      List.range' 0 a ++ (List.range' a (b - a) ++ List.range' b (n - b)) := by
    have hbehind := List.range'_append_1 (s := a) (m := b - a) (n := n - b)
    have hbefore := List.range'_append_1 (s := 0) (m := a) (n := b - a + (n - b))
    have hmid : a + (b - a) = b := by omega
    have hsize : a + (b - a + (n - b)) = n := by omega
    rw [hmid] at hbehind
    rw [Nat.zero_add, hsize] at hbefore
    rw [hbehind, hbefore]
  rw [hsplit, List.filter_append, List.filter_append, List.filter_eq_nil_iff.mpr,
    List.filter_eq_self.mpr, List.filter_eq_nil_iff.mpr, List.nil_append, List.append_nil]
  all_goals
    intro k hk
    have hbounds := List.mem_range'_1.mp hk
    simp only [decide_eq_true_eq]
    omega

/-- The characters that begin between two offsets are counted. -/
theorem countChars_eq_countP {a b : Nat} (hab : a ≤ b) (hb : b ≤ text.utf8ByteSize) :
    countChars text a b = (charOffsets 0 text.toList).countP (fun k => a ≤ k ∧ k < b) := by
  have hbytes : (bytes text).drop 0 = encode text.toList := (encode_toList text).symm
  calc countChars text a b
      = (List.range' a (b - a)).countP (isLead text) := countLeads_eq_countP text a (b - a)
    _ = ((List.range' 0 text.utf8ByteSize).filter fun k => a ≤ k ∧ k < b).countP (isLead text) := by
        rw [filter_between hab hb]
    _ = ((List.range' 0 text.utf8ByteSize).filter (isLead text)).countP
          (fun k => a ≤ k ∧ k < b) := by
        rw [List.countP_filter, List.countP_filter]
        simp only [Bool.and_comm]
    _ = (charOffsets 0 text.toList).countP (fun k => a ≤ k ∧ k < b) := by
        rw [charOffsets_eq_offsetsFrom hbytes, offsetsFrom, Nat.sub_zero]

/-- **Positions are found by counting line terminators and characters.** -/
theorem LineIndex.position_counts_terminators (src : Source) (offset : Nat) :
    (build src.text).position src.text offset =
      let o := min offset src.size
      let ends := terminatorEnds 0 src.text.toList
      ⟨1 + ends.countP (· ≤ o),
        1 + (charOffsets 0 src.text.toList).countP (fun k => lastEnd ends o ≤ k ∧ k < o)⟩ := by
  have hle : min offset src.size ≤ src.text.utf8ByteSize := Nat.min_le_right _ _
  obtain ⟨hline, hstart⟩ := terminatorEnds_upTo hle
  have hcolumn := countChars_eq_countP (start_le src.text (min offset src.size)) hle
  simp only [hline, hstart, ← hcolumn]
  exact locate_eq_spot offset (ColumnHint.valid_initial src.text)

end CssTokens
