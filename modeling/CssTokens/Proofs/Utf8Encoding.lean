import CssTokens.Utf8

/-!
# CssTokens.Proofs.Utf8Encoding — where characters begin and end

Bytes are `Encoded` if they are those of some characters, one after the other.  The first byte of a
character tells how long it is, and the others are continuation bytes (`utf8EncodeChar_shape`).  So
encoded bytes stay encoded without their first character (`Encoded.uncons`), without an ASCII byte at
the front (`Encoded.tail`), and from any byte on that continues no character (`Encoded.drop`).

An offset of a text is a boundary exactly if the bytes from it on are encoded
(`isBoundary_iff_encoded`), which turns facts about offsets into facts about lists.
-/

namespace CssTokens.Utf8

set_option autoImplicit false

/-! ## Bytes of one character -/

/-- The byte begins a character of `n` bytes. -/
def Leads (b : UInt8) (n : Nat) : Prop :=
  width b = n ∧ isContinuation b = false

instance (b : UInt8) (n : Nat) : Decidable (Leads b n) :=
  inferInstanceAs (Decidable (_ ∧ _))

theorem leads_one : ∀ n : Fin 0x80, Leads (UInt8.ofNat n.val) 1 := by decide +kernel

theorem leads_two : ∀ n : Fin 0x20, Leads (UInt8.ofNat (n.val + 0xC0)) 2 := by decide +kernel

theorem leads_three : ∀ n : Fin 0x10, Leads (UInt8.ofNat (n.val + 0xE0)) 3 := by decide +kernel

theorem leads_four : ∀ n : Fin 0x08, Leads (UInt8.ofNat (n.val + 0xF0)) 4 := by decide +kernel

theorem continues_ofNat (n : Nat) : isContinuation (UInt8.ofNat (n % 0x40 + 0x80)) = true := by
  have hall : ∀ k : Fin 0x40, isContinuation (UInt8.ofNat (k.val + 0x80)) = true := by decide +kernel
  exact hall ⟨n % 0x40, Nat.mod_lt n (by decide)⟩

/-- The first byte of a character tells its length and continues nothing; the other bytes continue
it. -/
theorem utf8EncodeChar_shape (c : Char) :
    ∃ b bs, String.utf8EncodeChar c = b :: bs ∧ Leads b (bs.length + 1) ∧
      ∀ d ∈ bs, isContinuation d = true := by
  have hmod (n : Nat) {k : Nat} (hk : 0 < k) : n % k < k := Nat.mod_lt n hk
  fun_cases String.utf8EncodeChar c with
  | case1 v h => exact ⟨_, [], rfl, leads_one ⟨v, Nat.lt_succ_of_le h⟩, nofun⟩
  | case2 v h1 h =>
      refine ⟨_, _, rfl, leads_two ⟨v / 64 % 0x20, hmod _ (by decide)⟩, ?_⟩
      intro d hd
      simp only [List.mem_cons, List.not_mem_nil, or_false] at hd
      subst hd
      exact continues_ofNat _
  | case3 v h1 h2 h =>
      refine ⟨_, _, rfl, leads_three ⟨v / 4096 % 0x10, hmod _ (by decide)⟩, ?_⟩
      intro d hd
      simp only [List.mem_cons, List.not_mem_nil, or_false] at hd
      rcases hd with rfl | rfl
      · exact continues_ofNat _
      · exact continues_ofNat _
  | case4 v h1 h2 h3 =>
      refine ⟨_, _, rfl, leads_four ⟨v / 262144 % 0x08, hmod _ (by decide)⟩, ?_⟩
      intro d hd
      simp only [List.mem_cons, List.not_mem_nil, or_false] at hd
      rcases hd with rfl | rfl | rfl
      · exact continues_ofNat _
      · exact continues_ofNat _
      · exact continues_ofNat _

/-! ## Bytes of some characters -/

/-- The bytes are those of some characters, one after the other. -/
def Encoded (bs : List UInt8) : Prop :=
  ∃ cs : List Char, cs.flatMap String.utf8EncodeChar = bs

theorem encoded_nil : Encoded [] := ⟨[], rfl⟩

/-- The bytes of the first character are those that its first byte announces, and the bytes behind
it are again those of some characters. -/
theorem Encoded.uncons {b : UInt8} {bs : List UInt8} (h : Encoded (b :: bs)) :
    ∃ ds rest, bs = ds ++ rest ∧ Leads b (ds.length + 1) ∧
      (∀ d ∈ ds, isContinuation d = true) ∧ Encoded rest := by
  obtain ⟨cs, hcs⟩ := h
  cases cs with
  | nil => cases hcs
  | cons c cs =>
      obtain ⟨lead, ds, hc, hlead, hds⟩ := utf8EncodeChar_shape c
      rw [List.flatMap_cons, hc, List.cons_append] at hcs
      cases hcs
      exact ⟨ds, _, rfl, hlead, hds, cs, rfl⟩

theorem Encoded.isContinuation_head {b : UInt8} {bs : List UInt8} (h : Encoded (b :: bs)) :
    isContinuation b = false := by
  obtain ⟨ds, rest, -, hlead, -⟩ := h.uncons
  exact hlead.2

/-- From a byte on that continues no character, or from the end on, the bytes are those of some
characters. -/
theorem Encoded.drop {bs : List UInt8} {n : Nat} (h : Encoded bs)
    (hn : ∀ d, bs[n]? = some d → isContinuation d = false) : Encoded (bs.drop n) := by
  obtain ⟨cs, rfl⟩ := h
  induction cs generalizing n with
  | nil => exact ⟨[], List.drop_nil.symm⟩
  | cons c cs ih =>
      obtain ⟨b, ds, hc, -, hds⟩ := utf8EncodeChar_shape c
      rw [List.flatMap_cons, hc] at hn ⊢
      cases n with
      | zero =>
          refine ⟨c :: cs, ?_⟩
          rw [List.flatMap_cons, hc, List.drop_zero]
      | succ n =>
          rw [List.cons_append, List.drop_succ_cons]
          rw [List.cons_append, List.getElem?_cons_succ] at hn
          by_cases hlt : n < ds.length
          · have hcont := hn ds[n] (by rw [List.getElem?_append_left hlt, List.getElem?_eq_getElem hlt])
            rw [hds _ (List.getElem_mem hlt)] at hcont
            cases hcont
          · have hge : ds.length ≤ n := Nat.le_of_not_lt hlt
            rw [List.getElem?_append_right hge] at hn
            rw [List.drop_append, List.drop_of_length_le hge, List.nil_append]
            exact ih hn

/-- An ASCII byte is a character of its own. -/
theorem leads_of_lt {b : UInt8} (h : b < 0x80) : Leads b 1 := by
  have hb := leads_one ⟨b.toNat, h⟩
  rwa [UInt8.ofNat_toNat] at hb

/-- Behind an ASCII byte the bytes are those of some characters. -/
theorem Encoded.drop_succ {bs : List UInt8} {n : Nat} {b : UInt8} (h : Encoded bs)
    (hb : bs[n]? = some b) (hlt : b < 0x80) : Encoded (bs.drop (n + 1)) := by
  have hlead := leads_of_lt hlt
  have hn : Encoded (bs.drop n) := by
    apply h.drop
    intro d hd
    rw [hb] at hd
    cases hd
    exact hlead.2
  obtain ⟨hlen, hget⟩ := List.getElem?_eq_some_iff.mp hb
  rw [List.drop_eq_getElem_cons hlen, hget] at hn
  obtain ⟨ds, rest, hds, hlead', -, hrest⟩ := hn.uncons
  have hnil : ds.length + 1 = 1 := by rw [← hlead'.1, hlead.1]
  rw [hds, List.eq_nil_of_length_eq_zero (Nat.succ.inj hnil), List.nil_append]
  exact hrest

theorem Encoded.tail {b : UInt8} {bs : List UInt8} (h : Encoded (b :: bs)) (hlt : b < 0x80) :
    Encoded bs :=
  h.drop_succ (n := 0) rfl hlt

/-! ## Boundaries of a text -/

theorem bytes_eq_flatMap (text : String) : bytes text = text.toList.flatMap String.utf8EncodeChar := by
  unfold bytes
  rw [← String.utf8Encode_toList, List.utf8Encode, List.toList_data_toByteArray]

theorem encoded_bytes (text : String) : Encoded (bytes text) :=
  ⟨text.toList, (bytes_eq_flatMap text).symm⟩

/-- An array of bytes is valid if its list is encoded. -/
theorem isValidUTF8_iff_encoded (b : ByteArray) : b.IsValidUTF8 ↔ Encoded b.data.toList := by
  constructor
  · rintro ⟨cs, rfl⟩
    exact ⟨cs, List.toList_data_toByteArray.symm⟩
  · rintro ⟨cs, hcs⟩
    refine ⟨cs, ByteArray.ext (Array.toList_inj.mp ?_)⟩
    rw [← hcs, List.utf8Encode, List.toList_data_toByteArray]

/-- **An offset is a boundary if the bytes behind it are those of some characters.** -/
theorem isBoundary_iff_encoded {text : String} {i : Nat} :
    isBoundary text i = true ↔ i ≤ text.utf8ByteSize ∧ Encoded ((bytes text).drop i) := by
  have hdrop : (text.toByteArray.extract i text.utf8ByteSize).data.toList = (bytes text).drop i := by
    rw [ByteArray.data_extract, Array.toList_extract, List.extract_eq_take_drop, ← length_bytes]
    exact List.take_of_length_le (Nat.le_of_eq List.length_drop)
  rw [isBoundary, String.Pos.Raw.isValid_eq_true_iff,
    String.Pos.Raw.isValid_iff_isValidUTF8_extract_utf8ByteSize, isValidUTF8_iff_encoded, hdrop]
  exact Iff.rfl

/-- A boundary before the end of the text is where a character begins. -/
theorem isBoundary_iff_isLead {text : String} {i : Nat} (h : i < text.utf8ByteSize) :
    isBoundary text i = true ↔ isLead text i = true := by
  have hi : i < (bytes text).length := by rwa [length_bytes]
  rw [isBoundary_iff_encoded, isLead, byte?_eq, List.getElem?_eq_getElem hi, Option.any_some,
    Bool.not_eq_true']
  constructor
  · intro hb
    have henc := hb.2
    rw [List.drop_eq_getElem_cons hi] at henc
    exact henc.isContinuation_head
  · intro hlead
    refine ⟨Nat.le_of_lt h, ?_⟩
    apply (encoded_bytes text).drop
    intro d hd
    rw [List.getElem?_eq_getElem hi] at hd
    cases hd
    exact hlead

theorem le_size_of_isBoundary {text : String} {i : Nat} (h : isBoundary text i = true) :
    i ≤ text.utf8ByteSize :=
  (isBoundary_iff_encoded.mp h).1

/-! ## Slices -/

theorem bytes_slice {text : String} {start stop : Nat} (hle : start ≤ stop)
    (hstart : isBoundary text start = true) (hstop : isBoundary text stop = true) :
    bytes (slice text start stop) = ((bytes text).drop start).take (stop - start) := by
  unfold slice
  rw [dif_pos ⟨hle, hstart, hstop⟩]
  unfold bytes
  rw [String.toByteArray_extract, ByteArray.data_extract, Array.toList_extract,
    List.extract_eq_take_drop]

theorem bytes_slice_size {text : String} {start : Nat} (h : isBoundary text start = true) :
    bytes (slice text start text.utf8ByteSize) = (bytes text).drop start := by
  rw [bytes_slice (le_size_of_isBoundary h) h (isBoundary_size text), ← length_bytes,
    ← List.length_drop, List.take_length]

theorem bytes_append (s t : String) : bytes (s ++ t) = bytes s ++ bytes t := by
  unfold bytes
  rw [String.toByteArray_append, ByteArray.data_append, Array.toList_append]

theorem bytes_injective {s t : String} (h : bytes s = bytes t) : s = t := by
  apply String.toByteArray_inj.mp
  exact ByteArray.ext (Array.toList_inj.mp h)

end CssTokens.Utf8
