import CssTokens.Proofs.CharWalk
import CssTokens.Proofs.GroupAlignment

/-!
# CssTokens.Proofs.Characters — characters, and the bytes that rules look at

Rules are read in characters and followed in bytes.  What steers them is ASCII, and an ASCII byte stands
for its own character and is part of no other (`ascii_mem_utf8EncodeChar_iff`).  So a class of such bytes
that `Spells` some characters finds in a text these characters and nothing else.

`Source.charsFrom` is what a reader sees from an offset on, and `encode` leads back to the bytes
(`encode_charsFrom`).  Where the characters seen are split, the text is (`charsFrom_split`).
-/

namespace CssTokens

set_option autoImplicit false

namespace Utf8

/-- The bytes of some characters, one after the other. -/
def encode (cs : List Char) : List UInt8 :=
  cs.flatMap String.utf8EncodeChar

@[simp] theorem encode_nil : encode [] = [] := rfl

@[simp] theorem encode_cons (c : Char) (cs : List Char) :
    encode (c :: cs) = String.utf8EncodeChar c ++ encode cs := rfl

@[simp] theorem encode_append (cs ds : List Char) : encode (cs ++ ds) = encode cs ++ encode ds :=
  List.flatMap_append

theorem encode_toList (text : String) : encode text.toList = bytes text :=
  (bytes_eq_flatMap text).symm

theorem bytes_ofList (cs : List Char) : bytes (String.ofList cs) = encode cs := by
  rw [bytes_eq_flatMap, String.toList_ofList, encode]

theorem length_encode (cs : List Char) : (encode cs).length = (String.ofList cs).utf8ByteSize := by
  rw [← length_bytes, bytes_ofList]

theorem encode_injective {cs ds : List Char} (h : encode cs = encode ds) : cs = ds := by
  apply String.ofList_injective
  apply bytes_injective
  rw [bytes_ofList, bytes_ofList, h]

/-! ## ASCII characters -/

/-- The byte of an ASCII character. -/
def ascii (c : Char) : UInt8 :=
  UInt8.ofNat c.toNat

variable {c d : Char} {cs : List Char}

theorem ascii_lt (h : c.toNat < 0x80) : ascii c < 0x80 := by
  rw [UInt8.lt_iff_toNat_lt, ascii, UInt8.toNat_ofNat_of_lt' (Nat.lt_trans h (by decide))]
  exact h

theorem utf8EncodeChar_of_lt (h : c.toNat < 0x80) : String.utf8EncodeChar c = [ascii c] := by
  have hv : c.val.toNat = c.toNat := rfl
  rw [String.utf8EncodeChar, if_pos (by omega)]
  rfl

/-- An ASCII byte is part of no character but its own. -/
theorem ascii_mem_utf8EncodeChar_iff (hd : d.toNat < 0x80) :
    ascii d ∈ String.utf8EncodeChar c ↔ c = d := by
  constructor
  · intro hmem
    obtain ⟨b, ds, hc, -, hds⟩ := utf8EncodeChar_shape c
    rw [hc, List.mem_cons] at hmem
    rcases hmem with hfirst | hrest
    · apply (head?_utf8EncodeChar_iff c d hd).mp
      rw [hc, List.head?_cons, ← hfirst]
      rfl
    · have hlead := (leads_of_lt (ascii_lt hd)).2
      rw [hds _ hrest] at hlead
      cases hlead
  · rintro rfl
    rw [utf8EncodeChar_of_lt hd]
    exact List.mem_singleton_self _

theorem head?_encode_iff (hd : d.toNat < 0x80) :
    (encode cs).head? = some (ascii d) ↔ cs.head? = some d := by
  cases cs with
  | nil => exact ⟨nofun, nofun⟩
  | cons c cs =>
      obtain ⟨b, ds, hc, -, -⟩ := utf8EncodeChar_shape c
      have hiff := head?_utf8EncodeChar_iff c d hd
      rw [hc] at hiff
      rw [encode_cons, hc, List.head?_cons, Option.some.injEq]
      exact hiff

/-! ## Classes of ASCII characters -/

/-- The bytes of a class are those of some ASCII characters. -/
def Spells (p : UInt8 → Bool) (cs : List Char) : Prop :=
  (∀ c ∈ cs, c.toNat < 0x80 ∧ p (ascii c) = true) ∧
    ∀ n : Fin 256, p (UInt8.ofFin n) = true → UInt8.ofFin n ∈ cs.map ascii

/-- The characters are gone through as they are listed; there is also an instance that goes through
all there are. -/
instance (p : UInt8 → Bool) (cs : List Char) : Decidable (Spells p cs) :=
  @instDecidableAnd _ _ (List.decidableBAll _ cs) inferInstance

variable {p : UInt8 → Bool} {chars : List Char}

theorem Spells.exists_of_byte (h : Spells p chars) {b : UInt8} (hb : p b = true) :
    ∃ c ∈ chars, ascii c = b :=
  List.mem_map.mp
    (Byte.forall_of_fin (P := fun b => p b = true → b ∈ chars.map ascii) h.2 b hb)

theorem Spells.utf8EncodeChar_of_mem (h : Spells p chars) (hc : c ∈ chars) :
    String.utf8EncodeChar c = [ascii c] ∧ p (ascii c) = true :=
  ⟨utf8EncodeChar_of_lt (h.1 c hc).1, (h.1 c hc).2⟩

/-- A character outside of the class has no byte in it. -/
theorem Spells.eq_false_of_not_mem (h : Spells p chars) (hc : c ∉ chars) :
    ∀ b ∈ String.utf8EncodeChar c, p b = false := by
  intro b hb
  apply Bool.eq_false_iff.mpr
  intro hp
  obtain ⟨d, hd, rfl⟩ := h.exists_of_byte hp
  obtain rfl := (ascii_mem_utf8EncodeChar_iff (h.1 d hd).1).mp hb
  exact hc hd

/-- Whether a character is of the class shows in its first byte. -/
theorem Spells.first_iff (h : Spells p chars) {b : UInt8} {bs : List UInt8}
    (hc : String.utf8EncodeChar c = b :: bs) : p b = true ↔ c ∈ chars := by
  constructor
  · intro hp
    apply Decidable.of_not_not
    intro hnot
    have hfalse := h.eq_false_of_not_mem hnot b (by rw [hc]; exact List.mem_cons_self)
    rw [hp] at hfalse
    cases hfalse
  · intro hmem
    obtain ⟨hone, hp⟩ := h.utf8EncodeChar_of_mem hmem
    cases hone.symm.trans hc
    exact hp

end Utf8

open Utf8

/-- A character is as long as its first byte says. -/
theorem ByteRules.charLength_encode (c : Char) (cs : List Char) :
    charLength (encode (c :: cs)) = c.utf8Size := by
  obtain ⟨b, ds, hc, hlead, -⟩ := utf8EncodeChar_shape c
  have hsize : c.utf8Size = ds.length + 1 := by
    rw [← String.length_utf8EncodeChar, hc, List.length_cons]
  rw [encode_cons, hc, List.cons_append, charLength, hlead.1, hsize, List.length_append]
  omega

namespace Source

/-- The characters of the text from an offset on. -/
def charsFrom (src : Source) (i : Nat) : List Char :=
  (slice src.text i src.size).toList

variable {src : Source} {i : Nat}

theorem encode_charsFrom (h : isBoundary src.text i = true) :
    encode (src.charsFrom i) = src.bytes.drop i := by
  rw [charsFrom, encode_toList]
  exact bytes_slice_size h

/-- Between two parts of what is seen from a boundary on there is a boundary, and from it the second
part is seen. -/
theorem charsFrom_split {cs ds : List Char} (h : isBoundary src.text i = true)
    (hsplit : src.charsFrom i = cs ++ ds) :
    isBoundary src.text (i + (String.ofList cs).utf8ByteSize) = true ∧
      src.charsFrom (i + (String.ofList cs).utf8ByteSize) = ds := by
  have hbytes : src.bytes.drop i = encode cs ++ encode ds := by
    rw [← encode_charsFrom h, hsplit, encode_append]
  have hdrop : src.bytes.drop (i + (String.ofList cs).utf8ByteSize) = encode ds := by
    rw [← List.drop_drop, hbytes, ← length_encode, List.drop_left]
  have hboundary : isBoundary src.text (i + (String.ofList cs).utf8ByteSize) = true := by
    refine isBoundary_iff_encoded.mpr ⟨?_, ds, hdrop.symm⟩
    have hlen := congrArg List.length hbytes
    rw [List.length_drop, length_bytes, List.length_append, length_encode] at hlen
    have hle : i ≤ src.size := le_size_of_isBoundary h
    show _ ≤ src.size
    omega
  exact ⟨hboundary, encode_injective ((encode_charsFrom hboundary).trans hdrop)⟩

end Source

/-- Behind an ASCII byte of the text a character begins. -/
theorem Cursor.isBoundary_of_rest {src : Source} {c : Cursor src} {b : UInt8} {bs : List UInt8}
    (hr : c.rest = b :: bs) (hb : b < 0x80) : isBoundary src.text (c.pos + 1) = true := by
  refine isBoundary_iff_encoded.mpr ⟨lt_size_of_rest hr, ?_⟩
  have hdrop : (bytes src.text).drop (c.pos + 1) = bs := rest_advance_one hr
  rw [hdrop]
  exact encoded_of_rest hr hb

end CssTokens
