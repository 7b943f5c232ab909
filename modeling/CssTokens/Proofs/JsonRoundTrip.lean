import CssTokens.Json.Reader
import CssTokens.Proofs.JsonText

/-!
# CssTokens.Proofs.JsonRoundTrip — the compact text of a value is read as that value

`Value.symbols` lists the symbols of a value.  Its compact text is made of just these, so it is taken
apart into them, whatever stands behind it as long as that does not go on a number
(`Written.spells`).  And they are put together to the value again, whatever is open around it
(`Written.builds`).

This holds of the values that are `Written`: their texts are strings, and their numbers are natural
numbers.  What a number with a sign, a fraction or an exponent keeps is the text that it was read from,
and a value made without reading need not have a number there.

Others write and read values as well (`Codec`).  Of them less can be asked than that they read back all
that is `Written`: a reader may limit how deep values are nested and how large numbers are, and need not
tell apart two members with one key.  A value is `Plain` within such limits.
-/

namespace CssTokens.Json

set_option autoImplicit false

/-! ## Natural numbers -/

/-- Digits of a number begin with zero only if there is no other. -/
theorem toDigits_eq_zero_cons {n : Nat} {ds : List Char} (h : Nat.toDigits 10 n = '0' :: ds) :
    ds = [] := by
  induction n using Nat.strongRecOn generalizing ds with
  | ind n ih =>
    rcases Nat.lt_or_ge n 10 with hlt | hge
    · rw [Nat.toDigits_of_lt_base hlt] at h
      exact (List.cons.inj h).2.symm
    · rw [Nat.toDigits_of_base_le (by decide) hge] at h
      cases hq : Nat.toDigits 10 (n / 10) with
      | nil => exact absurd hq Nat.toDigits_ne_nil
      | cons d rest =>
        -- The digits of the quotient would be a zero alone, so the number has one digit.
        rw [hq] at h
        obtain ⟨rfl, -⟩ := List.cons.inj h
        have hrest := ih (n / 10) (by omega) hq
        have hzero := Nat.ofDigitChars_ten_toDigits (n := n / 10)
        rw [hq, hrest] at hzero
        have hone : Nat.ofDigitChars 10 ['0'] 0 = 0 := by decide
        omega

/-- What stands behind a number does not go on it. -/
def EndsNumber (rest : List Char) : Prop :=
  ∀ c ∈ rest.head?, c.isDigit = false ∧ c ∉ ['.', 'e', 'E']

theorem endsNumber_nil : EndsNumber [] := by
  simp [EndsNumber]

theorem endsNumber_cons {c : Char} (hd : c.isDigit = false) (hc : c ∉ ['.', 'e', 'E'])
    (rest : List Char) : EndsNumber (c :: rest) := by
  intro d h
  cases h
  exact ⟨hd, hc⟩

section

variable {rest : List Char}

theorem readDigits_append {ds : List Char} (hds : ∀ c ∈ ds, c.isDigit = true) (hne : ds ≠ [])
    (h : EndsNumber rest) : readDigits (ds ++ rest) = some (ds, rest) := by
  have htake : rest.takeWhile Char.isDigit = [] := by
    cases rest with
    | nil => rfl
    | cons c rest => simp [(h c rfl).1]
  have hdrop : rest.dropWhile Char.isDigit = rest := by
    cases rest with
    | nil => rfl
    | cons c rest => simp [(h c rfl).1]
  rw [readDigits, List.takeWhile_append_of_pos hds, List.dropWhile_append_of_pos hds, htake, hdrop,
    List.append_nil]
  cases ds with
  | nil => exact absurd rfl hne
  | cons d ds => rfl

theorem readWhole_toDigits (n : Nat) (h : EndsNumber rest) :
    readWhole (Nat.toDigits 10 n ++ rest) = some (Nat.toDigits 10 n, rest) := by
  have hdigits : ∀ c ∈ Nat.toDigits 10 n, c.isDigit = true :=
    fun c hc => Nat.isDigit_of_mem_toDigits (by decide) (by decide) hc
  rw [readWhole, readDigits_append hdigits Nat.toDigits_ne_nil h]
  split
  · next d ds rest' heq =>
    obtain ⟨hcons, -⟩ := Prod.mk.inj (Option.some.inj heq)
    cases toDigits_eq_zero_cons hcons
  · rfl

theorem readFraction_of_endsNumber (h : EndsNumber rest) : readFraction rest = some ([], rest) := by
  unfold readFraction
  split
  · exact absurd (h '.' rfl).2 (by decide)
  · rfl

theorem readExponent_of_endsNumber (h : EndsNumber rest) : readExponent rest = some ([], rest) := by
  cases rest with
  | nil => rfl
  | cons c rest =>
    have hc := (h c rfl).2
    simp only [List.mem_cons, List.not_mem_nil, or_false, not_or] at hc
    rw [readExponent, if_neg (by simp [hc])]

theorem readUnsigned_toDigits (n : Nat) (h : EndsNumber rest) :
    readUnsigned [] (Nat.toDigits 10 n ++ rest) = some (.natural n, rest) := by
  simp [readUnsigned, readWhole_toDigits n h, readFraction_of_endsNumber h,
    readExponent_of_endsNumber h]

end

/-! ## Symbols -/

namespace Symbol

/-- A digit begins a number and nothing else. -/
theorem read_of_isDigit {c : Char} (hc : c.isDigit = true) (cs : List Char) :
    read (c :: cs) = (readUnsigned [] (c :: cs)).map fun r => (.atom r.1, r.2) := by
  have hne (d : Char) (hd : d.isDigit = false) : c ≠ d := by
    rintro rfl
    cases hc.symm.trans hd
  have hnumber : readNumber (c :: cs) = readUnsigned [] (c :: cs) := by
    unfold readNumber
    split
    · next heq => exact absurd (List.cons.inj heq).1 (hne _ rfl)
    · rfl
  unfold read
  split
  case h_11 => rw [hnumber]
  all_goals
    next heq => exact absurd (List.cons.inj heq).1 (hne _ rfl)

theorem read_natural (n : Nat) {rest : List Char} (h : EndsNumber rest) :
    read (Nat.toDigits 10 n ++ rest) = some (.atom (.natural n), rest) := by
  have hread := readUnsigned_toDigits n h
  cases hds : Nat.toDigits 10 n with
  | nil => exact absurd hds Nat.toDigits_ne_nil
  | cons d ds =>
    have hd : d.isDigit = true :=
      Nat.isDigit_of_mem_toDigits (by decide) (by decide) (hds ▸ List.mem_cons_self)
    rw [hds] at hread
    rw [List.cons_append] at hread ⊢
    rw [read_of_isDigit hd, hread]
    rfl

theorem read_plain (s : String) (rest : List Char) :
    read ((Text.plain s).chars ++ rest) = some (.text (.plain s), rest) := by
  have hchars : (Text.plain s).chars ++ rest =
      '\x22' :: (s.toList.flatMap charLiteral ++ '\x22' :: rest) := by
    simp [Text.chars]
  rw [hchars, read, readPieces_literal, Option.map_some, ofPieces_map_charPiece]

theorem read_of_isBlank {c : Char} (hc : isBlank c = true) (cs : List Char) :
    read (c :: cs) = none := by
  simp only [isBlank, Bool.or_eq_true, decide_eq_true_eq] at hc
  rcases hc with ((rfl | rfl) | rfl) | rfl <;> rfl

/-- A symbol is taken off the front. -/
theorem ofChars_of_read {cs rest : List Char} {s : Symbol} (h : read cs = some (s, rest)) :
    ofChars cs = (ofChars rest).map (s :: ·) := by
  cases cs with
  | nil => cases h
  | cons c cs =>
    have hblank : ¬ isBlank c = true := by
      intro hc
      cases h.symm.trans (read_of_isBlank hc cs)
    rw [ofChars, if_neg hblank]
    split
    · next hnone => cases hnone.symm.trans h
    · next s' rest' hsome =>
      cases hsome.symm.trans h
      rfl

end Symbol

/-! ## Values -/

namespace Value

mutual

/-- The symbols of a value. -/
def symbols : Value → List Symbol
  | null => [.atom .null]
  | bool b => [.atom (.bool b)]
  | natural n => [.atom (.natural n)]
  | number literal => [.atom (.number literal)]
  | string t => [.text t]
  | array [] => [.openSquare, .closeSquare]
  | array (item :: items) => .openSquare :: (item.symbols ++ itemSymbols items)
  | object [] => [.openCurly, .closeCurly]
  | object ((key, value) :: members) =>
      .openCurly :: .text key :: .colon :: (value.symbols ++ memberSymbols members)

/-- The symbols of the items behind the first, and of the closing bracket. -/
def itemSymbols : List Value → List Symbol
  | [] => [.closeSquare]
  | item :: items => .comma :: (item.symbols ++ itemSymbols items)

/-- The symbols of the members behind the first, and of the closing brace. -/
def memberSymbols : List (Text × Value) → List Symbol
  | [] => [.closeCurly]
  | (key, value) :: members =>
      .comma :: .text key :: .colon :: (value.symbols ++ memberSymbols members)

end

/-- Values whose text says what they are: all texts in them are strings, all numbers natural
numbers. -/
inductive Written : Value → Prop where
  | null : Written null
  | bool (b : Bool) : Written (bool b)
  | natural (n : Nat) : Written (natural n)
  | string (s : String) : Written (string (.plain s))
  | array {items : List Value} (hitems : ∀ item ∈ items, Written item) : Written (array items)
  | object {members : List (Text × Value)} (hkeys : ∀ m ∈ members, ∃ s, m.1 = .plain s)
      (hvalues : ∀ m ∈ members, Written m.2) : Written (object members)

/-! ### From text to symbols -/

/-- A text is taken apart into some symbols, whatever stands behind it. -/
def Spells (chars : List Char) (symbols : List Symbol) : Prop :=
  ∀ rest, EndsNumber rest →
    Symbol.ofChars (chars ++ rest) = (Symbol.ofChars rest).map (symbols ++ ·)

section Spells

variable {chars left right : List Char} {s : Symbol} {ls rs : List Symbol}

theorem spells_of_read
    (h : ∀ rest, EndsNumber rest → Symbol.read (chars ++ rest) = some (s, rest)) :
    Spells chars [s] :=
  fun rest hrest => Symbol.ofChars_of_read (h rest hrest)

/-- A symbol that does not look at what stands behind it. -/
theorem Spells.front (h : Spells right rs) (left : List Char)
    (hread : ∀ cs, Symbol.read (left ++ cs) = some (s, cs)) : Spells (left ++ right) (s :: rs) := by
  intro rest hrest
  rw [List.append_assoc, Symbol.ofChars_of_read (hread _), h rest hrest, Option.map_map]
  rfl

theorem Spells.append (hl : Spells left ls) (hr : Spells right rs)
    (hends : ∀ rest, EndsNumber (right ++ rest)) : Spells (left ++ right) (ls ++ rs) := by
  intro rest hrest
  rw [List.append_assoc, hl _ (hends rest), hr rest hrest, Option.map_map]
  simp [Function.comp_def]

end Spells

theorem itemChars_endsNumber (items : List Value) (rest : List Char) :
    EndsNumber (itemChars items ++ rest) := by
  cases items with
  | nil => exact endsNumber_cons (by decide) (by decide) _
  | cons item items => exact endsNumber_cons (by decide) (by decide) _

theorem memberChars_endsNumber (members : List (Text × Value)) (rest : List Char) :
    EndsNumber (memberChars members ++ rest) := by
  cases members with
  | nil => exact endsNumber_cons (by decide) (by decide) _
  | cons m members => exact endsNumber_cons (by decide) (by decide) _

theorem itemChars_spells {items : List Value} (h : ∀ item ∈ items, Spells item.chars item.symbols) :
    Spells (itemChars items) (itemSymbols items) := by
  induction items with
  | nil => exact spells_of_read fun rest _ => rfl
  | cons item items ih =>
    obtain ⟨hitem, hitems⟩ := List.forall_mem_cons.mp h
    have hrest := hitem.append (ih hitems) (itemChars_endsNumber items)
    exact hrest.front [','] fun _ => rfl

/-- The key of a member, the colon and the value, with the other members behind them. -/
theorem Spells.member {value : Value} {members : List (Text × Value)} (key : String)
    (hvalue : Spells value.chars value.symbols)
    (hmembers : Spells (memberChars members) (memberSymbols members)) :
    Spells ((Text.plain key).chars ++ ':' :: (value.chars ++ memberChars members))
      (.text (.plain key) :: .colon :: (value.symbols ++ memberSymbols members)) := by
  have hrest := hvalue.append hmembers (memberChars_endsNumber members)
  have hcolon := hrest.front [':'] fun _ => rfl
  exact hcolon.front _ (Symbol.read_plain key)

theorem memberChars_spells {members : List (Text × Value)}
    (hkeys : ∀ m ∈ members, ∃ s, m.1 = .plain s)
    (hvalues : ∀ m ∈ members, Spells m.2.chars m.2.symbols) :
    Spells (memberChars members) (memberSymbols members) := by
  induction members with
  | nil => exact spells_of_read fun rest _ => rfl
  | cons m members ih =>
    obtain ⟨key, value⟩ := m
    obtain ⟨⟨s, rfl⟩, hrestKeys⟩ := List.forall_mem_cons.mp hkeys
    obtain ⟨hvalue, hrestValues⟩ := List.forall_mem_cons.mp hvalues
    exact (hvalue.member s (ih hrestKeys hrestValues)).front [','] fun _ => rfl

/-- The text of a value is taken apart into the symbols of the value. -/
theorem Written.spells {v : Value} (h : Written v) : Spells v.chars v.symbols := by
  induction h with
  | null => exact spells_of_read fun _ _ => rfl
  | bool b => cases b <;> exact spells_of_read fun _ _ => rfl
  | natural n => exact spells_of_read fun _ hrest => Symbol.read_natural n hrest
  | string s => exact spells_of_read fun rest _ => Symbol.read_plain s rest
  | @array items _ ih =>
    cases items with
    | nil => exact (itemChars_spells ih).front ['['] fun _ => rfl
    | cons item items =>
      obtain ⟨hitem, hitems⟩ := List.forall_mem_cons.mp ih
      have hrest := hitem.append (itemChars_spells hitems) (itemChars_endsNumber items)
      exact hrest.front ['['] fun _ => rfl
  | @object members hkeys _ ih =>
    cases members with
    | nil => exact (memberChars_spells hkeys ih).front ['\x7b'] fun _ => rfl
    | cons m members =>
      obtain ⟨key, value⟩ := m
      obtain ⟨⟨s, rfl⟩, hrestKeys⟩ := List.forall_mem_cons.mp hkeys
      obtain ⟨hvalue, hvalues⟩ := List.forall_mem_cons.mp ih
      exact (hvalue.member s (memberChars_spells hrestKeys hvalues)).front ['\x7b'] fun _ => rfl

/-! ### From symbols to value -/

/-- The symbols of a value put it together, whatever is open around it. -/
def Builds (v : Value) : Prop :=
  ∀ frames, v.symbols.foldlM Reader.step (.value frames) = some (.complete v frames)

/-- In front of the first item of an array a value begins as anywhere else. -/
theorem foldlM_firstItem (v : Value) (symbols : List Symbol) (frames : List Frame) :
    (v.symbols ++ symbols).foldlM Reader.step (.firstItem frames) =
      (v.symbols ++ symbols).foldlM Reader.step (.value (.array [] :: frames)) := by
  cases v with
  | null => rfl
  | bool b => rfl
  | natural n => rfl
  | number literal => rfl
  | string t => rfl
  | array items => cases items <;> rfl
  | object members =>
    cases members with
    | nil => rfl
    | cons m members => rfl

theorem foldlM_itemSymbols {items : List Value} (h : ∀ item ∈ items, item.Builds) (v : Value)
    (before : List Value) (frames : List Frame) :
    (itemSymbols items).foldlM Reader.step (.complete v (.array before :: frames)) =
      some (.complete (.array (before.reverse ++ v :: items)) frames) := by
  induction items generalizing v before with
  | nil => simp [itemSymbols, Reader.step]
  | cons item items ih =>
    obtain ⟨hitem, hitems⟩ := List.forall_mem_cons.mp h
    rw [itemSymbols, List.foldlM_cons]
    show (item.symbols ++ itemSymbols items).foldlM Reader.step
      (.value (.array (v :: before) :: frames)) = _
    rw [List.foldlM_append, hitem]
    show (itemSymbols items).foldlM Reader.step (.complete item (.array (v :: before) :: frames)) = _
    rw [ih hitems]
    simp

theorem foldlM_memberSymbols {members : List (Text × Value)} (h : ∀ m ∈ members, m.2.Builds)
    (key : Text) (v : Value) (before : List (Text × Value)) (frames : List Frame) :
    (memberSymbols members).foldlM Reader.step (.complete v (.object before key :: frames)) =
      some (.complete (.object (before.reverse ++ (key, v) :: members)) frames) := by
  induction members generalizing key v before with
  | nil => simp [memberSymbols, Reader.step]
  | cons m members ih =>
    obtain ⟨name, value⟩ := m
    obtain ⟨hvalue, hmembers⟩ := List.forall_mem_cons.mp h
    rw [memberSymbols, List.foldlM_cons]
    show (value.symbols ++ memberSymbols members).foldlM Reader.step
      (.value (.object ((key, v) :: before) name :: frames)) = _
    rw [List.foldlM_append, hvalue]
    show (memberSymbols members).foldlM Reader.step
      (.complete value (.object ((key, v) :: before) name :: frames)) = _
    rw [ih hmembers]
    simp

theorem Written.builds {v : Value} (h : Written v) : v.Builds := by
  intro frames
  induction h generalizing frames with
  | null => rfl
  | bool b => cases b <;> rfl
  | natural n => rfl
  | string s => rfl
  | @array items _ ih =>
    cases items with
    | nil => rfl
    | cons item items =>
      obtain ⟨hitem, hitems⟩ := List.forall_mem_cons.mp ih
      show (item.symbols ++ itemSymbols items).foldlM Reader.step (.firstItem frames) = _
      rw [foldlM_firstItem, List.foldlM_append, hitem]
      exact foldlM_itemSymbols hitems item [] frames
  | @object members _ _ ih =>
    cases members with
    | nil => rfl
    | cons m members =>
      obtain ⟨key, value⟩ := m
      obtain ⟨hvalue, hvalues⟩ := List.forall_mem_cons.mp ih
      show (value.symbols ++ memberSymbols members).foldlM Reader.step
        (.value (.object [] key :: frames)) = _
      rw [List.foldlM_append, hvalue]
      exact foldlM_memberSymbols hvalues key value [] frames

/-- **The compact text of a value is read as the value.** -/
theorem Written.read?_compact {v : Value} (h : Written v) : read? v.compact = some v := by
  have hsymbols : Symbol.ofChars v.chars = some v.symbols := by
    have hspells := h.spells [] endsNumber_nil
    rw [List.append_nil, Symbol.ofChars] at hspells
    simpa using hspells
  rw [read?, compact, String.toList_ofList, hsymbols]
  show (v.symbols.foldlM Reader.step (.value [])).bind Reader.result? = _
  rw [h.builds]
  rfl

/-! ## Writers and readers -/

/-- Values that are nested no deeper than `depth`, with numbers that satisfy `P` and with no key twice in
an object. -/
inductive Plain (P : Nat → Prop) : Nat → Value → Prop where
  | null {depth : Nat} : Plain P depth null
  | bool {depth : Nat} (b : Bool) : Plain P depth (bool b)
  | natural {depth n : Nat} (hn : P n) : Plain P depth (natural n)
  | string {depth : Nat} (s : String) : Plain P depth (ofString s)
  | array {depth : Nat} {items : List Value} (hitems : ∀ item ∈ items, Plain P depth item) :
      Plain P (depth + 1) (array items)
  | object {depth : Nat} {fields : List (String × Value)} (hkeys : (fields.map Prod.fst).Nodup)
      (hvalues : ∀ f ∈ fields, Plain P depth f.2) : Plain P (depth + 1) (ofFields fields)

theorem Plain.written {P : Nat → Prop} {depth : Nat} {v : Value} (h : Plain P depth v) : Written v := by
  induction h with
  | null => exact .null
  | bool b => exact .bool b
  | natural _ => exact .natural _
  | string s => exact .string s
  | array _ ih => exact .array ih
  | object _ _ ih =>
      refine .object (fun m hm => ?_) (fun m hm => ?_)
      · obtain ⟨f, -, rfl⟩ := List.mem_map.mp hm
        exact ⟨f.1, rfl⟩
      · obtain ⟨f, hf, rfl⟩ := List.mem_map.mp hm
        exact ih f hf

end Value

/-- A writer of values and a reader of texts. -/
structure Codec where
  write : Value → String
  read? : String → Option Value

/-- The text of a value is read as the value, if its numbers have 32 bits and it is not nested too deep:
readers give up at 128 arrays and objects in one another. -/
structure Codec.ReadsBack (codec : Codec) : Prop where
  read?_write : ∀ v, v.Plain (· ≤ 4294967295) 127 → codec.read? (codec.write v) = some v

/-- Compact texts, and the reader that limits nothing. -/
def Codec.compact : Codec where
  write := Value.compact
  read? := Value.read?

theorem Codec.compact_readsBack : compact.ReadsBack where
  read?_write _ h := h.written.read?_compact

end CssTokens.Json
