import CssTokens.Proofs.JsonRoundTrip
import CssTokens.Token.Json

/-!
# CssTokens.Proofs.TokensJson — tokens survive JSON

A list of tokens is an array of records.  A record gives back the fields it was made of
(`Value.allFields?_ofFields`), and a number of 32 bits is accepted.  So the value that is made of a list
of tokens stands for that list again (`Token.listOfJson?_listToJson`), whatever the tokens say, and
whether or not any text has them.

The value is `Plain`: three deep, and with the numbers of the tokens in it (`Token.listToJson_plain`).
So it survives in every text that reads back such values (`Codec.ReadsBack`), and in compact text with
numbers of any size.
-/

namespace CssTokens

set_option autoImplicit false

/-- What each item becomes is read as that item, so all of them are read back. -/
theorem mapM_map_eq_some {α β : Type} {f : β → Option α} {g : α → β} {items : List α}
    (h : ∀ a ∈ items, f (g a) = some a) : (items.map g).mapM f = some items := by
  induction items with
  | nil => rfl
  | cons a items ih =>
    obtain ⟨ha, hitems⟩ := List.forall_mem_cons.mp h
    simp [ha, ih hitems]

/-! ## Records -/

namespace Json.Value

theorem ofFields_inj {fields others : List (String × Value)} :
    ofFields fields = ofFields others ↔ fields = others := by
  rw [ofFields, ofFields, object.injEq, List.map_inj_right]
  rintro ⟨key, value⟩ ⟨key', value'⟩ h
  simpa using h

theorem membersNamed_of_mem {fields : List (String × Value)} (h : (fields.map Prod.fst).Nodup)
    {f : String × Value} (hf : f ∈ fields) :
    membersNamed (fields.map fun f => (.plain f.1, f.2)) f.1 = [f.2] := by
  have named (gs : List (String × Value)) : membersNamed (gs.map fun f => (.plain f.1, f.2)) f.1 =
      (gs.filter fun g => g.1 = f.1).map Prod.snd := by
    simp [membersNamed, List.filter_map, Function.comp_def]
  rw [named]
  induction fields with
  | nil => cases hf
  | cons g gs ih =>
    rw [List.map_cons, List.nodup_cons] at h
    rcases List.mem_cons.mp hf with rfl | hmem
    · have hnone : gs.filter (fun g => g.1 = f.1) = [] := by
        simp only [List.filter_eq_nil_iff, decide_eq_true_eq]
        exact fun g hg heq => h.1 (heq ▸ List.mem_map_of_mem hg)
      simp [hnone]
    · have hne : g.1 ≠ f.1 := fun heq => h.1 (heq ▸ List.mem_map_of_mem hmem)
      simpa [hne] using ih h.2 hmem

/-- A record written as an object gives back its fields. -/
theorem allFields?_ofFields {fields : List (String × Value)} (h : (fields.map Prod.fst).Nodup) :
    (ofFields fields).allFields? (fields.map Prod.fst) = some (fields.map Prod.snd) := by
  have hnamed {f : String × Value} (hf : f ∈ fields) := membersNamed_of_mem h hf
  have hvalues : (ofFields fields).fields? (fields.map Prod.fst) =
      some ((fields.map Prod.snd).map some) := by
    rw [ofFields, fields?, if_pos]
    · rw [List.map_map, List.map_map]
      refine congrArg some (List.map_congr_left fun f hf => ?_)
      rw [Function.comp_apply, hnamed hf]
      rfl
    · simp only [Bool.and_eq_true, List.all_eq_true, List.mem_map]
      constructor
      · rintro m ⟨f, -, rfl⟩
        rfl
      · rintro name ⟨f, hf, rfl⟩
        rw [hnamed hf]
        rfl
  rw [allFields?, hvalues]
  exact mapM_map_eq_some fun _ _ => rfl

theorem word?_natural {n : Nat} (h : n ≤ 4294967295) : (natural n).word? = some n :=
  if_pos h

end Json.Value

open Json (Value)

/-! ## Tokens -/

section Plain

variable {P : Nat → Prop} {depth : Nat}

theorem Kind.toJson_plain (k : Kind) : k.toJson.Plain P depth :=
  .string k.key

theorem Span.toJson_plain {s : Span} (hstart : P s.start) (hstop : P s.stop) :
    s.toJson.Plain P (depth + 1) := by
  apply Value.Plain.object
  · simp
  · simp [Value.Plain.natural, hstart, hstop]

theorem Position.toJson_plain {p : Position} (hline : P p.line) (hcolumn : P p.column) :
    p.toJson.Plain P (depth + 1) := by
  apply Value.Plain.object
  · simp
  · simp [Value.Plain.natural, hline, hcolumn]

end Plain

theorem Kind.toJson_injective {k l : Kind} (h : k.toJson = l.toJson) : k = l := by
  have hsame := Kind.ofJson?_toJson k
  rw [h, Kind.ofJson?_toJson] at hsame
  exact (Option.some.inj hsame).symm

theorem Span.toJson_injective {s r : Span} (h : s.toJson = r.toJson) : s = r := by
  obtain ⟨start, stop⟩ := s
  obtain ⟨start', stop'⟩ := r
  simpa [toJson, Value.ofFields_inj] using h

theorem Position.toJson_injective {p q : Position} (h : p.toJson = q.toJson) : p = q := by
  obtain ⟨line, column⟩ := p
  obtain ⟨line', column'⟩ := q
  simpa [toJson, Value.ofFields_inj] using h

theorem Span.ofJson?_toJson {s : Span} (hstart : s.start ≤ 4294967295) (hstop : s.stop ≤ 4294967295) :
    ofJson? s.toJson = some s := by
  have hfields : s.toJson.allFields? ["start", "end"] = some [.natural s.start, .natural s.stop] :=
    Value.allFields?_ofFields (by simp)
  rw [ofJson?, hfields]
  simp [Value.word?_natural, hstart, hstop]

theorem Position.ofJson?_toJson {p : Position} (hline : p.line ≤ 4294967295)
    (hcolumn : p.column ≤ 4294967295) : ofJson? p.toJson = some p := by
  have hfields : p.toJson.allFields? ["line", "column"] = some [.natural p.line, .natural p.column] :=
    Value.allFields?_ofFields (by simp)
  rw [ofJson?, hfields]
  simp [Value.word?_natural, hline, hcolumn]

namespace Token

/-- The six numbers of a token. -/
def numbers (t : Token) : List Nat :=
  [t.span.start, t.span.stop, t.first.line, t.first.column, t.last.line, t.last.column]

/-- The six numbers of a token have 32 bits. -/
def Fits (t : Token) : Prop :=
  ∀ n ∈ t.numbers, n ≤ 4294967295

instance (t : Token) : Decidable t.Fits :=
  inferInstanceAs (Decidable (∀ n ∈ _, _))

theorem toJson_plain {P : Nat → Prop} {depth : Nat} {t : Token} (h : ∀ n ∈ t.numbers, P n) :
    t.toJson.Plain P (depth + 2) := by
  simp only [numbers, List.forall_mem_cons] at h
  obtain ⟨hstart, hstop, hline, hcolumn, hlastLine, hlastColumn, -⟩ := h
  apply Value.Plain.object
  · simp
  · simp [Kind.toJson_plain, Span.toJson_plain hstart hstop, Position.toJson_plain hline hcolumn,
      Position.toJson_plain hlastLine hlastColumn]

theorem ofJson?_toJson {t : Token} (h : t.Fits) : ofJson? t.toJson = some t := by
  have hfields : t.toJson.allFields? ["kind", "span", "start", "end"] =
      some [t.kind.toJson, t.span.toJson, t.first.toJson, t.last.toJson] :=
    Value.allFields?_ofFields (by simp)
  simp only [Fits, numbers, List.forall_mem_cons] at h
  obtain ⟨hstart, hstop, hline, hcolumn, hlastLine, hlastColumn, -⟩ := h
  rw [ofJson?, hfields]
  simp [Kind.ofJson?_toJson, Span.ofJson?_toJson hstart hstop, Position.ofJson?_toJson hline hcolumn,
    Position.ofJson?_toJson hlastLine hlastColumn]

/-- A list of tokens makes a value three deep. -/
theorem listToJson_plain {P : Nat → Prop} {depth : Nat} {tokens : List Token}
    (h : ∀ t ∈ tokens, ∀ n ∈ t.numbers, P n) : (listToJson tokens).Plain P (depth + 3) := by
  refine .array fun v hv => ?_
  obtain ⟨t, ht, rfl⟩ := List.mem_map.mp hv
  exact toJson_plain (h t ht)

theorem listOfJson?_listToJson {tokens : List Token} (h : ∀ t ∈ tokens, t.Fits) :
    listOfJson? (listToJson tokens) = some tokens :=
  mapM_map_eq_some fun t ht => ofJson?_toJson (h t ht)

theorem toJson_injective {t u : Token} (h : t.toJson = u.toJson) : t = u := by
  obtain ⟨kind, span, first, last⟩ := t
  obtain ⟨kind', span', first', last'⟩ := u
  simp only [toJson, Value.ofFields_inj, List.cons.injEq, Prod.mk.injEq, true_and, and_true] at h
  obtain ⟨hkind, hspan, hfirst, hlast⟩ := h
  rw [Kind.toJson_injective hkind, Span.toJson_injective hspan, Position.toJson_injective hfirst,
    Position.toJson_injective hlast]

theorem listToJson_injective {tokens others : List Token} (h : listToJson others = listToJson tokens) :
    others = tokens :=
  (List.map_inj_right fun _ _ => toJson_injective).mp (Value.array.inj h)

/-! ## Texts -/

/-- The text of a list of tokens, by some writer. -/
def listTextBy (codec : Json.Codec) (tokens : List Token) : String :=
  codec.write (listToJson tokens)

/-- The list of tokens that a text stands for, by some reader. -/
def listOfTextBy? (codec : Json.Codec) (text : String) : Option (List Token) := do
  listOfJson? (← codec.read? text)

section

variable {codec : Json.Codec} {tokens others : List Token}

theorem read?_listTextBy (hcodec : codec.ReadsBack) (h : ∀ t ∈ tokens, t.Fits) :
    codec.read? (listTextBy codec tokens) = some (listToJson tokens) :=
  hcodec.read?_write _ (listToJson_plain h)

/-- Compact texts are read back with numbers of any size. -/
theorem read?_listText (tokens : List Token) :
    Json.Codec.compact.read? (listText tokens) = some (listToJson tokens) := by
  have hplain : (listToJson tokens).Plain (fun _ => True) 3 :=
    listToJson_plain fun _ _ _ _ => trivial
  exact hplain.written.read?_compact

theorem listOfTextBy?_of_read? (hread : codec.read? (listTextBy codec tokens) = some (listToJson tokens))
    (h : ∀ t ∈ tokens, t.Fits) : listOfTextBy? codec (listTextBy codec tokens) = some tokens := by
  rw [listOfTextBy?, hread]
  exact listOfJson?_listToJson h

/-- Texts that are both read back are the same for the same tokens only. -/
theorem listTextBy_inj_of_read?
    (hread : codec.read? (listTextBy codec tokens) = some (listToJson tokens))
    (hother : codec.read? (listTextBy codec others) = some (listToJson others)) :
    listTextBy codec others = listTextBy codec tokens ↔ others = tokens := by
  constructor
  · intro hsame
    rw [hsame, hread] at hother
    exact listToJson_injective (Option.some.inj hother).symm
  · rintro rfl
    rfl

end

/-- **Tokens survive JSON.**  The text of a list of tokens is read as that list, and no other list has
the same text.  So it is with compact texts, and with every writer and reader that read back plain
values. -/
theorem list_survives_json {tokens : List Token} (h : ∀ t ∈ tokens, t.Fits) :
    (listOfText? (listText tokens) = some tokens ∧
      ∀ others, listText others = listText tokens ↔ others = tokens) ∧
      ∀ codec : Json.Codec, codec.ReadsBack →
        listOfTextBy? codec (listTextBy codec tokens) = some tokens ∧
          ∀ others, (∀ t ∈ others, t.Fits) →
            (listTextBy codec others = listTextBy codec tokens ↔ others = tokens) := by
  refine ⟨⟨?_, fun others => ?_⟩, fun codec hcodec => ⟨?_, fun others hothers => ?_⟩⟩
  · exact listOfTextBy?_of_read? (read?_listText tokens) h
  · exact listTextBy_inj_of_read? (read?_listText tokens) (read?_listText others)
  · exact listOfTextBy?_of_read? (read?_listTextBy hcodec h) h
  · exact listTextBy_inj_of_read? (read?_listTextBy hcodec h) (read?_listTextBy hcodec hothers)

/-- Two tokens that no text has: with the greatest number of 32 bits, with zeros, and with a stop
before the start. -/
def unlikelyTokens : List Token :=
  [⟨.openCurly, ⟨10, 4294967295⟩, ⟨4294967295, 1⟩, ⟨7, 4294967295⟩⟩,
    ⟨.atWord, ⟨5, 3⟩, ⟨0, 0⟩, ⟨0, 100⟩⟩]

theorem list_survives_json_of_unlikelyTokens :
    (∀ t ∈ unlikelyTokens, t.Fits) ∧ Json.Codec.compact.ReadsBack ∧
      listOfText? (listText unlikelyTokens) = some unlikelyTokens ∧
      (∀ others, listText others = listText unlikelyTokens ↔ others = unlikelyTokens) ∧
      listOfTextBy? .compact (listTextBy .compact unlikelyTokens) = some unlikelyTokens := by
  have hfits : ∀ t ∈ unlikelyTokens, t.Fits := by decide
  obtain ⟨⟨hread, hsame⟩, hcodecs⟩ := list_survives_json hfits
  have hcompact := Json.Codec.compact_readsBack
  exact ⟨hfits, hcompact, hread, hsame, (hcodecs .compact hcompact).1⟩

end Token

end CssTokens
