import CssTokens.Json.Symbol

/-!
# CssTokens.Json.Reader — from symbols to a value

The symbols of a JSON text are taken one after the other.  The arrays and objects that have begun
and not yet ended are kept on a stack, each with what is already known of it; a `Reader` says beside
that stack what may come next.  A text is a value if, at its end, one value is complete and nothing
is open.

Nothing here limits how deep values are nested.
-/

namespace CssTokens.Json

set_option autoImplicit false

/-- An array or an object that has begun, with its parts so far, the last one first. -/
inductive Frame where
  | array (items : List Value)
  /-- An object, in which the value of a key is being read. -/
  | object (members : List (Text × Value)) (key : Text)

/-- What may come next. -/
inductive Reader where
  /-- A value. -/
  | value (frames : List Frame)
  /-- The first item of an array, or its end. -/
  | firstItem (frames : List Frame)
  /-- The first key of an object, or its end. -/
  | firstKey (frames : List Frame)
  /-- Another key of an object. -/
  | key (members : List (Text × Value)) (frames : List Frame)
  /-- The colon behind a key. -/
  | colon (members : List (Text × Value)) (key : Text) (frames : List Frame)
  /-- A value is complete, and what is open goes on or ends. -/
  | complete (v : Value) (frames : List Frame)

namespace Reader

/-- Begins a value. -/
def beginValue (frames : List Frame) : Symbol → Option Reader
  | .openCurly => some (firstKey frames)
  | .openSquare => some (firstItem frames)
  | .text t => some (complete (.string t) frames)
  | .atom v => some (complete v frames)
  | _ => none

/-- Takes the next symbol. -/
def step : Reader → Symbol → Option Reader
  | value frames, s => beginValue frames s
  | firstItem frames, .closeSquare => some (complete (.array []) frames)
  | firstItem frames, s => beginValue (.array [] :: frames) s
  | firstKey frames, .closeCurly => some (complete (.object []) frames)
  | firstKey frames, .text t => some (colon [] t frames)
  | key members frames, .text t => some (colon members t frames)
  | colon members t frames, .colon => some (value (.object members t :: frames))
  | complete v (.array items :: frames), .comma => some (value (.array (v :: items) :: frames))
  | complete v (.array items :: frames), .closeSquare =>
    some (complete (.array (v :: items).reverse) frames)
  | complete v (.object members t :: frames), .comma => some (key ((t, v) :: members) frames)
  | complete v (.object members t :: frames), .closeCurly =>
    some (complete (.object ((t, v) :: members).reverse) frames)
  | _, _ => none

/-- The value that was read, if it is complete and nothing is open. -/
def result? : Reader → Option Value
  | complete v [] => some v
  | _ => none

end Reader

/-- The value that a text is. -/
def Value.read? (text : String) : Option Value := do
  let symbols ← Symbol.ofChars text.toList
  let reader ← symbols.foldlM Reader.step (.value [])
  reader.result?

end CssTokens.Json
