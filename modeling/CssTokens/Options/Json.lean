import CssTokens.Json.Reader
import CssTokens.Options

/-!
# CssTokens.Options.Json — options as JSON

Options are records of one field.  On reading the field may be missing, and then it is `false`.
-/

namespace CssTokens

set_option autoImplicit false

open Json (Value)

/-- The truth value of the one field of a record, `false` if it is missing. -/
def Json.Value.flag? (name : String) (v : Value) : Option Bool := do
  match ← v.fields? [name] with
  | [some b] => b.bool?
  | _ => return false

namespace Options

/-- The options as a value of JSON. -/
def toJson (o : Options) : Value :=
  .ofFields [("ignore-errors", .bool o.ignoreErrors)]

/-- The options that a value of JSON stands for. -/
def ofJson? (v : Value) : Option Options :=
  (v.flag? "ignore-errors").map .mk

end Options

namespace RequestOptions

/-- The options as a value of JSON. -/
def toJson (o : RequestOptions) : Value :=
  .ofFields [("ignore-unclosed", .bool o.ignoreUnclosed)]

/-- The options that a value of JSON stands for. -/
def ofJson? (v : Value) : Option RequestOptions :=
  (v.flag? "ignore-unclosed").map .mk

end RequestOptions

end CssTokens
