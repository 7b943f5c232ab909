import CssTokens.Json.Text

/-!
# CssTokens.Json.Value — values of JSON, and their compact text

Objects keep their members in the order in which they stand, repeated keys included: what to make
of a repeated key is for the one who asks.  Numbers that are not natural numbers keep the literal
they were written as, since nothing here calculates with them.

`Value.chars` writes a value without any blanks.  The accessors behind it say what a value is if it
has the shape that is asked for; `fields?` is the one for records, which may be written as an object
or, in the order of their fields, as an array.
-/

namespace CssTokens.Json

set_option autoImplicit false

/-- A value of JSON. -/
inductive Value where
  | null
  | bool (b : Bool)
  /-- A number written in digits only. -/
  | natural (n : Nat)
  /-- A number with a sign, a fraction or an exponent, as it was written. -/
  | number (literal : List Char)
  | string (t : Text)
  | array (items : List Value)
  | object (members : List (Text × Value))

namespace Value

/-! ## Compact text -/

mutual

/-- The compact text of a value. -/
def chars : Value → List Char
  | null => ['n', 'u', 'l', 'l']
  | bool true => ['t', 'r', 'u', 'e']
  | bool false => ['f', 'a', 'l', 's', 'e']
  | natural n => Nat.toDigits 10 n
  | number literal => literal
  | string t => t.chars
  | array [] => ['[', ']']
  | array (item :: items) => '[' :: (item.chars ++ itemChars items)
  | object [] => ['\x7b', '\x7d']
  | object ((key, value) :: members) =>
    '\x7b' :: (key.chars ++ ':' :: (value.chars ++ memberChars members))

/-- The items of an array behind the first, and its closing bracket. -/
def itemChars : List Value → List Char
  | [] => [']']
  | item :: items => ',' :: (item.chars ++ itemChars items)

/-- The members of an object behind the first, and its closing brace. -/
def memberChars : List (Text × Value) → List Char
  | [] => ['\x7d']
  | (key, value) :: members =>
    ',' :: (key.chars ++ ':' :: (value.chars ++ memberChars members))

end

/-- The compact text of a value. -/
def compact (v : Value) : String :=
  String.ofList v.chars

/-! ## Building values -/

/-- A string value. -/
def ofString (s : String) : Value :=
  string (.plain s)

/-- An object with plain keys. -/
def ofFields (fields : List (String × Value)) : Value :=
  object (fields.map fun f => (.plain f.1, f.2))

/-! ## Asking what a value is -/

/-- The truth value that a value is. -/
def bool? : Value → Option Bool
  | bool b => some b
  | _ => none

/-- The number of 32 bits that a value is. -/
def word? : Value → Option Nat
  | natural n => if n ≤ 4294967295 then some n else none
  | _ => none

/-- The members of an object whose key is a given name. -/
def membersNamed (members : List (Text × Value)) (name : String) : List Value :=
  (members.filter fun m => m.1 = .plain name).map Prod.snd

/-- The values of the named fields of a record, `none` for those that are missing.

An object has each of them at most once, and any others beside them; all its keys must be plain.
An array has them in order and may lack the last ones. -/
def fields? (names : List String) : Value → Option (List (Option Value))
  | array items =>
    if items.length ≤ names.length then
      some ((List.range names.length).map fun i => items[i]?)
    else
      none
  | object members =>
    if members.all (fun m => m.1 matches .plain _) &&
        names.all (fun name => (membersNamed members name).length ≤ 1) then
      some (names.map fun name => (membersNamed members name).head?)
    else
      none
  | _ => none

/-- The values of the named fields of a record, none of which may be missing. -/
def allFields? (names : List String) (v : Value) : Option (List Value) := do
  let fields ← v.fields? names
  fields.mapM id

end Value

end CssTokens.Json
