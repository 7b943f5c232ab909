/-!
# CssTokens.Options — what a tokenizer is told

A construct without its closing delimiter is an error unless the tokenizer was told to let such
constructs go, for good (`Options`) or for one request (`RequestOptions`).
-/

namespace CssTokens

set_option autoImplicit false

/-- What is fixed for a tokenizer. -/
structure Options where
  /-- Let constructs without their closing delimiter go up to the end of the text. -/
  ignoreErrors : Bool
deriving DecidableEq

namespace Options

/-- Constructs without their closing delimiter are errors. -/
def strict : Options :=
  ⟨false⟩

/-- The debugging text of the options. -/
def debug (o : Options) : String :=
  s!"TokenizerOptions \x7b ignore_errors: {o.ignoreErrors} \x7d"

end Options

/-- What is chosen for one request. -/
structure RequestOptions where
  /-- Let a construct without its closing delimiter go, this time. -/
  ignoreUnclosed : Bool
deriving DecidableEq

namespace RequestOptions

/-- Nothing special is chosen. -/
def usual : RequestOptions :=
  ⟨false⟩

/-- The debugging text of the options. -/
def debug (o : RequestOptions) : String :=
  s!"NextTokenOptions \x7b ignore_unclosed: {o.ignoreUnclosed} \x7d"

end RequestOptions

end CssTokens
