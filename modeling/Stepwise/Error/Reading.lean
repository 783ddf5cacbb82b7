/-!
# What can be wrong with source text

One constructor for each reason why a text is no expression, and the wording shown for it.
-/

namespace Stepwise

/-- Why a text cannot be read as an expression. -/
inductive ReadError where
  /-- Brackets that do not pair up, in the whole trimmed text. -/
  | unbalanced (text : String)
  /-- A text that does not begin with an opening bracket where a tuple is needed. -/
  | notTuple (text : String)
  /-- Something other than a closing bracket after a complete tuple; `text` starts there. -/
  | trailing (text : String)
  /-- An atom that is neither bound, nor built in, nor a literal. -/
  | unrecognized (text : String)
  /-- An atom that begins like a number and is none, or is out of range. -/
  | malformedNumber (text : String)
  /-- Nothing but blanks. -/
  | empty
  deriving DecidableEq, Repr

/-- The wording of a reading error. -/
def ReadError.message : ReadError → String
  | .unbalanced text => s!"unbalanced tuple: `{text}`"
  | .notTuple text => s!"expected a tuple but found `{text}`"
  | .trailing text => s!"unexpected input after tuple: `{text}`"
  | .unrecognized text => s!"unrecognized token `{text}`"
  | .malformedNumber text => s!"malformed number `{text}`"
  | .empty => "empty expression"

end Stepwise
