/-!
# Text in markup

A literal's content is written into the markup with the characters replaced that
would end it there: a quote inside an attribute value, an opening bracket in running
text, and the ampersand in both.
-/

namespace Stencil.Text

/-- Where in the markup a text goes. -/
inductive Setting where
  | attributeValue
  | running
  deriving DecidableEq, Repr

/-- How a character is written. -/
def escapeChar (setting : Setting) (c : Char) : List Char :=
  match setting, c with
  | _, '&' => ['&', 'a', 'm', 'p', ';']
  | .attributeValue, '"' => ['&', 'q', 'u', 'o', 't', ';']
  | .running, '<' => ['&', 'l', 't', ';']
  | _, c => [c]

/-- How a text is written. -/
def escape (setting : Setting) (text : String) : String :=
  String.ofList (text.toList.flatMap (escapeChar setting))

end Stencil.Text
