/-!
# What can be wrong with a template

One constructor per cause. The code groups causes that a tool treats alike, the
message tells the author what was expected; both are part of what the compiler
shows, so they are fixed here and nowhere else.
-/

namespace Stencil

/-- Why a template was refused. -/
inductive Fault where
  /-- There is no fragment at all. -/
  | emptyTemplate
  /-- A leading `-` that no option letter follows. -/
  | optionFlag
  /-- An option letter that no blank follows. -/
  | optionBlank
  | tagName
  | className
  | attributeName
  | propertyName
  | eventName
  /-- A quote closes too near the end of its fragment for its delimiter. -/
  | stringLiteral
  | equals
  /-- An attribute with `=` and neither a literal nor an expression after it. -/
  | attributeValue
  | bindingValue
  | directiveValue
  /-- A count does not fit the field that has to hold it. -/
  | templateSize
  /-- An insertion point names a step of the walk that saves no node. -/
  | unresolvedAnchor
  deriving DecidableEq, Repr

namespace Fault

/-- The code that a tool goes by. -/
def code : Fault → String
  | emptyTemplate => "E-EMPTY"
  | optionFlag | optionBlank => "E-OPTION"
  | tagName => "E-TAG"
  | className => "E-CLASS"
  | attributeName | propertyName | eventName => "E-NAME"
  | stringLiteral => "E-STRING"
  | equals => "E-EQ"
  | attributeValue | bindingValue | directiveValue => "E-EXPR"
  | templateSize => "E-SIZE"
  | unresolvedAnchor => "E-INTERNAL"

/-- The text that an author reads. -/
def message : Fault → String
  | emptyTemplate => "empty template"
  | optionFlag => "expected an option flag"
  | optionBlank => "expected a whitespace"
  | tagName => "expected a valid tag name"
  | className => "expected a valid class name"
  | attributeName => "expected a valid attribute name"
  | propertyName => "expected a valid property name"
  | eventName => "expected a valid event name"
  | stringLiteral => "invalid string"
  | equals => "expected a '=' character"
  | attributeValue => "expected a string or an expression"
  | bindingValue => "expected an expression"
  | directiveValue => "expected an attribute directive expression"
  | templateSize => "template is too large"
  | unresolvedAnchor => "unresolved child anchor"

end Fault
end Stencil
