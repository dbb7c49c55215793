import SfcIndex.Text.Span

/-! # Warnings -/

namespace SfcIndex

/-- What a reader should know about a table. -/
inductive Warning where
  /-- A script has a syntax error; names found before it are kept. -/
  | scriptSyntax (region : Span) (message : String)
  /-- A component is a class, whose names are not collected. -/
  | classComponent (region : Span)
  /-- A region has no closing tag; its content is read up to the end of the file. -/
  | unclosedRegion (name : String) (region : Span)
  | unsupportedDocument (path expected : String)
  deriving Repr, DecidableEq

namespace Warning

/-- The word for a kind of warning. -/
def label : Warning → String
  | scriptSyntax _ _ => "script-syntax"
  | classComponent _ => "class-component"
  | unclosedRegion _ _ => "unclosed-region"
  | unsupportedDocument _ _ => "unsupported-document"

def message : Warning → String
  | scriptSyntax region message => s!"syntax error in <script> at {region.render}: {message}"
  | classComponent region =>
    s!"class-style component in <script> at {region.render} is not analyzed"
  | unclosedRegion name region =>
    s!"<{name}> at {region.render} is never closed; read to end of file"
  | unsupportedDocument path expected =>
    s!"{path} is not a supported document (expected {expected})"

end Warning

end SfcIndex
