-- The messages in English.
import AbnfServer.Message.Catalog

namespace AbnfServer.Catalog

/-- The messages in English. -/
def english : Catalog where
  describe
    | .alpha => "Alphabetic characters (A-Z, a-z)"
    | .bit => "Binary digit (0 or 1)"
    | .char => "7-bit ASCII character (excluding NUL)"
    | .cr => "Carriage return"
    | .crlf => "Internet standard newline"
    | .ctl => "Control characters"
    | .digit => "Decimal digits (0-9)"
    | .dquote => "Double quote character"
    | .hexdig => "Hexadecimal digits (0-9, A-F)"
    | .htab => "Horizontal tab"
    | .lf => "Line feed"
    | .lwsp => "Linear white space (use with caution)"
    | .octet => "8 bits of data"
    | .sp => "Space character"
    | .vchar => "Visible (printing) characters"
    | .wsp => "White space (space or tab)"
  coreRuleTitle := "ABNF Core Rule"
  userRuleTitle := "ABNF Rule"
  userRuleHint := "Click to view definition, or use F2 to rename."
  definitionLabel := "Definition"
  sourceLabel := "Source"
  source := "RFC 5234"
  invalidRuleName := "Invalid rule name. Rule names must start with a letter and can only " ++
    "contain letters, digits, and hyphens."
  ruleNotDefined := "Rule \"\x7b0\x7d\" is not defined"
  renameFailed := "Rename failed: \x7b0\x7d"
  abnfRule := "ABNF Rule"

end AbnfServer.Catalog
