-- The core rules of RFC 5234, which every grammar may use without defining
-- them.
import AbnfServer.Text.Basic

namespace AbnfServer.Rule

/-- The core rules, in the order of the RFC. -/
inductive CoreRule
  | alpha | bit | char | cr | crlf | ctl | digit | dquote
  | hexdig | htab | lf | lwsp | octet | sp | vchar | wsp
deriving DecidableEq, Repr

namespace CoreRule

def all : List CoreRule :=
  [alpha, bit, char, cr, crlf, ctl, digit, dquote, hexdig, htab, lf, lwsp, octet, sp, vchar, wsp]

/-- The name of a core rule. Case matters: `sp` is no core rule. -/
def name : CoreRule → String
  | alpha => "ALPHA"
  | bit => "BIT"
  | char => "CHAR"
  | cr => "CR"
  | crlf => "CRLF"
  | ctl => "CTL"
  | digit => "DIGIT"
  | dquote => "DQUOTE"
  | hexdig => "HEXDIG"
  | htab => "HTAB"
  | lf => "LF"
  | lwsp => "LWSP"
  | octet => "OCTET"
  | sp => "SP"
  | vchar => "VCHAR"
  | wsp => "WSP"

/-- The ABNF body of a core rule. -/
def definition : CoreRule → String
  | alpha => "%x41-5A / %x61-7A"
  | bit => "\"0\" / \"1\""
  | char => "%x01-7F"
  | cr => "%x0D"
  | crlf => "CR LF"
  | ctl => "%x00-1F / %x7F"
  | digit => "%x30-39"
  | dquote => "%x22"
  | hexdig => "DIGIT / \"A\" / \"B\" / \"C\" / \"D\" / \"E\" / \"F\""
  | htab => "%x09"
  | lf => "%x0A"
  | lwsp => "*(WSP / CRLF WSP)"
  | octet => "%x00-FF"
  | sp => "%x20"
  | vchar => "%x21-7E"
  | wsp => "SP / HTAB"

/-- The core rule of a name. -/
def ofName? (t : Text) : Option CoreRule := all.find? fun r => r.name.toList = t

end CoreRule

end AbnfServer.Rule
