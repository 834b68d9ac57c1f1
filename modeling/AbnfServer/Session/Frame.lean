-- Messages on a stream of bytes. Each one has a header of lines that tells how
-- many bytes it takes, and an empty line behind the header.
import AbnfServer.Text.Blank
import AbnfServer.Text.Basic

namespace AbnfServer.Frame

/-- The header field that tells the length. -/
def lengthField : Text := "content-length".toList

/-- The length that a line of a header tells. Upper and lower case are alike
in the name of a field. -/
def length? (line : Text) : Option Nat :=
  let name := line.takeWhile (· != ':')
  if Text.trim (name.map Char.toLower) = lengthField then
    (String.ofList (Text.trim ((line.dropWhile (· != ':')).drop 1))).toNat?
  else none

/-- The length that a header tells. -/
def lengthOf? (header : List Text) : Option Nat := header.findSome? length?

/-- A message with its header. -/
def wrap (body : String) : String :=
  "Content-Length: " ++ toString body.utf8ByteSize ++ "\r\n\r\n" ++ body

end AbnfServer.Frame
