-- The parts of a URI that name a document.

namespace AbnfServer.Uri

/-- What follows the first character `c` of a text, or the whole text when
there is none. -/
def behind (c : Char) (t : List Char) : List Char :=
  match t.dropWhile (· != c) with
  | [] => t
  | _ :: rest => rest

/-- The path: no scheme, no authority, no query and no fragment. -/
def path (uri : String) : List Char :=
  let t := (behind ':' uri.toList).takeWhile fun c => c != '#' && c != '?'
  match t with
  | '/' :: '/' :: rest => rest.dropWhile (· != '/')
  | t => t

/-- The last segment of the path, as a short name of the document. -/
def shortName (uri : String) : List Char := ((path uri).reverse.takeWhile (· != '/')).reverse

end AbnfServer.Uri
