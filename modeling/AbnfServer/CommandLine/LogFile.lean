-- Where the log file is, and whether it can be opened there. A path with no
-- file name in it names the folder that the log file is put in.

namespace AbnfServer

/-- What stands at a place. A sealed folder takes nothing new. -/
inductive Entry
  | file
  | folder
  | sealedFolder
deriving DecidableEq, Repr

/-- A log file: the way to it and its name. -/
structure LogFile where
  /-- The names of the folders from the root down to the one that the way starts
  from. -/
  start : List String
  /-- The parts of the way, as they were written. -/
  way : List String
  name : String
deriving DecidableEq, Repr

namespace LogFile

/-! ## Paths -/

/-- The name of a log file that nobody named. -/
def defaultName : String := "abnf-analyzer.log"

/-- Whether a part of a path leads anywhere; an empty one and a dot do not. -/
def leads (part : String) : Bool := part != "" && part != "."

/-- The parts of a path up to the last one that leads anywhere. -/
def upToLast (parts : List String) : List String :=
  (parts.reverse.dropWhile fun part => !leads part).reverse

/-- The parts of a path that lead anywhere. -/
def steps (path : String) : List String := (path.splitOn "/").filter leads

/-- The way in front of the name of a file. Its first part always stays: it tells
whether the way starts from the root. -/
def wayTo (parts : List String) : List String :=
  match parts.dropLast with
  | [] => []
  | first :: rest => first :: upToLast rest

/-- The file that a path names, seen from a folder. -/
def locate (folder : List String) (path : String) : LogFile :=
  let parts := upToLast (path.splitOn "/")
  match parts.getLast? with
  | none => ⟨folder, [], defaultName⟩
  | some name =>
    ⟨if path.startsWith "/" then [] else folder, wayTo parts,
      if name = ".." then defaultName else name⟩

/-- The folder for logs in the home of a user. -/
def homeFolder (home : String) : String := home ++ "/.abnf-analyzer"

/-- The log file: the one that is asked for, seen from the working folder, or
the one in the home of the user. -/
def choose (home workingFolder : String) (asked : Option String) : LogFile :=
  locate (steps workingFolder) (asked.getD (homeFolder home ++ "/" ++ defaultName))

/-- The path that the file is opened by. -/
def path (f : LogFile) : String := "/".intercalate (f.way ++ [f.name])

/-- The path of the folder that holds the file, if the way has any part. -/
def folderPath? (f : LogFile) : Option String :=
  match f.way with
  | [] => none
  | [""] => some "/"
  | way => some ("/".intercalate way)

/-! ## Places -/

/-- The folders that one comes by from a folder. Two dots lead to the folder
above. -/
def walk (folder : List String) : List String → List (List String)
  | [] => []
  | step :: rest =>
    let next := if step = ".." then folder.dropLast else folder ++ [step]
    next :: walk next rest

/-- The folders on the way, which are made where there are none. -/
def passed (f : LogFile) : List (List String) := walk f.start (f.way.filter leads)

/-- The names from the root down to the file. -/
def place (f : LogFile) : List String := f.passed.getLast?.getD f.start ++ [f.name]

/-! ## Opening -/

/-- A longer name is refused; it counts in bytes. -/
def longestName : Nat := 255

/-- A longer path is refused; it counts in bytes. -/
def longestPath : Nat := 4095

/-- Whether something new can be made at a place. -/
def canMake (standing : List String → Option Entry) (place : List String) : Bool :=
  standing place.dropLast != some .sealedFolder &&
    place.getLast?.all fun name => name.utf8ByteSize ≤ longestName

/-- Whether there is a folder at a place, or one can be made. -/
def canPass (standing : List String → Option Entry) (place : List String) : Bool :=
  match standing place with
  | some .file => false
  | some _ => true
  | none => canMake standing place

/-- Whether the file can be opened, among what stands at the places. A folder
is no file, and nor is one that was made on the way. -/
def canOpen (standing : List String → Option Entry) (f : LogFile) : Bool :=
  f.path.utf8ByteSize ≤ longestPath && f.passed.all (canPass standing) &&
    match standing f.place with
    | some .file => true
    | some _ => false
    | none => canMake standing f.place && !f.passed.contains f.place

end LogFile

end AbnfServer
