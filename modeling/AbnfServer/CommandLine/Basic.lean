-- The command line. Arguments count from left to right, and the first one
-- that is wrong, or that asks for help or for the version, decides.
import AbnfServer.Session.Wire
import AbnfServer.Settings.Reference

namespace AbnfServer.CommandLine

/-- The options that are given at most once. -/
structure Options where
  verbose : Bool := false
  printSettings : Bool := false
  logFile : Option String := none
  locale : Option String := none
deriving DecidableEq, Repr

/-- Why no more arguments are read. -/
inductive Stop
  | help
  | version
  | misuse
deriving DecidableEq, Repr

/-- An option without a value. -/
inductive Flag
  | verbose
  | printSettings
  | help
  | version
deriving DecidableEq, Repr

/-- An option with a value. -/
inductive Parameter
  | logFile
  | locale
deriving DecidableEq, Repr

/-- One argument. -/
inductive Argument
  /-- Short flags stand together; a letter that is none is kept as such. -/
  | flags (fs : List (Option Flag))
  | parameter (p : Parameter) (value : Option String)
  /-- Two hyphens: what follows is no option. -/
  | separator
  | unexpected
deriving DecidableEq, Repr

namespace Argument

def longFlag? (name : String) : Option Flag :=
  match name with
  | "verbose" => some .verbose
  | "print-config-schema" => some .printSettings
  | "help" => some .help
  | "version" => some .version
  | _ => none

def parameter? (name : String) : Option Parameter :=
  match name with
  | "log-file" => some .logFile
  | "locale" => some .locale
  | _ => none

def shortFlag? (c : Char) : Option Flag :=
  if c = 'v' then some .verbose
  else if c = 'h' then some .help
  else if c = 'V' then some .version
  else none

/-- Reads a long option. A value may follow an equals sign, but not with a
flag. -/
def ofLong (t : Text) : Argument :=
  let name := String.ofList (t.takeWhile (· != '='))
  let value := match t.dropWhile (· != '=') with
    | [] => none
    | _ :: v => some (String.ofList v)
  match parameter? name, longFlag? name, value with
  | some p, _, value => parameter p value
  | none, some f, none => flags [some f]
  | _, _, _ => unexpected

/-- Reads an argument. There are no arguments but options. -/
def ofString (s : String) : Argument :=
  match s.toList with
  | ['-', '-'] => separator
  | '-' :: '-' :: t => ofLong t
  | '-' :: c :: t => flags ((c :: t).map shortFlag?)
  | _ => unexpected

end Argument

/-! ## Reading the arguments -/

namespace Options

/-- Raises a flag. A second time is an error. -/
def raise (o : Options) : Option Flag → Except Stop Options
  | some .verbose => if o.verbose then .error .misuse else .ok { o with verbose := true }
  | some .printSettings =>
    if o.printSettings then .error .misuse else .ok { o with printSettings := true }
  | some .help => .error .help
  | some .version => .error .version
  | none => .error .misuse

/-- Sets a parameter. A second time is an error. -/
def set (o : Options) (p : Parameter) (value : String) : Except Stop Options :=
  match p, o.logFile, o.locale with
  | .logFile, none, _ => .ok { o with logFile := some value }
  | .locale, _, none => .ok { o with locale := some value }
  | _, _, _ => .error .misuse

/-- What starts with a hyphen is no value, but a hyphen alone is. -/
def isValue (s : String) : Bool :=
  match s.toList with
  | '-' :: _ :: _ => false
  | _ => true

/-- Reads arguments on top of the options so far. -/
def read (o : Options) : List String → Except Stop Options
  | [] => .ok o
  | a :: rest =>
    match Argument.ofString a with
    | .flags fs => do read (← fs.foldlM raise o) rest
    | .parameter p (some value) => do read (← o.set p value) rest
    | .parameter p none =>
      match rest with
      | [] => .error .misuse
      | value :: rest =>
        if isValue value then do read (← o.set p value) rest else .error .misuse
    | .separator => if rest.isEmpty then .ok o else .error .misuse
    | .unexpected => .error .misuse

end Options

/-! ## What is to be done -/

/-- What the command line asks for. -/
inductive Invocation
  | serve (o : Options)
  | print (text : String)
  | refuse
deriving DecidableEq, Repr

def helpText : String :=
  "A Language Server Protocol implementation for ABNF grammar documents\n\n" ++
  "Usage: abnf-analyzer [OPTIONS]\n\n" ++
  "Options:\n" ++
  "  -v, --verbose              \n" ++
  "      --log-file <LOG_FILE>  \n" ++
  "      --locale <LOCALE>      Initial message locale (`en` or `zh-CN`). " ++
    "The client's settings may override it\n" ++
  "      --print-config-schema  Print the settings reference as Markdown and exit\n" ++
  "  -h, --help                 Print help\n" ++
  "  -V, --version              Print version\n"

def versionText : String := Wire.serverName ++ " " ++ Wire.serverVersion ++ "\n"

/-- The invocation that the arguments amount to. -/
def invocation (args : List String) : Invocation :=
  match Options.read {} args with
  | .error .help => .print helpText
  | .error .version => .print versionText
  | .error .misuse => .refuse
  | .ok o => if o.printSettings then .print Settings.markdownPage else .serve o

namespace Invocation

/-- The exit code, once all is done. There is no session without a log. -/
def exitCode (logged : Bool) : Invocation → UInt32
  | serve _ => if logged then 0 else 101
  | print _ => 0
  | refuse => 2

/-- What is printed, if no session is held. -/
def output : Invocation → String
  | print text => text
  | _ => ""

end Invocation

/-- The session that a command line starts. A tag of no language counts as
none. -/
def Options.session (o : Options) : Session := .new (o.locale.bind Locale.ofTag?)

end AbnfServer.CommandLine
