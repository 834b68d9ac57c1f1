-- The program: it reads the command line, and holds a session over standard
-- input and output.
import AbnfServer.CommandLine.Basic
import AbnfServer.CommandLine.LogFile
import AbnfServer.Json.Parser
import AbnfServer.Session.Envelope
import AbnfServer.Session.Frame

namespace AbnfServer.Program

/-- Reads the lines of a header, or nothing at the end of the stream. -/
partial def readHeader (input : IO.FS.Stream) (read : List Text) : IO (Option (List Text)) := do
  let line ← input.getLine
  if line.isEmpty then return none
  let line := line.toList.filter fun c => c != '\r' && c != '\n'
  if line.isEmpty then return some read.reverse
  readHeader input (line :: read)

/-- Reads so many bytes, or fewer at the end of the stream. -/
partial def readBytes (input : IO.FS.Stream) (count : Nat) (read : ByteArray) : IO ByteArray := do
  if count ≤ read.size then return read
  let more ← input.read (USize.ofNat (count - read.size))
  if more.isEmpty then return read
  readBytes input count (read ++ more)

def send (output : IO.FS.Stream) (message : Json) : IO Unit := do
  output.putStr (Frame.wrap message.render)
  output.flush

/-- Holds a session until the stream ends or the client exits. -/
partial def hold (input output : IO.FS.Stream) (s : Session) : IO Unit := do
  let some header ← readHeader input [] | return
  let some length := Frame.lengthOf? header | hold input output s
  let body ← readBytes input length .empty
  if body.size < length then return
  let received := (String.fromUTF8? body).bind Json.parse?
  let (replies, s) := Envelope.exchange s (← IO.monoNanosNow) received
  replies.forM (send output)
  if s.phase = .exited then return
  hold input output s

/-- Opens the log file, behind the folders that lead to it. -/
def openLog (o : CommandLine.Options) : IO IO.FS.Handle := do
  let home := (← IO.getEnv "HOME").getD "/tmp"
  let log := LogFile.choose home (← IO.currentDir).toString o.logFile
  log.folderPath?.forM fun folder => IO.FS.createDirAll folder
  IO.FS.Handle.mk log.path .append

/-- Writes a line into the log, if it takes one. -/
def record (log : IO.FS.Handle) (line : String) : IO Unit := do
  try log.putStrLn line catch _ => pure ()

/-- Holds a session, and tells whether there was a log for it. -/
def serve (o : CommandLine.Options) : IO Bool := do
  match ← (openLog o).toBaseIO with
  | .error e =>
    (← IO.getStderr).putStrLn ("error: cannot open the log file: " ++ e.toString)
    return false
  | .ok log =>
    record log ("Starting ABNF Analyzer server v" ++ Wire.serverVersion)
    hold (← IO.getStdin) (← IO.getStdout) o.session
    return true

end AbnfServer.Program

open AbnfServer in
/-- Does what the command line asks for. -/
def main (args : List String) : IO UInt32 := do
  let invocation := CommandLine.invocation args
  (← IO.getStdout).putStr invocation.output
  let logged ← match invocation with
    | .serve o => Program.serve o
    | .refuse => (← IO.getStderr).putStrLn "error: unexpected arguments; see --help"; pure false
    | .print _ => pure false
  return invocation.exitCode logged
