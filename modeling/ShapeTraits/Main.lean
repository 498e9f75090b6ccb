-- The command line: gathers what a run needs, runs, and passes on what it
-- leaves.
import ShapeTraits.Cli.Run
import Std.Time.Zoned

open ShapeTraits

namespace ShapeTraits.CommandLine

/-- Some bytes as the text of a path. -/
def pathText (path : Bytes) : String := (String.fromUTF8? ⟨path.toArray⟩).getD ""

/-- The names of the working directory. -/
def workingDirectory : IO (List Bytes) := do
  let path ← IO.currentDir
  return (Files.namesOf (utf8 path.toString)).filter (!Files.staysAt ·)

/-- The time of day in milliseconds. -/
def timeOfDay : IO Int := do
  let now ← Std.Time.PlainTime.now
  return now.toMilliseconds.val

/-- The log file of some arguments, if they name one that can be opened. -/
def openLog (path : Bytes) : IO (Option IO.FS.Handle) := do
  if path.isEmpty then return none
  try
    return some (← IO.FS.Handle.mk ⟨pathText path⟩ .append)
  catch _ => return none

/-- The content of a file that can be read. -/
def readFile (path : Bytes) : IO (Option Bytes) := do
  try
    return some (← IO.FS.readBinFile ⟨pathText path⟩).toList
  catch _ => return none

/-- The files that some arguments name: the log file, which is there once it is
open, and the document. -/
def gatherFiles (arguments : List Bytes) (logPath : Bytes) (isOpen : Bool) : IO Files := do
  let files := Files.emptyAt (← workingDirectory)
  let files :=
    if logPath.isEmpty then files
    else if isOpen then files.add logPath []
    else files.addDirectory logPath
  match Cli.Options.ofArguments arguments with
  | .error _ => return files
  | .ok options =>
    match ← readFile options.path with
    | some content => return files.add options.path content
    | none => return files

/-- Writes bytes to a stream. -/
def send (stream : IO.FS.Stream) (text : Bytes) : IO Unit := do
  stream.write ⟨text.toArray⟩
  stream.flush

end ShapeTraits.CommandLine

open ShapeTraits.CommandLine in
def main (args : List String) : IO UInt32 := do
  let arguments := args.map utf8
  let setting := (← IO.getEnv "SIDL_LOG").map utf8
  let logPath := if arguments.any Cli.isHelp then [] else (Log.configure arguments setting).file
  let log ← openLog logPath
  let files ← gatherFiles arguments logPath log.isSome
  let host : Host := {
    files := files
    stdout := []
    stderr := []
    clock := ← timeOfDay
    isTerminal := ← (← IO.getStderr).isTty
    terminal := (← IO.getEnv "TERM").map utf8
    logSpec := setting }
  let (code, left) := Cli.run arguments ⟨.initial, host⟩
  send (← IO.getStdout) left.host.stdout
  send (← IO.getStderr) left.host.stderr
  match log with
  | some handle =>
    let before := (files.read? logPath).getD []
    let after := (left.host.files.read? logPath).getD []
    handle.write ⟨(after.drop before.length).toArray⟩
  | none => pure ()
  return code
