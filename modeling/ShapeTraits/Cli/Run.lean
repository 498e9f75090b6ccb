-- A run of the tool: read a document, and print each statement as one value,
-- or say what is wrong with it.
import ShapeTraits.Apply
import ShapeTraits.Cli.Diagnostic
import ShapeTraits.Cli.Options
import ShapeTraits.Token.Lexer

namespace ShapeTraits

/-! ## Documents -/

/-- The events of turning a document into tokens. -/
def tokenEvents (s : Source) (tokens : List Token) : List Log.Event :=
  (lexicalErrors tokens).map (fun e => .badToken e.fault e.start) ++
    [.tokenized s.file tokens.length (lexicalErrors tokens).length]

/-- The statements among some tokens, or an error, and the cursor behind
them. -/
def readDocument (r : Resolver) (tokens : List Token) (limit : Nat) :
    Except ParseError (List Apply) × Cursor :=
  Apply.readAll r (Cursor.ofTokens tokens limit)

namespace Cli

/-! ## Usage -/

def version : Bytes := utf8 "0.3.0"

/-- How to use the tool. -/
def usage : Bytes :=
  Bytes.joinWith [Byte.lineFeed]
    [utf8 "sidl-traits " ++ version,
      [],
      utf8 "Usage: sidl-traits [options] <file>",
      [],
      utf8 "Options:",
      utf8 "  --pretty            Indent the JSON output",
      utf8 "  --max-depth=N       Maximum nesting depth of values (default 64)",
      utf8 "  --log-level=LEVEL   trace, debug, info, warn, error, off",
      utf8 "  --log-filter=SPEC   Per-module levels, e.g. parser=debug,*=warn",
      utf8 "  --log-file=PATH     Also write log messages to PATH",
      utf8 "  -v, -vv, -vvv       More logging; -q for errors only",
      utf8 "  -h, --help          Show this help",
      []]

/-! ## Runs -/

/-- The log and its surroundings in the course of a run. -/
structure State where
  logger : Log.Logger
  host : Host
  deriving DecidableEq, Repr

namespace State

def tell (s : State) (events : List Log.Event) : State :=
  let (logger, host) := s.logger.tell events s.host
  ⟨logger, host⟩

def print (s : State) (text : Bytes) : State := { s with host := s.host.print text }

def complain (s : State) (text : Bytes) : State := { s with host := s.host.complain text }

def flush (s : State) : State :=
  let (logger, host) := s.logger.flush s.host
  ⟨logger, host⟩

end State

/-- The exit codes: all went well, or something was wrong. -/
def success : UInt32 := 0

def failure : UInt32 := 1

/-- The line of output of a statement. -/
def statementText (pretty : Bool) (statement : Apply) : Bytes :=
  let node := statement.toNode
  (if pretty then node.prettyText 2 else node.text) ++ utf8 "\n"

/-- The output of a document that has been read, after its warnings. -/
def report (o : Options) (source : Source) (statements : List Apply) (c : Cursor) (s : State) :
    State :=
  let warnings := c.warnings.flatMap fun w =>
    diagnostic source w.location (utf8 "warning") w.message
  let s := s.complain warnings
  let s := s.print (statements.flatMap (statementText o.pretty))
  s.tell [.finished statements.length c.references.length]

/-- Reads the statements of a document and prints them all, or none if
something is wrong anywhere. -/
def process (o : Options) (source : Source) (s : State) : UInt32 × State :=
  let tokens := source.tokens
  let s := s.tell (tokenEvents source tokens)
  match lexicalErrors tokens with
  | [] =>
    match readDocument .forward tokens o.limit with
    | (.ok statements, c) => (success, report o source statements c (s.tell c.events))
    | (.error e, c) =>
      let s := (s.tell c.events).tell [.failed o.path]
      (failure, s.complain (diagnostic source e.location (utf8 "error") e.message))
  | errors =>
    let text := errors.flatMap fun e => diagnostic source e.start (utf8 "error") e.fault.message
    (failure, s.complain text)

/-- Loads a document and processes it. A path to a directory is refused like one that
leads nowhere, and is no empty document: see `Files.read?`. -/
def load (o : Options) (s : State) : UInt32 × State :=
  let s := s.tell [.loading o.path]
  match s.host.files.read? o.path with
  | none =>
    (failure, s.complain (utf8 "error: cannot open model file: " ++ o.path ++ utf8 "\n"))
  | some content => process o ⟨o.path, content⟩ s

def isHelp (argument : Bytes) : Bool := argument == utf8 "-h" || argument == utf8 "--help"

/-- A whole run: the exit code, and what it leaves behind. -/
def run (arguments : List Bytes) (s : State) : UInt32 × State :=
  if arguments.any isHelp then (success, s.print usage)
  else
    let (logger, host) := s.logger.init (Log.configure arguments s.host.logSpec) s.host
    let s : State := ⟨logger, host⟩
    match Options.ofArguments arguments with
    | .error e => (failure, (s.complain (utf8 "error: " ++ e.message ++ utf8 "\n\n")).print usage)
    | .ok o =>
      let (code, s) := load o s
      (code, s.flush)

end Cli

end ShapeTraits
