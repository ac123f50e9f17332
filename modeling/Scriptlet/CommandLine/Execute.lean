import Scriptlet.CommandLine.Options
import Scriptlet.CommandLine.Paint
import Scriptlet.Evaluation.Evaluator
import Scriptlet.Evaluation.Scripted
import Scriptlet.Syntax.Outline

/-!
# Executing a command line

A command line is executed on two streams that are no terminals, and ends with an exit code.
Help, version and list come before running; samples run one after the other, each by itself,
until one fails.
-/

namespace Scriptlet.CommandLine

/-- The version of the program. -/
def version : Bytes := "0.3.0"

/-- The text of the help. -/
def usage : Bytes :=
  "Usage: ducklet [options] [sample...]\n" ++
  "Options:\n" ++
  "  -v, --version     Print version and exit\n" ++
  "  -h, --help        Show this help message\n" ++
  "  -l, --list        List the bundled samples\n" ++
  "  --dump-ast        Print each sample's AST before running it\n" ++
  "  --no-color        Disable colored error output\n" ++
  "  --max-depth N     Limit nested function calls (default 256)\n" ++
  "\n" ++
  "With no sample named, every bundled sample runs in order.\n" ++
  "Use `--` to end options.\n"

/-- One line for each sample. -/
def sampleList : Bytes :=
  Sample.all.flatMap fun s ↦ "  " ++ s.name ++ "  " ++ s.description ++ "\n"

/-- What executing a command line left behind. -/
structure Report where
  exitCode : Nat := 0
  /-- The refusal, if the command line was refused. -/
  message : Bytes := []
  output : Bytes := []
  errors : Bytes := []
  /-- Whether colours are switched on afterwards. -/
  colors : Bool := true
  deriving DecidableEq

/-- Runs samples until one fails; the flag tells whether trees are shown first. -/
def runSamples (maxDepth : Nat) (dump : Bool) : List Sample → Report → Report
  | [], report => report
  | s :: rest, report =>
    let shown := if dump then dumpProgram 0 (some s.program) else []
    let outcome := (Evaluator.new maxDepth).run {} (some s.program) "main"
    let report := { report with output := report.output ++ shown ++ outcome.output }
    match outcome.result with
    | .error (.error e) =>
      { report with
        exitCode := 1
        errors := report.errors ++ announceError e.report false ++ "\n" }
    | _ => runSamples maxDepth dump rest report

/-- The samples that were asked for; none stands for all. -/
def Options.selection (o : Options) : List Sample :=
  if o.samples = [] then Sample.all else o.samples.filterMap Sample.ofName?

/-- Executes a command line (specification §9). -/
def execute (arguments : List Bytes) : Report :=
  match parse arguments with
  | (_, some refusal) =>
    { exitCode := 1, message := refusal.message, errors := refusal.message }
  | (o, none) =>
    let report : Report := { colors := !o.noColor }
    if o.showHelp then { report with output := usage }
    else if o.showVersion then { report with output := "ducklet v" ++ version ++ "\n" }
    else if o.listSamples then { report with output := sampleList }
    else runSamples o.maxDepth o.dumpProgram o.selection report

/-- Executes the command line of a process, whose arguments are zero-terminated texts. -/
def executeProcess (arguments : List Bytes) : Report := execute (arguments.map Bytes.beforeZero)

end Scriptlet.CommandLine
