import Scriptlet.Sample

/-!
# Command-line options

Arguments are read from left to right. An argument that starts with a dash is an option,
until a double dash ends the options; every other argument names a sample. Reading stops at
the first option that does not fit and keeps what was read before it. The names of samples
are checked last.
-/

namespace Scriptlet.CommandLine

/-- What the command line asks for (specification §9). -/
structure Options where
  showHelp : Bool := false
  showVersion : Bool := false
  listSamples : Bool := false
  dumpProgram : Bool := false
  noColor : Bool := false
  maxDepth : Nat := 256
  samples : List Bytes := []
  deriving DecidableEq

/-- An option without a value. -/
inductive Flag where
  | help
  | version
  | list
  | dump
  | noColor
  deriving DecidableEq

namespace Flag

/-- Every flag under each of its spellings. -/
def spellings : List (Bytes × Flag) :=
  [("-h", help), ("--help", help), ("-v", version), ("--version", version), ("-l", list),
    ("--list", list), ("--dump-ast", dump), ("--no-color", noColor)]

/-- The flag with a spelling. -/
def ofText? (t : Bytes) : Option Flag := spellings.lookup t

/-- The options with a flag set. -/
def set (o : Options) : Flag → Options
  | help => { o with showHelp := true }
  | version => { o with showVersion := true }
  | list => { o with listSamples := true }
  | dump => { o with dumpProgram := true }
  | noColor => { o with noColor := true }

end Flag

/-- Why a command line is refused. -/
inductive Refusal where
  | missingDepth
  | invalidDepth (text : Bytes)
  | unknownOption (argument : Bytes)
  | unknownSample (name : Bytes)
  deriving DecidableEq

/-- What the user is told about a refusal. -/
def Refusal.message : Refusal → Bytes
  | missingDepth => "ducklet: option '--max-depth' needs a value\n"
  | invalidDepth text => "ducklet: invalid value '" ++ text ++ "' for '--max-depth'\n"
  | unknownOption argument =>
    "ducklet: unknown option '" ++ argument ++ "'\nTry 'ducklet --help' for more information.\n"
  | unknownSample name =>
    "ducklet: unknown sample '" ++ name ++ "'\nTry 'ducklet --list' to see the bundled samples.\n"

/-- The greatest depth that can be asked for. -/
def greatestDepth : Nat := 1000000

/-- Reads digits on to the number `n` that was read so far, and gives up at the first byte that is
none, and where the number becomes too great. -/
def readDepth? (n : Nat) : Bytes → Option Nat
  | [] => some n
  | c :: rest =>
    if Bytes.isDigit c then
      let n := 10 * n + (c.toNat - 0x30)
      if n ≤ greatestDepth then readDepth? n rest else none
    else none

/-- A depth: decimal digits for a number from one to a million. -/
def depthOfText? (text : Bytes) : Option Nat :=
  if text = [] then none else (readDepth? 0 text).filter (· ≠ 0)

/-- Whether an argument starts with a dash. -/
def isOption (argument : Bytes) : Bool := argument.head? == some 0x2D

/-- Reads the arguments into the options read so far. -/
def scan (o : Options) : List Bytes → Options × Option Refusal
  | [] => (o, none)
  | argument :: rest =>
    if isOption argument then
      if argument = "--" then ({ o with samples := o.samples ++ rest }, none)
      else
        match Flag.ofText? argument with
        | some flag => scan (flag.set o) rest
        | none =>
          if argument = "--max-depth" then
            match rest with
            | [] => (o, some .missingDepth)
            | value :: rest =>
              match depthOfText? value with
              | some depth => scan { o with maxDepth := depth } rest
              | none => (o, some (.invalidDepth value))
          else (o, some (.unknownOption argument))
    else scan { o with samples := o.samples ++ [argument] } rest

/-- Reads a command line, then checks the names of its samples (specification §9). -/
def parse (arguments : List Bytes) : Options × Option Refusal :=
  match scan {} arguments with
  | (o, some refusal) => (o, some refusal)
  | (o, none) => (o, (o.samples.find? fun n ↦ (Sample.ofName? n).isNone).map .unknownSample)

end Scriptlet.CommandLine
