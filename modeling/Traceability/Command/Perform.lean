import Traceability.Command.Arguments
import Traceability.Command.Discovery
import Traceability.Config.File
import Traceability.Disk.Source
import Traceability.Json.Printer
import Traceability.Repair.Files
import Traceability.Run.Output

/-! Commands: what a request reads, prints and writes. -/

namespace Traceability

/-- What a command leaves behind besides files: its output, its complaints, and a status that is
zero if all is well, one if something was found, and two if it could not be done. -/
structure Outcome where
  output : String := ""
  complaints : List String := []
  status : Nat := 0
deriving Repr, DecidableEq

/-- Why a command could not be done. -/
inductive CommandError where
  | unreadable (failure : ReadFailure)
  | invalidSummary (path : String)
  | invalidConfigFile (path : String)
  | config (error : ConfigError)
deriving Repr, DecidableEq

def CommandError.message : CommandError → String
  | .unreadable failure => "I/O error: " ++ failure.message
  | .invalidSummary path => "I/O error: " ++ path ++ " is no summary of changes"
  | .invalidConfigFile path => "Invalid configuration file: " ++ path
  | .config error => "Configuration error: " ++ error.message

namespace Command

/-- The version of the program, as it reports it. -/
def version : String := "elspais 0.1.0"

def usage : String :=
  "Usage: elspais [--config FILE] [--verbose] COMMAND [PATHS]\n\n"
    ++ "Commands:\n"
    ++ "  validate [PATHS] [--json] [--git-summary FILE]\n"
    ++ "  coverage [PATHS] [--json]\n"
    ++ "  hash update [PATHS]"

/-- The configuration file that is read if none is named. -/
def defaultConfigPath : String := ".elspais.yaml"

def outputLine (line : String) : String :=
  line ++ "\n"

def outputLines (lines : List String) : String :=
  String.join (lines.map outputLine)

def complaint (message : String) : String :=
  "Error: " ++ message

def refusal (error : CommandError) : Outcome :=
  { complaints := [complaint error.message], status := 2 }

/-- Reads the configuration that is named, or the default one if it exists. -/
def loadConfig [Monad m] (fs : FileSystem m) (named : Option String)
    : m (Except CommandError Config) := do
  let isThere ← fs.isFile defaultConfigPath
  match named.or (if isThere then some defaultConfigPath else none) with
  | none => return .ok {}
  | some path =>
      match ← fs.readText path with
      | .error failure => return .error (.unreadable failure)
      | .ok text =>
          match Config.ofText? text with
          | none => return .error (.invalidConfigFile path)
          | some config => return .ok config

def loadScheme [Monad m] (fs : FileSystem m) (named : Option String)
    : m (Except CommandError Scheme) := do
  match ← loadConfig fs named with
  | .error error => return .error error
  | .ok config => return config.compile.mapError .config

/-- Reads a summary of changes, if one is named. -/
def loadSummary [Monad m] (fs : FileSystem m) (named : Option String)
    : m (Except CommandError (Option ChangeSummary)) := do
  match named with
  | none => return .ok none
  | some path =>
      match ← fs.readText path with
      | .error failure => return .error (.unreadable failure)
      | .ok text =>
          match ChangeSummary.ofText? text with
          | none => return .error (.invalidSummary path)
          | some summary => return .ok (some summary)

def loadSources [Monad m] (fs : FileSystem m) (paths : List String) : m SourceSet := do
  SourceSet.load fs (← Discovery.files fs paths)

/-- The last line of a validation. -/
def totals (sources : SourceSet) (run : Run) : String :=
  s!"{sources.files.length} files, {run.graph.requirements.length} requirements: "
    ++ s!"{run.report.count .error} errors, {run.report.count .warning} warnings, "
    ++ s!"{run.report.suppressed.length} suppressed"

def validationOutput (sources : SourceSet) (run : Run) (json : Bool) : String :=
  if json then outputLine run.toJson.pretty
  else outputLines (run.report.violations.map Finding.describe ++ [totals sources run])

def padEnd (width : Nat) (s : String) : String :=
  String.ofList (s.toList.rightpad width ' ')

def padStart (width : Nat) (s : String) : String :=
  String.ofList (s.toList.leftpad width ' ')

/-- A line of the table of coverage. -/
def coverageLine (entry : RequirementCoverage) : String :=
  padEnd 20 entry.id ++ "  " ++ padStart 7 (toString (Decimal.percent entry.fraction)) ++ "%  "
    ++ toString entry.covered.length ++ "/" ++ toString entry.letters.length ++ " "
    ++ String.intercalate "," entry.covered

/-- The two lines above the table of coverage. -/
def coverageHeader : List String :=
  [padEnd 20 "REQUIREMENT" ++ "  " ++ padStart 8 "COVERAGE" ++ "  " ++ padEnd 24 "COVERED",
    String.ofList (List.replicate 56 '-')]

def coverageOutput (report : CoverageReport) (json : Bool) : String :=
  if json then outputLine report.toJson.pretty
  else if report.requirements = [] then outputLine "No requirements found."
  else outputLines (coverageHeader ++ report.requirements.map coverageLine)

def updateLine (update : HashUpdate) : String :=
  update.id ++ ": " ++ update.stored.getD "(none)" ++ " -> " ++ update.computed

def fixOutcome (report : FixReport) : Outcome where
  output := outputLines (report.updated.map updateLine
    ++ [toString report.filesWritten.length ++ " files updated"])
  complaints := report.failures.map (fun failure => complaint failure.message)
  status := if report.isClean then 0 else 1

/-- Updates the stored hashes of the requirements that a source set holds. -/
def updateHashes [Monad m] (fs : FileSystem m) (scheme : Scheme) (sources : SourceSet)
    : m FixReport :=
  fixFiles fs (HashUpdate.plan (Graph.ofSources scheme sources) scheme.hashLength)

/-- Does a task under a compiled configuration. -/
def perform [Monad m] (fs : FileSystem m) (scheme : Scheme) : Task → m Outcome
  | .validate paths json named => do
      match ← loadSummary fs named with
      | .error error => return refusal error
      | .ok changes =>
          let sources ← loadSources fs paths
          let run := Run.ofSources scheme Rule.standard sources changes
          return {
            output := validationOutput sources run json
            status := if run.passed then 0 else 1 }
  | .coverage paths json => do
      let run := Run.ofSources scheme Rule.standard (← loadSources fs paths) none
      return { output := coverageOutput run.coverage json }
  | .hashUpdate paths => do
      return fixOutcome (← updateHashes fs scheme (← loadSources fs paths))

/-- Runs the program on the arguments of a command line. -/
def execute [Monad m] (fs : FileSystem m) (arguments : List String) : m Outcome := do
  match Request.ofArguments? arguments with
  | none => return { status := 2 }
  | some .showVersion => return { output := outputLine version }
  | some .showHelp => return { output := outputLine usage }
  | some (.perform named task) =>
      match ← loadScheme fs named with
      | .error error => return refusal error
      | .ok scheme => perform fs scheme task

end Command

end Traceability
