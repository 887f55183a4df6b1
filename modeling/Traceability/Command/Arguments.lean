import Traceability.Text.Search

/-! Arguments of the command line.
A command is followed by its options and paths in any order. The configuration may be named
before or after the command; the name after it counts. No option may be repeated at one place.
-/

namespace Traceability

/-- What a command line asks for. -/
inductive Task where
  | validate (paths : List String) (json : Bool) (summary : Option String)
  | coverage (paths : List String) (json : Bool)
  | hashUpdate (paths : List String)
deriving Repr, DecidableEq

inductive Request where
  | perform (config : Option String) (task : Task)
  | showVersion
  | showHelp
deriving Repr, DecidableEq

/-- The commands whose arguments are being read. -/
inductive Scope where
  | program
  | validate
  | coverage
  | hash
  | hashUpdate
deriving Repr, DecidableEq

/-- What was read at one place of the command line. -/
structure Options where
  config : Option String := none
  verbose : Bool := false
  json : Bool := false
  summary : Option String := none
  paths : List String := []

namespace Arguments

/-- The commands that may follow in a scope. -/
def Scope.enter? : Scope → String → Option Scope
  | .program, "validate" => some .validate
  | .program, "coverage" => some .coverage
  | .program, "hash" => some .hash
  | .hash, "update" => some .hashUpdate
  | _, _ => none

def Scope.takesPaths : Scope → Bool
  | .validate => true
  | .coverage => true
  | .hashUpdate => true
  | _ => false

/-- The name and the attached value of a long option. -/
def long? (argument : String) : Option (String × Option String) :=
  match argument.toList with
  | '-' :: '-' :: rest =>
      match Text.cutFirst? ['='] rest with
      | some (name, value) => some (String.ofList name, some (String.ofList value))
      | none => some (String.ofList rest, none)
  | _ => none

/-- The letters of short options. A single hyphen is none. -/
def short? (argument : String) : Option (List Char) :=
  match argument.toList with
  | '-' :: c :: rest => some (c :: rest)
  | _ => none

/-- Gives an option that takes a value its value. An empty value is none. -/
def setValue? (scope : Scope) (options : Options) (name value : String) : Option Options :=
  if value = "" then none
  else if name = "config" ∧ options.config = none then some { options with config := value }
  else if name = "git-summary" ∧ scope = .validate ∧ options.summary = none then
    some { options with summary := value }
  else none

def takesValue (scope : Scope) (name : String) : Bool :=
  name = "config" || (name = "git-summary" && scope = .validate)

/-- Sets an option that takes no value. -/
def setFlag? (scope : Scope) (options : Options) (name : String) : Option Options :=
  if name = "verbose" ∧ !options.verbose then some { options with verbose := true }
  else if name = "json" ∧ (scope = .validate ∨ scope = .coverage) ∧ !options.json then
    some { options with json := true }
  else none

/-- What a cluster of short options does: it shows something, or sets options. -/
def cluster? (scope : Scope) (options : Options) : List Char → Option (Options ⊕ Request)
  | [] => some (.inl options)
  | 'h' :: _ => some (.inr .showHelp)
  | 'V' :: _ => if scope = .program then some (.inr .showVersion) else none
  | 'v' :: rest =>
      (setFlag? scope options "verbose").bind (fun options => cluster? scope options rest)
  | _ => none

/-- The request at the end of the arguments. Without paths the current directory is meant. -/
def finish? (scope : Scope) (outer : Option String) (options : Options) : Option Request :=
  let config := options.config.or outer
  let paths := if options.paths = [] then ["."] else options.paths
  match scope with
  | .validate => some (.perform config (.validate paths options.json options.summary))
  | .coverage => some (.perform config (.coverage paths options.json))
  | .hashUpdate => some (.perform config (.hashUpdate paths))
  | _ => none

/-- Adds a path, where paths are taken. -/
def addPath? (scope : Scope) (options : Options) (path : String) : Option Options :=
  if Scope.takesPaths scope ∧ path ≠ "" then some { options with paths := options.paths ++ [path] }
  else none

/-- The options with all arguments as paths. -/
def addPaths? (scope : Scope) (options : Options) (paths : List String) : Option Options :=
  paths.foldlM (addPath? scope) options

/-- Help on the command that the arguments name, if they name one. -/
def helpOn? (scope : Scope) : List String → Option Request
  | [] => some .showHelp
  | argument :: rest => (Scope.enter? scope argument).bind (fun inner => helpOn? inner rest)

/-- Reads the arguments of a scope, given the configuration named outside of it. There is no
request where they make no sense. -/
def read? (scope : Scope) (outer : Option String) (options : Options)
    : List String → Option Request
  | [] => finish? scope outer options
  | "--" :: rest => (addPaths? scope options rest).bind (finish? scope outer)
  | argument :: rest =>
      match Scope.enter? scope argument with
      | some inner => read? inner (options.config.or outer) {} rest
      | none =>
          match long? argument, short? argument with
          | some (name, some value), _ =>
              (setValue? scope options name value).bind (fun options =>
                read? scope outer options rest)
          | some ("help", none), _ => some .showHelp
          | some (name, none), _ =>
              if name = "version" ∧ scope = .program then some .showVersion
              else if takesValue scope name then
                match rest with
                | [] => none
                | value :: rest =>
                    if (short? value).isSome then none
                    else
                      (setValue? scope options name value).bind (fun options =>
                        read? scope outer options rest)
              else
                (setFlag? scope options name).bind (fun options =>
                  read? scope outer options rest)
          | none, some letters =>
              match cluster? scope options letters with
              | some (.inl options) => read? scope outer options rest
              | some (.inr request) => some request
              | none => none
          | none, none =>
              if argument = "help" ∧ !Scope.takesPaths scope then helpOn? scope rest
              else
                (addPath? scope options argument).bind (fun options =>
                  read? scope outer options rest)
termination_by arguments => arguments.length

end Arguments

/-- The request of a command line. -/
def Request.ofArguments? (arguments : List String) : Option Request :=
  Arguments.read? .program none {} arguments

end Traceability
