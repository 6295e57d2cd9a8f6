import Entitlements.CommandLine.Options

/-!
The command line of the program: options for every command, then a command with its own options. A
command lists the compiled roles, resolves a user's scopes, or checks a request against them.
-/

namespace Entitlements.CommandLine

inductive Command where
  | validate
  | resolve (scopes : List String) (json : Bool)
  | check (scopes : List String) (required : String)
deriving DecidableEq

/-- A command with the options for every command. -/
structure Invocation where
  settingsPath : Option String
  logLevel : Option String
  command : Command
deriving DecidableEq

inductive Request where
  | run (invocation : Invocation)
  | version
  | help
  /-- The arguments do not fit together. -/
  | misuse
deriving DecidableEq

/-- The flag that every command has. -/
def helpFlag : Spec := ⟨"help", some 'h', .stop, false⟩

def commonOptions : List Spec :=
  [⟨"config", some 'c', .value, false⟩, ⟨"log-level", none, .value, false⟩,
    ⟨"version", some 'V', .stop, false⟩, helpFlag]

def scopeOption : Spec := ⟨"scope", some 's', .anyValue, true⟩

/-- The command of a word with its own arguments. -/
def command (word : String) (args : List String) : Except Request Command :=
  let options (specs : List Spec) (make : Given → Option Command) : Except Request Command :=
    match read (helpFlag :: specs) args [] with
    | .finished given =>
      match make given with
      | some c => .ok c
      | none => .error .misuse
    | .stopped _ => .error .help
    | _ => .error .misuse
  if word = "validate" then options [] fun _ => some .validate
  else if word = "resolve" then
    options [scopeOption, ⟨"json", none, .nothing, false⟩] fun g =>
      some (.resolve (g.values "scope") (g.value? "json").isSome)
  else if word = "check" then
    options [scopeOption, ⟨"require", some 'r', .value, false⟩] fun g =>
      (g.value? "require").map fun r => .check (g.values "scope") r
  else if word = "help" && args.all (["validate", "resolve", "check", "help"].contains ·)
      && args.length ≤ 1 then .error .help
  else .error .misuse

/-- Reads a command line. The path of the settings and the log level may come from the environment
instead. -/
def request (args : List String) (env : List (String × String)) : Request :=
  let inherited? (name : String) : Option String :=
    (env.find? fun v => v.1 == name).map (·.2)
  match read commonOptions args [] with
  | .word given word rest =>
    match command word rest with
    | .error r => r
    | .ok c =>
      .run ⟨(given.value? "config").or (inherited? "SCOPE_ENGINE_CONFIG"),
        (given.value? "log-level").or (inherited? "SCOPE_ENGINE_LOG_LEVEL"), c⟩
  | .stopped flag => if flag = "version" then .version else .help
  | _ => .misuse

end Entitlements.CommandLine
