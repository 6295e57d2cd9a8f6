import Entitlements.CommandLine
import Entitlements.Credential
import Entitlements.Json.Writer
import Entitlements.Settings.Load

/-!
What the program answers to a command line: what it writes to its outputs and its exit code, given
the files and variables it finds and the present instant.
-/

namespace Entitlements.CommandLine

/-- What the program writes, and its exit code. -/
structure Report where
  exitCode : Nat
  out : String
  err : String
deriving DecidableEq

namespace Report

/-- Texts, each at the end of its line. -/
def lines (l : List String) : String := String.join (l.map (· ++ "\n"))

def success (l : List String) : Report := ⟨0, lines l, ""⟩

def failure (message : String) : Report := ⟨1, "", lines ["Error: " ++ message]⟩

def roleLine (name : String) (c : CompiledRole) : String :=
  name ++ " (rank " ++ Text.decimalInt c.rank ++ "): " ++ Text.joined " " c.tokens

def policyJson (p : Policy) : Json :=
  .ofMembers (p.toList.map fun e => (e.1, .array (e.2.toList.map .ofString)))

/-- The answer of a command on accepted settings. -/
def ofCommand (s : Settings) (r : Roster) : Command → Report
  | .validate =>
    success (r.listed.map (fun e => roleLine e.1 e.2) ++ [Text.decimal s.roles.size ++ " roles OK"])
  | .resolve scopes json =>
    match r.policyFor s.defaults (scopes.map Statement.ofToken) with
    | .error f => failure f.message
    | .ok p => success (if json then [(policyJson p).pretty ""] else p.issue)
  | .check scopes required =>
    match r.tokensFor s.defaults (scopes.map Statement.ofToken) with
    | .error f => failure f.message
    | .ok tokens =>
      match (Credential.mk tokens).require required with
      | .error refusal => ⟨1, lines [refusal.message], ""⟩
      | .ok _ => success ["Access granted for scope '" ++ required ++ "'"]

def versionText : String := "scope-engine 0.1.0"

def usageText : String :=
  "Usage: scope-engine [--config <CONFIG>] [--log-level <LOG_LEVEL>] <validate|resolve|check>"

/-- The answer to a command line. -/
def ofArguments (s : Surroundings) (args : List String) : Report :=
  match request args s.env with
  | .version => success [versionText]
  | .help => success [usageText]
  | .misuse => ⟨2, "", lines [usageText]⟩
  | .run i =>
    match Settings.load s i.settingsPath with
    | .error f => ⟨1, "", lines ["Error: Failed to load configuration", "", "Caused by:",
        "    " ++ f.message]⟩
    | .ok settings =>
      match settings.roster s.now with
      | .error f => failure f.message
      | .ok r => ofCommand settings r i.command

end Report

end Entitlements.CommandLine
