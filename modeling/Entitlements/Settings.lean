import Entitlements.Roster
import Entitlements.Text.Blank

/-!
Settings: the default statements, the role table, and how to log. Settings are accepted for an
instant if the names of the roles are admissible, the log level is not blank, and the role table and
the defaults resolve at that instant.
-/

namespace Entitlements

inductive LogFormat where
  | pretty
  | json
deriving DecidableEq

structure LogSettings where
  level : String
  format : LogFormat
deriving DecidableEq

/-- What is logged unless settings say otherwise. -/
def LogSettings.standard : LogSettings := ⟨"info", .pretty⟩

structure Settings where
  defaults : List Statement
  roles : RoleTable
  log : LogSettings
deriving DecidableEq

/-- Why settings are not accepted. -/
inductive SettingsFault where
  /-- The file that was asked for does not exist. -/
  | noFile (path : String)
  /-- The sources cannot be read as settings. -/
  | unreadable
  | emptyRoleName
  /-- The name of a role would read as a reference. -/
  | markedRoleName (name : String)
  | blankLevel
  | rejected (fault : Fault)
deriving DecidableEq

def SettingsFault.message : SettingsFault → String
  | noFile path => "Failed to load configuration: Configuration file not found: " ++ path
  | unreadable => "Failed to load configuration: the sources cannot be read"
  | emptyRoleName => "Invalid configuration: role names must not be empty"
  | markedRoleName name =>
    "Invalid configuration: role name '" ++ name ++ "' must not start with '@'"
  | blankLevel => "Missing required configuration: logging.level"
  | rejected fault => "Role table rejected: " ++ fault.message

namespace Settings

/-- Settings that say nothing. -/
def standard : Settings := ⟨[], ∅, .standard⟩

/-- What is wrong with the name of a role. -/
def faultOfName (name : String) : Option SettingsFault :=
  match name.toList with
  | [] => some .emptyRoleName
  | '@' :: _ => some (.markedRoleName name)
  | _ => none

def roster (s : Settings) (now : Instant) : Except Fault Roster := Roster.compile s.roles now

def tokensFor (s : Settings) (user : List Statement) (now : Instant) :
    Except Fault (List String) := do
  (← s.roster now).tokensFor s.defaults user

/-- Accepts settings or says what is wrong first: the names of the roles, the log level, the
resolution of the defaults. -/
def validate (s : Settings) (now : Instant) : Except SettingsFault Unit :=
  match s.roles.keys.findSome? faultOfName with
  | some f => .error f
  | none =>
    if Text.isAllBlank s.log.level then .error .blankLevel
    else match (s.roster now).bind (·.policyFor s.defaults []) with
      | .error f => .error (.rejected f)
      | .ok _ => .ok ()

end Settings

end Entitlements
