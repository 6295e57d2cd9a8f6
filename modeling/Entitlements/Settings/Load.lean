import Entitlements.Settings.Reading
import Entitlements.Settings.Source

/-!
Loading settings: from the text of a file, or from the first file at hand and the environment, which
takes precedence. What is loaded is validated for an instant.
-/

namespace Entitlements

inductive Found where
  | absent
  | directory
  | file (text : String)
deriving DecidableEq

/-- What surrounds the program. -/
structure Surroundings where
  now : Instant
  look : String → Found
  /-- The working directory, from the root. -/
  directory : String
  home : String
  env : List (String × String)

namespace Surroundings

/-- A path as it reads from the root. -/
def fromRoot (s : Surroundings) (path : String) : String :=
  if path.toList.head? = some '/' then path else s.directory ++ "/" ++ path

/-- The home directory that an environment names, or else another one. -/
def homeOf (env : List (String × String)) (other : String) : String :=
  match env.find? fun v => v.1 == "HOME" && v.2 != "" with
  | some v => v.2
  | none => other

end Surroundings

namespace Settings

/-- The settings of a tree, if they can be read and are valid. -/
def accept (now : Instant) (t : SettingsTree) : Except SettingsFault Settings :=
  match ofTree? t with
  | none => .error .unreadable
  | some s => (s.validate now).map fun _ => s

def ofText (now : Instant) (text : String) : Except SettingsFault Settings :=
  match SettingsTree.ofFile? text with
  | none => .error .unreadable
  | some es => accept now ((SettingsTree.table []).setAll es)

/-- The places of the file when none is asked for; the first one that exists counts. -/
def places (home : String) : List String :=
  ["scope-engine.toml", ".scope-engine.toml", home ++ "/.config/scope-engine/config.toml"]

/-- Whether a name has an ending: a point that is not its first character. -/
def hasEnding (name : String) : Bool := (name.toList.drop 1).contains '.'

/-- The path of the file that stands in for what is no file. The ending is added to the name at the
end of the path, without the slashes and single points behind it. A name that has an ending already
is left as the path writes it, and where a slash is written last the file has a name of its own.
Without a name there is no such file. -/
def fileFor? (path : String) : Option String :=
  let named := (Text.pieces '/' path).reverse.dropWhile fun p => p = "" || p = "."
  match named with
  | [] => none
  | name :: _ =>
    if name = ".." then none
    else if !hasEnding name then some (Text.joined "/" named.reverse ++ ".toml")
    else if path.toList.getLast? = some '/' then some (path ++ ".placeholder.toml")
    else some (path ++ ".toml")

/-- The text of the file at a path from the root, or else of the one that stands in for it. -/
def textAt? (look : String → Found) (path : String) : Option String :=
  match look path with
  | .file text => some text
  | _ =>
    match (fileFor? path).map look with
    | some (.file text) => some text
    | _ => none

def chosen (s : Surroundings) : Option String → Except SettingsFault (Option String)
  | some path => if s.look path = .absent then .error (.noFile path) else .ok (some path)
  | none => .ok ((places s.home).find? fun p => s.look p ≠ .absent)

/-- The text of a file without a byte order mark at its start. -/
def withoutMark (text : String) : String := (Text.dropLead? '\ufeff' text).getD text

def fileEntries (s : Surroundings) :
    Option String → Except SettingsFault (List (String × SettingsTree))
  | none => .ok []
  | some path =>
    match (textAt? s.look (s.fromRoot path)).bind fun text =>
        SettingsTree.ofFile? (withoutMark text) with
    | none => .error .unreadable
    | some es => .ok es

/-- Loads settings from a file, the one at `path` if there is such, and from the environment. -/
def load (s : Surroundings) (path : Option String) : Except SettingsFault Settings := do
  let file ← fileEntries s (← chosen s path)
  accept s.now ((SettingsTree.table []).setAll (file ++ SettingsTree.ofEnvironment s.env))

end Settings

end Entitlements
