import Entitlements.CommandLine.Report
import Std.Time.DateTime.Timestamp

/-!
The program: gathers its arguments, the clock, the environment and the files that it may need, and
writes the report.
-/

namespace Entitlements.Main

def presentInstant : IO Instant := do
  let t ← Std.Time.Timestamp.now
  let nanos := t.toNanosecondsSinceUnixEpoch.val
  return ⟨nanos / 1000000000, (nanos % 1000000000).toNat, by omega⟩

/-- What a path of the file system leads to. -/
def lookUp (path : String) : IO Found := do
  try
    let real ← IO.FS.realPath path
    if ← real.isDir then return .directory
    return .file (← IO.FS.readFile real)
  catch _ => return .absent

def environment : IO (List (String × String)) := do
  let text ← try IO.FS.readFile "/proc/self/environ" catch _ => pure ""
  return (Text.pieces '\x00' text).filterMap (Text.cut? '=')

end Entitlements.Main

open Entitlements Entitlements.Main in
def main (args : List String) : IO UInt32 := do
  let env ← environment
  let path := match CommandLine.request args env with
    | .run i => i.settingsPath
    | _ => none
  let directory := (← IO.currentDir).toString
  let blind : Surroundings :=
    ⟨← presentInstant, fun _ => .absent, directory, Surroundings.homeOf env "~", env⟩
  let asked := match path with
    | some p => [p]
    | none => Settings.places blind.home
  let paths := asked.flatMap fun p =>
    p :: blind.fromRoot p :: (Settings.fileFor? (blind.fromRoot p)).toList
  let found ← paths.mapM fun p => return (p, ← lookUp p)
  let look (p : String) : Found := ((found.find? fun f => f.1 == p).map (·.2)).getD .absent
  let report := CommandLine.Report.ofArguments { blind with look } args
  IO.print report.out
  IO.eprint report.err
  return report.exitCode.toUInt32
