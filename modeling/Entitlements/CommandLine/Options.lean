import Entitlements.Text.Pieces

/-!
Options on a command line. An option has a long name and possibly a letter; it is a flag or takes a
value, which is attached to it or is the next argument. Arguments are read one after another up to
the first word that belongs to no option.
-/

namespace Entitlements.CommandLine

/-- Whether an option takes a value. -/
inductive Takes where
  | nothing
  /-- The next argument must not look like an option. -/
  | value
  /-- The next argument is taken whatever it looks like. -/
  | anyValue
  /-- A flag that ends the reading at once. -/
  | stop
deriving DecidableEq

structure Spec where
  long : String
  letter : Option Char
  takes : Takes
  /-- Whether it may be given more than once. -/
  repeatable : Bool

/-- Options that were given, with their values; a flag has an empty one. -/
abbrev Given := List (String × String)

/-- Where the reading of options ends. -/
inductive Ending where
  | finished (given : Given)
  /-- At a word that belongs to no option. -/
  | word (given : Given) (word : String) (rest : List String)
  /-- At a flag that ends the reading. -/
  | stopped (flag : String)
  | wrong

/-- Notes an option; one that must not be repeated was not given before. -/
def note? (s : Spec) (value : String) (given : Given) : Option Given :=
  if !s.repeatable && given.any (·.1 == s.long) then none else some (given ++ [(s.long, value)])

def looksLikeOption (arg : String) : Bool :=
  match arg.toList with
  | '-' :: _ :: _ => true
  | _ => false

/-- Whether the next argument can be the value of an option. -/
def admits (s : Spec) (arg : String) : Bool := s.takes == .anyValue || !looksLikeOption arg

/-- What the letters of one argument come to. -/
inductive Letters where
  | done (given : Given)
  /-- The last letter takes the next argument as its value. -/
  | pending (spec : Spec) (given : Given)
  | stopped (flag : String)
  | wrong

/-- Reads letters that share one argument; what follows a letter that takes a value is the value,
after an equals sign or not. -/
def letters (specs : List Spec) : List Char → Given → Letters
  | [], given => .done given
  | c :: r, given =>
    match specs.find? fun s => s.letter == some c with
    | none => .wrong
    | some s =>
      match s.takes with
      | .stop => .stopped s.long
      | .nothing =>
        match note? s "" given with
        | none => .wrong
        | some given => letters specs r given
      | _ =>
        match r with
        | [] => .pending s given
        | _ =>
          let value := match r with
            | '=' :: v => v
            | v => v
          match note? s (String.ofList value) given with
          | none => .wrong
          | some given => .done given

/-- Reads an argument that starts with two dashes, given what comes after them. -/
def longOption (specs : List Spec) (body : String) (given : Given) : Letters :=
  let (name, attached) : String × Option String := match Text.cut? '=' body with
    | some (name, value) => (name, some value)
    | none => (body, none)
  match specs.find? fun s => s.long == name with
  | none => .wrong
  | some s =>
    match s.takes, attached with
    | .stop, none => .stopped s.long
    | .nothing, none => ((note? s "" given).map .done).getD .wrong
    | .stop, some _ => .wrong
    | .nothing, some _ => .wrong
    | _, none => .pending s given
    | _, some v => ((note? s v given).map .done).getD .wrong

/-- Reads arguments. Two dashes alone end the options, and no word may follow them. -/
def read (specs : List Spec) : List String → Given → Ending
  | [], given => .finished given
  | arg :: rest, given =>
    match arg.toList with
    | ['-', '-'] => if rest.isEmpty then .finished given else .wrong
    | '-' :: c :: r =>
      let found :=
        if c = '-' then longOption specs (String.ofList r) given else letters specs (c :: r) given
      match found with
      | .done given => read specs rest given
      | .stopped flag => .stopped flag
      | .wrong => .wrong
      | .pending s given =>
        match rest with
        | [] => .wrong
        | value :: rest =>
          if admits s value then
            match note? s value given with
            | none => .wrong
            | some given => read specs rest given
          else .wrong
    | _ => .word given arg rest

def Given.value? (given : Given) (long : String) : Option String :=
  (List.find? (fun g => g.1 == long) given).map (·.2)

def Given.values (given : Given) (long : String) : List String :=
  (List.filter (fun g => g.1 == long) given).map (·.2)

end Entitlements.CommandLine
