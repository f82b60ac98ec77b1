import CodeStyle.Command.Arguments

/-!
The commands of the checker and their options. Main definition: `Command.parse`.
-/

namespace CodeStyle

structure LintOptions where
  /-- The files and folders to check; if none is named, the folder itself. -/
  named : List String := []
  config : Option String := none
  format : String := "pretty"
  failOn : Option String := none
  showSuppressed : Bool := false
  jobs : Option Nat := none
deriving Repr, DecidableEq, Inhabited

def LintOptions.paths (o : LintOptions) : List String := if o.named.isEmpty then ["."] else o.named

structure InitOptions where
  output : String := ".cstylecheck.yaml"
  /-- Whether a file that is there is written over. -/
  force : Bool := false
deriving Repr, DecidableEq, Inhabited

structure RulesOptions where
  category : Option String := none
deriving Repr, DecidableEq, Inhabited

inductive Command where
  /-- Checks files. -/
  | lint (options : LintOptions)
  /-- Writes a configuration file to start from. -/
  | init (options : InitOptions)
  /-- Lists the rules. -/
  | rules (options : RulesOptions)
deriving Repr, DecidableEq, Inhabited

namespace Command

/-- The options that go with every command. -/
def sharedSpecs : List OptionSpec := [⟨"help", some 'h', false⟩, ⟨"verbose", some 'v', false⟩]

/-- The options that come before a command. -/
def leadingSpecs : List OptionSpec := ⟨"version", some 'V', false⟩ :: sharedSpecs

def lintSpecs : List OptionSpec :=
  [⟨"config", some 'c', true⟩, ⟨"format", some 'f', true⟩, ⟨"fail-on", none, true⟩,
    ⟨"show-suppressed", none, false⟩, ⟨"jobs", some 'j', true⟩] ++ sharedSpecs

def initSpecs : List OptionSpec := [⟨"output", some 'o', true⟩, ⟨"force", none, false⟩] ++ sharedSpecs

def rulesSpecs : List OptionSpec := ⟨"category", some 'c', true⟩ :: sharedSpecs

/-- A path may not be empty. -/
def path? (text : String) : Option String := if text.isEmpty then none else some text

/-- A number of jobs; a plus sign may stand before it. -/
def count? (text : String) : Option Nat :=
  let digits := if Text.startsWith text "+" then text.toList.drop 1 else text.toList
  if digits.isEmpty || !digits.all Char.isDigit then none
  else
    let n := digits.foldl (fun n d ↦ n * 10 + (d.toNat - '0'.toNat)) 0
    if n < Nat.pow 2 64 then some n else none

def putLint (o : LintOptions) : Argument → Option LintOptions
  | .operand text => (path? text).map fun p ↦ { o with named := o.named ++ [p] }
  | .setting "config" v => (path? v).map fun p ↦ { o with config := some p }
  | .setting "format" v => some { o with format := v }
  | .setting "fail-on" v => some { o with failOn := some v }
  | .setting "jobs" v => (count? v).map fun n ↦ { o with jobs := some n }
  | .flag "show-suppressed" => some { o with showSuppressed := true }
  | .flag "verbose" => some o
  | _ => none

def putInit (o : InitOptions) : Argument → Option InitOptions
  | .setting "output" v => (path? v).map fun p ↦ { o with output := p }
  | .flag "force" => some { o with force := true }
  | .flag "verbose" => some o
  | _ => none

def putRules (o : RulesOptions) : Argument → Option RulesOptions
  | .setting "category" v => some { o with category := some v }
  | .flag "verbose" => some o
  | _ => none

def names : List String := ["lint", "check", "init", "rules"]

/-- Asking for help on a command. -/
def helpOn : List String → Usage
  | [] => .help
  | [name] => if name == "help" || names.contains name then .help else .wrong
  | _ => .wrong

/-- The command of a name with its arguments. -/
def ofName (name : String) (args : List String) : Except Usage Command :=
  if name == "lint" || name == "check" then
    (Argument.fold putLint [] {} (Argument.scan lintSpecs none args)).map lint
  else if name == "init" then
    (Argument.fold putInit [] {} (Argument.scan initSpecs none args)).map init
  else if name == "rules" then
    (Argument.fold putRules [] {} (Argument.scan rulesSpecs none args)).map rules
  else if name == "help" then .error (helpOn args)
  else .error .wrong

/-- The command that arguments ask for. The first operand is its name, and what comes before are
options for all commands, each of them once. -/
def parseAfter (seen : List String) : List String → Except Usage Command
  | [] => .error .wrong
  | text :: rest =>
    if text == "--" then .error .wrong
    else if !Argument.isOption text then ofName text rest
    else do
      let said := Argument.scan leadingSpecs none [text]
      Argument.fold (fun _ a ↦ if a == .flag "verbose" then some () else none) seen () said
      parseAfter (said.filterMap Argument.name? ++ seen) rest

def parse (args : List String) : Except Usage Command := parseAfter [] args

end Command

end CodeStyle
