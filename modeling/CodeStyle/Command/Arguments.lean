import CodeStyle.Text.Affix

/-!
Command-line arguments: options with a long or a short name, with values or without, and operands.
Arguments are read from left to right, and the first fault ends the reading.
-/

namespace CodeStyle

/-- Why no command is run. -/
inductive Usage where
  | help
  | version
  | wrong
deriving Repr, DecidableEq, Inhabited

def Usage.exitCode : Usage → Nat
  | help => 0
  | version => 0
  | wrong => 2

/-- An option that a command knows. -/
structure OptionSpec where
  name : String
  short : Option Char
  takesValue : Bool
deriving Repr, DecidableEq, Inhabited

/-- What arguments say. -/
inductive Argument where
  | flag (name : String)
  | setting (name value : String)
  | operand (text : String)
  /-- Something that cannot be read. -/
  | fault
deriving Repr, DecidableEq, Inhabited

namespace Argument

/-- Whether a text is an option and no value; a lone dash is a value. -/
def isOption (text : String) : Bool := Text.startsWith text "-" && text != "-"

/-- The options in a cluster of short names, and the option at its end that waits for a value. What
follows an option that takes a value is the value. -/
def cluster (specs : List OptionSpec) : List Char → List Argument × Option String
  | [] => ([], none)
  | c :: rest =>
    match specs.find? (·.short == some c) with
    | none => ([fault], none)
    | some spec =>
      if !spec.takesValue then
        let (more, waiting) := cluster specs rest
        (flag spec.name :: more, waiting)
      else if rest.isEmpty then ([], some spec.name)
      else
        let value := if rest.head? == some '=' then rest.drop 1 else rest
        ([setting spec.name (String.ofList value)], none)

/-- A long option, and whether it waits for a value. -/
def long (specs : List OptionSpec) (text : String) : List Argument × Option String :=
  let (name, value) :=
    match Text.splitOnce '=' text with
    | some (name, value) => (name, some value)
    | none => (text, none)
  match specs.find? (·.name == name), value with
  | none, _ => ([fault], none)
  | some spec, some value => (if spec.takesValue then [setting name value] else [fault], none)
  | some spec, none => if spec.takesValue then ([], some name) else ([flag name], none)

/-- What arguments say, after an option that waits for its value if there is one. -/
def scan (specs : List OptionSpec) : Option String → List String → List Argument
  | none, [] => []
  | some _, [] => [fault]
  | some name, text :: rest =>
    if isOption text then [fault] else setting name text :: scan specs none rest
  | none, text :: rest =>
    if text == "--" then rest.map operand
    else if Text.startsWith text "--" then
      let (said, waiting) := long specs (String.ofList (text.toList.drop 2))
      said ++ scan specs waiting rest
    else if isOption text then
      let (said, waiting) := cluster specs (text.toList.drop 1)
      said ++ scan specs waiting rest
    else operand text :: scan specs none rest

/-- The option that an argument gives. -/
def name? : Argument → Option String
  | flag name => some name
  | setting name _ => some name
  | _ => none

/-- Takes arguments in turn. Options come once, and asking for help ends the reading. -/
def fold {α : Type} (put : α → Argument → Option α) (seen : List String) (state : α) :
    List Argument → Except Usage α
  | [] => .ok state
  | a :: rest =>
    if a == flag "help" then .error .help
    else if a == flag "version" then .error .version
    else if a.name?.any seen.contains then .error .wrong
    else
      match put state a with
      | none => .error .wrong
      | some state => fold put (a.name?.toList ++ seen) state rest

end Argument

end CodeStyle
