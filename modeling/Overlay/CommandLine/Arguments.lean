/-
The arguments of the command line.

Arguments are read from the first to the last, and each takes effect when it is read.
Help and the version are answered at once, and the first fault ends reading; so what
stands behind them is never looked at. An option with a value takes the next argument,
whatever that is, or has its value joined on with `=`. A joined value is what remains
when the option and its `=` are dropped from the front as often as they stand there.

What is neither an option nor starts with a dash names the script, and so does a single
dash, which stands for standard input. Only one script can be named.
-/
import Overlay.Interface.Report
import Overlay.Text.Cut

set_option autoImplicit false

namespace Overlay.CommandLine

/-! ## Options -/

inductive ValueOption where
  | wrapperLead
  | overloadLead
  | feature
  deriving DecidableEq, Repr

namespace ValueOption

def spelling : ValueOption → Text
  | wrapperLead => "--wrapper-prefix".toList
  | overloadLead => "--overload-prefix".toList
  | feature => "--feature".toList

def all : List ValueOption := [wrapperLead, overloadLead, feature]

/-- How an option is written in front of a joined value. -/
def joint (o : ValueOption) : Text := o.spelling ++ ['=']

def ofArgument? (arg : Text) : Option ValueOption :=
  if arg = "-f".toList then some feature else all.find? fun o => o.spelling == arg

/-- The text with `piece` dropped from its front as often as it stands there. At most `fuel`
times, which the length of the text makes enough. -/
def dropRepeated (piece : Text) : Nat → Text → Text
  | 0, t => t
  | fuel + 1, t =>
    match Text.dropPiece piece t with
    | some r => dropRepeated piece fuel r
    | none => t

def ofJoined? (arg : Text) : Option (ValueOption × Text) :=
  (all.find? fun o => Text.startsWith o.joint arg).map fun o =>
    (o, dropRepeated o.joint arg.length arg)

end ValueOption

inductive Switch where
  | color
  | noColor
  | compact
  | inactive
  deriving DecidableEq, Repr

def Switch.ofArgument? (arg : Text) : Option Switch :=
  if arg = "--color".toList then some color
  else if arg = "--no-color".toList then some noColor
  else if arg = "--compact".toList then some compact
  else if arg = "--all".toList then some inactive
  else none

/-! ## Requests -/

structure Request where
  path : Option Text
  options : Options
  selection : Selection
  color : Bool
  deriving DecidableEq, Repr

namespace Request

def plain (color : Bool) : Request := ⟨none, .standard, ⟨[], false, false⟩, color⟩

def set (r : Request) (o : ValueOption) (value : Text) : Request :=
  match o with
  | .wrapperLead => { r with options := { r.options with wrapperLead := value } }
  | .overloadLead => { r with options := { r.options with overloadLead := value } }
  | .feature =>
    { r with selection := { r.selection with features := r.selection.features ++ [value] } }

def turn (r : Request) : Switch → Request
  | .color => { r with color := true }
  | .noColor => { r with color := false }
  | .compact => { r with options := { r.options with compactDefaults := true } }
  | .inactive => { r with selection := { r.selection with inactive := true } }

end Request

/-! ## Reading -/

inductive ArgumentFault where
  | missingValue (o : ValueOption)
  | repeatedInput
  | unknownOption (arg : Text)
  deriving DecidableEq, Repr

def ArgumentFault.message : ArgumentFault → Text
  | missingValue o => "error: ".toList ++ o.spelling ++ " expects a value".toList
  | repeatedInput => "error: input provided multiple times".toList
  | unknownOption arg => "error: unknown option '".toList ++ arg ++ "'".toList

inductive Stop where
  | help
  | version
  | fault (f : ArgumentFault)
  deriving DecidableEq, Repr

/-- What one argument says, as far as it can be told without the next one. -/
inductive Argument where
  | stop (s : Stop)
  | switch (s : Switch)
  /-- An option that takes the next argument as its value. -/
  | option (o : ValueOption)
  /-- An option with its value joined on. -/
  | joined (o : ValueOption) (value : Text)
  | input (path : Text)
  deriving DecidableEq, Repr

def Argument.ofText (arg : Text) : Argument :=
  if arg = "-h".toList ∨ arg = "--help".toList then stop .help
  else if arg = "-V".toList ∨ arg = "--version".toList then stop .version
  else
    match Switch.ofArgument? arg, ValueOption.ofArgument? arg, ValueOption.ofJoined? arg with
    | some s, _, _ => switch s
    | none, some o, _ => option o
    | none, none, some (o, value) => joined o value
    | none, none, none =>
      if arg ≠ ['-'] ∧ arg.head? = some '-' then stop (.fault (.unknownOption arg))
      else input arg

/-- Reads arguments on top of a request. -/
def readArguments (r : Request) : List Text → Except Stop Request
  | [] => .ok r
  | arg :: args =>
    match Argument.ofText arg with
    | .stop s => .error s
    | .switch s => readArguments (r.turn s) args
    | .joined o value => readArguments (r.set o value) args
    -- the next argument is the value, even if it is an option itself
    | .option o =>
      match args with
      | [] => .error (.fault (.missingValue o))
      | value :: rest => readArguments (r.set o value) rest
    | .input path =>
      if r.path.isSome then .error (.fault .repeatedInput)
      else readArguments { r with path := some path } args

end Overlay.CommandLine
