/-
The command line.

The program reads its arguments, then a script from a file or from standard input, and
writes a page that shows what every feature comes to on every variant. It ends with 0
when the page (or the help, or the version) is written, with 1 if the script cannot be
read as one, and with 2 if the arguments are wrong or there is no input.

All of this is a function of the arguments, of what reading the input gave, and of the
times to be shown; `run` is that function for a given standard input and given files.
-/
import Overlay.CommandLine.Arguments
import Overlay.CommandLine.Page
import Overlay.Script.Reader

set_option autoImplicit false

namespace Overlay.CommandLine

/-! ## Outcomes -/

/-- How the program ends. -/
structure Outcome where
  code : Nat
  output : Text
  errors : Text
  deriving DecidableEq, Repr

namespace Outcome

def answer (t : Text) : Outcome := ⟨0, t, []⟩

def refusal (message : Text) : Outcome := ⟨2, [], message ++ ['\n']⟩

def rejection (message : Text) : Outcome := ⟨1, [], message ++ ['\n']⟩

end Outcome

/-! ## Help -/

def versionText : Text := "declmark 0.1.0".toList

def helpLines : List Text :=
  [versionText,
   [],
   "Resolve declaration features for an interface script.".toList,
   [],
   "Usage:".toList,
   "  declmark [OPTIONS] [<script>]".toList,
   [],
   "Reads the script from <script>, or from stdin when it is omitted or '-'.".toList,
   [],
   "Options:".toList,
   "  -f, --feature <name>         Only report this feature (repeatable).".toList,
   "  --all                        Also report matched but disabled features.".toList,
   "  --compact                    Do not expand default arguments.".toList,
   "  --wrapper-prefix <prefix>    Prefix of wrapper names. Default: ".toList
     ++ Options.standard.wrapperLead,
   "  --overload-prefix <prefix>   Prefix of overload suffixes. Default: ".toList
     ++ Options.standard.overloadLead,
   "  --color                      Force ANSI color output.".toList,
   "  --no-color                   Disable ANSI color output.".toList,
   "  -h, --help                   Show this help message.".toList,
   "  -V, --version                Print version information.".toList,
   [],
   "Environment:".toList,
   "  DECLMARK_LOG                 Log filter, e.g. 'declmark=debug'.".toList,
   [],
   "Exit codes:".toList,
   "  0  Success.".toList,
   "  1  The script could not be read.".toList,
   "  2  Invalid arguments or missing input.".toList]

def helpText : Text := helpLines.flatMap fun line => line ++ ['\n']

def Stop.outcome : Stop → Outcome
  | help => .answer (helpText ++ ['\n'])
  | version => .answer (versionText ++ ['\n'])
  | fault f => .refusal f.message

/-! ## Input -/

inductive Input where
  | standard
  | file (path : Text)
  deriving DecidableEq, Repr

def Input.display : Input → Text
  | standard => "<stdin>".toList
  | file path => path

def Request.input (r : Request) : Input :=
  match r.path with
  | none => .standard
  | some path => if path = ['-'] then .standard else .file path

def Input.failure (i : Input) (reason : Text) : Text :=
  match i with
  | standard => "error: failed to read stdin: ".toList ++ reason
  | file path => "error: failed to read '".toList ++ path ++ "': ".toList ++ reason

/-- The items of the input, if it can be read and is a script. `contents` is what reading it
gave, or the reason why it cannot be read. -/
def readInput (i : Input) (contents : Except Text Text) : Except Outcome (List Script.Item) :=
  match contents with
  | .error reason => .error (.refusal (i.failure reason))
  | .ok script =>
    if Text.trim script = [] then
      .error (.refusal ("error: no input provided\n\n".toList ++ helpText))
    else
      (Script.parse script).mapError fun e =>
        .rejection ("error: ".toList ++ i.display ++ ": ".toList ++ e.message)

/-! ## The program -/

/-- The outcome for a request on given contents. -/
def respond (r : Request) (contents : Except Text Text) (time : Timing) : Outcome :=
  match readInput r.input contents with
  | .error outcome => outcome
  | .ok items =>
    let report := (Interface.ofItems items r.options).report r.selection
    .answer (page r.color r.input.display report time)

/-- The outcome for given arguments. `color` tells whether color is on unless an argument says
otherwise. -/
def run (files : Text → Except Text Text) (standard : Text) (color : Bool) (time : Timing)
    (args : List Text) : Outcome :=
  match readArguments (.plain color) args with
  | .error stop => stop.outcome
  | .ok r =>
    let contents := match r.input with
      | .standard => .ok standard
      | .file path => files path
    respond r contents time

end Overlay.CommandLine
