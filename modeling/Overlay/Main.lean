/-
The program: reads arguments and input, takes the times, and writes the outcome.
-/
import Overlay.CommandLine
import Overlay.CommandLine.Elapsed

set_option autoImplicit false

namespace Overlay.CommandLine

def reasonText : IO.Error → Text
  | .noFileOrDirectory .. => "No such file or directory (os error 2)".toList
  | .permissionDenied .. => "Permission denied (os error 13)".toList
  | e => (toString e).toList

def contentsOf (input : Input) : IO (Except Text Text) := do
  try
    let contents ← match input with
      | .standard => (← IO.getStdin).readToEnd
      | .file path => IO.FS.readFile (String.ofList path)
    return .ok contents.toList
  catch e => return .error (reasonText e)

def conclude (outcome : Outcome) : IO UInt32 := do
  (← IO.getStdout).putStr (String.ofList outcome.output)
  (← IO.getStderr).putStr (String.ofList outcome.errors)
  return outcome.code.toUInt32

/-- The outcome for a request: what `respond` gives for the times that it really takes. -/
def perform (r : Request) : IO Outcome := do
  match readInput r.input (← contentsOf r.input) with
  | .error outcome => return outcome
  | .ok items =>
    let start ← IO.monoNanosNow
    let interface ← IO.lazyPure fun _ => Interface.ofItems items r.options
    let expanded ← IO.monoNanosNow
    let report ← IO.lazyPure fun _ => interface.report r.selection
    let resolved ← IO.monoNanosNow
    let time : Timing :=
      ⟨elapsed (resolved - start), elapsed (expanded - start), elapsed (resolved - expanded)⟩
    return .answer (page r.color r.input.display report time)

end Overlay.CommandLine

open Overlay.CommandLine in
def main (args : List String) : IO UInt32 := do
  let color ← (← IO.getStdout).isTty
  match readArguments (.plain color) (args.map String.toList) with
  | .error stop => conclude stop.outcome
  | .ok r => conclude (← perform r)
