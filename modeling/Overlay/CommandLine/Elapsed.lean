/-
Times as they are shown.

A time is counted in nanoseconds and shown in the largest unit that it fills: seconds,
milliseconds, microseconds or nanoseconds. What is left over follows as decimals, without
zeros at the end.
-/
import Overlay.Text.Blank

set_option autoImplicit false

namespace Overlay.CommandLine

/-- The digits of `n`, with zeros in front up to `width` places. -/
def padded (width n : Nat) : Text :=
  let digits := Nat.toDigits 10 n
  List.replicate (width - digits.length) '0' ++ digits

def dropZeros (digits : Text) : Text := (digits.reverse.dropWhile (· == '0')).reverse

/-- A number of nanoseconds in units of ten to the power `places`. -/
def inUnits (places nanoseconds : Nat) (unit : Text) : Text :=
  let unitSize := Nat.pow 10 places
  let decimals := dropZeros (padded places (nanoseconds % unitSize))
  Nat.toDigits 10 (nanoseconds / unitSize)
    ++ (if places = 0 ∨ decimals = [] then [] else '.' :: decimals) ++ unit

def elapsed (nanoseconds : Nat) : Text :=
  if Nat.pow 10 9 ≤ nanoseconds then inUnits 9 nanoseconds "s".toList
  else if Nat.pow 10 6 ≤ nanoseconds then inUnits 6 nanoseconds "ms".toList
  else if Nat.pow 10 3 ≤ nanoseconds then inUnits 3 nanoseconds "µs".toList
  else inUnits 0 nanoseconds "ns".toList

end Overlay.CommandLine
