/-
The page that shows a report.

A page has a title, the variants with their features, the diagnostics if there are any,
and a line of timing. Every piece of text has a role. With color on, a piece is put
between the escape sequence of its role and the one that ends it; with color off it is
written as it is.

A body is shown line by line.
-/
import Overlay.Interface.Report
import Overlay.Text.Line

set_option autoImplicit false

namespace Overlay

namespace CommandLine

/-! ## Roles -/

inductive Role where
  | title
  | rule
  | index
  | declaration
  | wrapper
  | feature
  | body
  | active
  | muted
  | warning
  | elapsed
  deriving DecidableEq, Repr

def Role.code : Role → Text
  | title => "1;36".toList
  | rule | index => "90".toList
  | declaration => "1;32".toList
  | wrapper | warning => "33".toList
  | feature => "34".toList
  | body | elapsed => "36".toList
  | active => "32".toList
  | muted => "2".toList

def paint (color : Bool) (role : Role) (t : Text) : Text :=
  if color then "\x1b[".toList ++ role.code ++ "m".toList ++ t ++ "\x1b[0m".toList else t

def heading (color : Bool) (title : Text) : Text :=
  paint color .rule ("━━━ ".toList ++ title ++ " ━━━".toList)

/-! ## Variants -/

/-- The line of a variant, which is number `index` on the page. -/
def variantLine (color : Bool) (index : Nat) (v : ReportedVariant) : Text :=
  "  ".toList ++ paint color .index ("[".toList ++ Nat.toDigits 10 index ++ "]".toList)
    ++ " ".toList ++ paint color .declaration v.decl
    ++ (if v.isReduced then paint color .muted " (default args)".toList else [])
    ++ " ".toList ++ paint color .muted "│".toList
    ++ " ".toList ++ paint color .wrapper v.wrapperName

def featureLines (color : Bool) (feature : Text × Resolution) : List Text :=
  let state :=
    if feature.2.active then paint color .active "✓".toList else paint color .muted "✗".toList
  let attributes := feature.2.attributes.entries.map fun e =>
    "        ".toList ++ paint color .muted (e.1 ++ "=".toList) ++ " ".toList ++ e.2
  let body := (Text.lines (feature.2.body.getD [])).map fun line =>
    "        ".toList ++ paint color .body line
  ("      ".toList ++ state ++ " ".toList ++ paint color .feature feature.1) :: attributes ++ body

def variantLines (color : Bool) (index : Nat) (v : ReportedVariant) : List Text :=
  variantLine color index v :: v.features.flatMap (featureLines color)

/-- The lines of the variants, numbered from `index`. -/
def variantsLines (color : Bool) (index : Nat) : List ReportedVariant → List Text
  | [] => []
  | v :: vs => variantLines color index v ++ variantsLines color (index + 1) vs

/-! ## The page -/

structure Timing where
  total : Text
  expand : Text
  resolve : Text
  deriving DecidableEq, Repr

def timingLine (color : Bool) (r : Report) (time : Timing) : Text :=
  "  Total: ".toList ++ paint color .active time.total
    ++ "  │  Expand: ".toList ++ paint color .elapsed time.expand
    ++ "  │  Resolve: ".toList ++ paint color .muted time.resolve
    ++ "  │  ".toList ++ Nat.toDigits 10 r.variantCount ++ " variants, ".toList
    ++ Nat.toDigits 10 r.queries ++ " queries".toList

def emptyLines (color : Bool) : List Text :=
  [paint color .muted "  No feature applies to any variant".toList, [],
   paint color .muted "  Tip: pass --all to list disabled matches as well".toList]

/-- The lines of the diagnostics under their heading; none if there are none. -/
def diagnosticLines (color : Bool) (messages : List Text) : List Text :=
  if messages = [] then []
  else
    [[], heading color "Diagnostics".toList] ++ messages.map fun message =>
      "  ".toList ++ paint color .warning "warning:".toList ++ " ".toList ++ message

def pageLines (color : Bool) (source : Text) (r : Report) (time : Timing) : List Text :=
  [[], paint color .title ("⚙  Resolving: ".toList ++ source), [],
    heading color "Variants".toList]
    ++ (if r.variants = [] then emptyLines color else variantsLines color 0 r.variants)
    ++ diagnosticLines color r.diagnostics
    ++ [[], heading color "Timing".toList, timingLine color r time, []]

/-- The page as it is written: every line with its line break. -/
def page (color : Bool) (source : Text) (r : Report) (time : Timing) : Text :=
  (pageLines color source r time).flatMap fun line => line ++ ['\n']

end CommandLine

end Overlay
