/-
Statements, by offsets.

A statement is cut at its first word, a class at its colon and the commas behind it, a variable
at its colon, and a callable at its parameters or at its arrow. A slice starts at the arrow
itself, so the arrow is read once more from the text behind the name.

The declaration is built from parameters that were read, so the builder takes them all
(`asserted_withParameters`). Nothing else of a statement is asserted: what a declaration must not
have is checked before, and is a fault of the text.

A statement has no cursor. It was cut out of the script as a whole, up to its semicolon, so these
readers give a result or a fault and leave nothing.
-/
import Overlay.Proofs.Checked.Parameter
import Overlay.Script.Statement

set_option autoImplicit false

namespace Overlay.Checked

open Script (Cause Item StatementFault Written)

variable {ε : Type}

/-! ## The first word

The word ends at the first blank, of whatever size that is, and the blank stays with the rest. -/

/-- The offset of the first blank. -/
def findBlank : Text → Option Nat
  | [] => none
  | c :: r => if Text.isBlank c then some 0 else (findBlank r).map (c.utf8Size + ·)

def splitWord (t : Text) : Checked ε (Text × Text) :=
  let s := Text.trimStart t
  match findBlank s with
  | none => .ok (s, [])
  | some place => do
    let word ← sliceTo s place
    let rest ← sliceFrom s place
    return (word, Text.trimStart rest)

/-- The first blank is behind a part without blanks, if anything is. -/
theorem findBlank_append {p r : Text} (hp : ∀ c ∈ p, Text.isBlank c = false)
    (hr : ∀ c, r.head? = some c → Text.isBlank c = true) :
    findBlank (p ++ r) = if r = [] then none else some p.size := by
  induction p with
  | nil =>
    cases r with
    | nil => rfl
    | cons c r =>
      rw [List.nil_append, findBlank, if_pos (hr c rfl), if_neg (List.cons_ne_nil c r)]
      rfl
  | cons c p ih =>
    have hc : ¬ Text.isBlank c = true := by simp [hp c List.mem_cons_self]
    rw [List.cons_append, findBlank, if_neg hc, ih fun d hd => hp d (List.mem_cons_of_mem c hd)]
    by_cases hr : r = []
    · rw [if_pos hr, if_pos hr]
      rfl
    · rw [if_neg hr, if_neg hr]
      rfl

/-- The slices on both sides of the first blank are the word and the rest. -/
theorem splitWord_eq (t : Text) : (splitWord t : Checked ε _) = .ok (Script.splitWord t) := by
  rw [splitWord, Script.splitWord]
  generalize Text.trimStart t = s
  have hs := List.takeWhile_append_dropWhile (p := fun c => !Text.isBlank c) (l := s)
  have hword : ∀ c ∈ s.takeWhile fun c => !Text.isBlank c, Text.isBlank c = false := by
    intro c hc
    have hall := List.all_takeWhile (p := fun c => !Text.isBlank c) (l := s)
    simpa using List.all_eq_true.1 hall c hc
  -- the word ends at a blank or at the end, which is all that the search for a blank needs
  have hrest : ∀ c, (s.dropWhile fun c => !Text.isBlank c).head? = some c →
      Text.isBlank c = true := by
    intro c hc
    have hnot := List.head?_dropWhile_not (fun c => !Text.isBlank c) s
    rw [hc] at hnot
    simpa using hnot
  generalize s.takeWhile (fun c => !Text.isBlank c) = word at hs hword ⊢
  generalize s.dropWhile (fun c => !Text.isBlank c) = rest at hs hrest ⊢
  subst hs
  rw [findBlank_append hword hrest]
  cases rest with
  | nil => simp
  | cons c rest =>
    simp only [if_neg (List.cons_ne_nil c rest), sliceTo_append, sliceFrom_append, ok_bind]
    rfl

/-! ## Classes

A class has a name and, behind a colon, its bases. -/

def readBase (name t : Text) : Checked StatementFault ScopePath :=
  let base := Script.dropSpecifiers (Text.trim t)
  if base = [] then .error (.fault (.emptyBase name)) else parseScope base

/-- The name of a class and its written bases. -/
def splitBases (t : Text) : Checked ε (Text × List Text) := do
  match ← cut .angled .colon t with
  | some (name, bases) =>
    let pieces ← splitCommas bases
    return (Text.trim name, pieces)
  | none => return (Text.trim t, [])

def readClass (t : Text) : Checked StatementFault Item := do
  let (head, target) := Script.splitTargetName t
  let (name, bases) ← splitBases head
  if name = [] then .error (.fault .unnamedClass)
  else
    let paths ← bases.mapM (readBase name)
    let path ← parseScope name
    return .scope path paths target

/-- Only the scope of a base is cut by offsets. The specifiers in front are whole words that are
dropped. -/
theorem readBase_eq (name t : Text) : readBase name t = ofExcept (Script.readBase name t) := by
  rw [readBase, Script.readBase, parseScope_eq, ofExcept_ite]
  rfl

/-- The colon of a class and the commas between its bases are found among the bytes. -/
theorem splitBases_eq (t : Text) :
    (splitBases t : Checked ε _) = .ok (match Text.cut .angled .colon t with
      | some (name, bases) => (Text.trim name, Text.splitCommas bases)
      | none => (Text.trim t, [])) := by
  rw [splitBases, cut_eq Text.Mark.onBytes_colon Text.Brackets.onBytes_angled, ok_bind]
  cases Text.cut .angled .colon t with
  | none => rfl
  | some parts =>
    simp only [splitCommas_eq, ok_bind]
    rfl

/-- The bases are read before the name is, and the first that is empty is the fault of the class. -/
theorem readClass_eq (t : Text) : readClass t = ofExcept (Script.readClass t) := by
  rw [readClass, Script.readClass]
  generalize Script.splitTargetName t = target
  obtain ⟨head, target⟩ := target
  -- what is left of the reading once the name and the bases are cut
  have key : ∀ (name : Text) (bases : List Text),
      (if name = [] then .error (.fault .unnamedClass)
        else bases.mapM (readBase name) >>= fun paths => parseScope name >>= fun path =>
          .ok (Item.scope path paths target))
        = ofExcept (if name = [] then .error .unnamedClass
          else (bases.mapM (Script.readBase name)).map fun paths =>
            Item.scope (.parse name) paths target) := by
    intro name bases
    rw [ofExcept_ite, funext (readBase_eq name), mapM_ofExcept, parseScope_eq]
    cases bases.mapM (Script.readBase name) <;> rfl
  simp only [splitBases_eq, ok_bind]
  cases Text.cut .angled .colon head with
  | none => exact key _ _
  | some parts => exact key _ _

/-! ## Declarations

One reader for each form of a declaration, and then what they have in common: the check of what was
written, and the declaration that is made of it. -/

def readTail (name : Text) (params : Option Text) (t : Text) :
    Checked StatementFault Written := do
  let tail := Text.trim t
  let words ← splitWord tail
  let isConst := words.1 = "const".toList
  let rest := if isConst then words.2 else tail
  if rest = [] then return ⟨name, params, isConst, none⟩
  else
    match Text.dropPiece "->".toList rest with
    | some type => return ⟨name, params, isConst, some (Text.trim type)⟩
    | none => .error (.fault (.trailing rest name))

def readCallable (t : Text) : Checked StatementFault Written := do
  match ← splitApplied t with
  | .applied name params rest => readTail (Text.trim name) (some params) rest
  | .unclosed => .error (.fault (.unclosed (Text.trim t)))
  | .bare =>
    match find "->".toList t with
    | some place =>
      let name ← sliceTo t place
      let tail ← sliceFrom t place
      readTail (Text.trim name) none tail
    | none => readTail (Text.trim t) none []

def readVariable (kind : DeclKind) (t : Text) : Checked StatementFault Written := do
  let parts ← cut .angled .colon t
  let (name, type) := match parts with
    | some (name, type) => (name, some (Text.trim type))
    | none => (t, none)
  if name.contains '(' then .error (.fault (.strayParameters kind.keyword))
  else return ⟨Text.trim name, none, false, type⟩

def checkWritten (kind : DeclKind) (w : Written) : Checked StatementFault Unit := do
  let name ← parseName w.name
  if name.leaf = [] ∨ name.leaf.any Text.isBlank = true then .error (.fault (.badName w.name))
  else if kind.isMember && name.scope.isGlobal then
    .error (.fault (.unscoped kind.keyword name.leaf))
  else if w.isConst && kind != .method then .error (.fault (.strayConst w.name))
  else return ()

def parseReturns : Option Text → Checked ε (Option CType)
  | none => .ok none
  | some type => if type.isEmpty then .ok none else (parseType type).map some

def declare (kind : DeclKind) (isInherited : Bool) (w : Written) (target : Option Text) :
    Checked Cause Declaration := do
  let params ← match w.params with
    | some params => mapFault (Cause.parameters w.name) (readList params)
    | none => .ok []
  let name ← parseName w.name
  let d ← asserted ((Declaration.named kind name).withParameters params)
  let returns ← parseReturns w.returns
  return { d with
    returns := returns
    targetName := target
    isConst := w.isConst
    isInherited := isInherited }

def readDeclaration (kind : DeclKind) (isInherited : Bool) (t : Text) :
    Checked Cause Declaration := do
  if isInherited && !kind.isMember then
    .error (.fault (.statement (.notInheritable kind.keyword)))
  else
    let (head, target) := Script.splitTargetName t
    let written ← mapFault Cause.statement
      (if kind.isCallable then readCallable head else readVariable kind head)
    mapFault Cause.statement (checkWritten kind written)
    declare kind isInherited written target

/-- Behind a name, or behind its list, only the first word is taken by offsets. -/
theorem readTail_eq (name : Text) (params : Option Text) (t : Text) :
    readTail name params t = ofExcept (Script.readTail name params t) := by
  rw [readTail, Script.readTail]
  simp only [splitWord_eq, ok_bind]
  generalize (if (Script.splitWord (Text.trim t)).1 = "const".toList
    then (Script.splitWord (Text.trim t)).2 else Text.trim t) = rest
  by_cases hrest : rest = []
  · rw [if_pos hrest, if_pos hrest]
    rfl
  · rw [if_neg hrest, if_neg hrest]
    cases Text.dropPiece "->".toList rest <;> rfl

/-- With a list the name and the list are those of `splitApplied`. Without one the name ends at the
arrow, and the slice from there on starts with it. -/
theorem readCallable_eq (t : Text) : readCallable t = ofExcept (Script.readCallable t) := by
  rw [readCallable, Script.readCallable, splitApplied_eq, ok_bind]
  cases AppliedName.split t with
  | applied name params rest => exact readTail_eq _ _ _
  | unclosed => rfl
  | bare =>
    simp only [find]
    cases hbreak : Text.breakOn "->".toList t with
    | none => exact readTail_eq _ _ _
    | some parts =>
      obtain ⟨name, type⟩ := parts
      obtain rfl := Text.eq_of_breakOn hbreak
      simp only [Option.map_some, sliceTo_append, sliceFrom_append, ok_bind]
      exact readTail_eq _ _ _

/-- The type of a variable stands behind a colon that is found among the bytes. -/
theorem readVariable_eq (kind : DeclKind) (t : Text) :
    readVariable kind t = ofExcept (Script.readVariable kind t) := by
  rw [readVariable, Script.readVariable,
    cut_eq Text.Mark.onBytes_colon Text.Brackets.onBytes_angled, ok_bind]
  simp only [ofExcept_ite]
  rfl

/-- The checks look at the name as it will be declared, which is cut by offsets once more. -/
theorem checkWritten_eq (kind : DeclKind) (w : Written) :
    checkWritten kind w = ofExcept (Script.checkWritten kind w) := by
  rw [checkWritten, parseName_eq, ok_bind, Script.checkWritten]
  simp only [ofExcept_ite]
  rfl

/-- A result type that is empty counts as none, and any other has tokens to be made of. -/
theorem parseReturns_eq (returns : Option Text) :
    (parseReturns returns : Checked ε _)
      = .ok ((returns.filter fun type => !type.isEmpty).map CType.parse) := by
  cases returns with
  | none => rfl
  | some type =>
    rw [parseReturns, parseType_eq, Option.filter_some]
    cases type with
    | nil => rfl
    | cons c type => rfl

/-- The builder of a declaration gets its parameters from a list that was read, and so refuses none
of them. -/
theorem declare_eq (kind : DeclKind) (isInherited : Bool) (w : Written) (target : Option Text) :
    declare kind isInherited w target = ofExcept (Script.declare kind isInherited w target) := by
  rw [declare, Script.declare]
  simp only [parseName_eq, parseReturns_eq, ok_bind]
  cases w.params with
  | none => rfl
  | some params =>
    simp only [readList_eq, mapFault_ofExcept, ofExcept_bind]
    cases hread : Parameter.readList params with
    | error fault => rfl
    | ok ps =>
      have hbuilt := asserted_withParameters (d := .named kind (.parse w.name)) rfl hread
        Cause.refused
      show asserted ((Declaration.named kind (.parse w.name)).withParameters ps) >>= _ = _
      rw [hbuilt]
      rfl

/-- Whatever form the declaration has, one reader takes it apart and the same two steps follow. -/
theorem readDeclaration_eq (kind : DeclKind) (isInherited : Bool) (t : Text) :
    readDeclaration kind isInherited t
      = ofExcept (Script.readDeclaration kind isInherited t) := by
  rw [readDeclaration, Script.readDeclaration]
  by_cases hmember : (isInherited && !kind.isMember) = true
  · rw [if_pos hmember, if_pos hmember]
    rfl
  · rw [if_neg hmember, if_neg hmember]
    generalize Script.splitTargetName t = target
    obtain ⟨head, target⟩ := target
    have hread : (if kind.isCallable then readCallable head else readVariable kind head)
        = ofExcept (if kind.isCallable then Script.readCallable head
          else Script.readVariable kind head) := by
      rw [ofExcept_ite, readCallable_eq, readVariable_eq]
    simp only [hread, checkWritten_eq, declare_eq, mapFault_ofExcept]
    generalize (if kind.isCallable then Script.readCallable head
      else Script.readVariable kind head) = written
    cases written with
    | error fault => rfl
    | ok written => exact (ofExcept_bind _ _).symm

/-! ## Statements

The first word decides which of the readers is asked. -/

def readStatement (t : Text) : Checked Cause Item := do
  let text := Text.trim t
  let first ← splitWord text
  let isInherited : Bool := first.1 = "inherited".toList
  let (keyword, rest) ← splitWord (if isInherited then first.2 else text)
  if !isInherited && Script.classKeywords.contains keyword then
    mapFault Cause.statement (readClass rest)
  else if keyword = [] then .error (.fault (.statement .empty))
  else
    match DeclKind.ofKeyword keyword with
    | none => .error (.fault (.statement (.unknownKeyword keyword)))
    | some kind => (readDeclaration kind isInherited rest).map Item.declaration

/-- **Statements are read without a crash**, with the faults that the library has for them. -/
theorem readStatement_eq (t : Text) : readStatement t = ofExcept (Script.readStatement t) := by
  rw [readStatement, Script.readStatement]
  simp only [splitWord_eq, ok_bind, readClass_eq, readDeclaration_eq, mapFault_ofExcept,
    ofExcept_ite]
  cases DeclKind.ofKeyword _ with
  | none => rfl
  | some kind => simp only [ofExcept_map, ofExcept_error]

end Overlay.Checked
