/-
Parameters and patterns, by offsets and with the assertions of the builders.

The tokens of a type are moved about by their places in a list, and a name at the end is looked
for just before the last place. A declaration and the signature of a pattern assert that no
parameter has an empty type and that parameters with a default stand last. The reader of a list
has checked both before: it gives up where a default is missing, and it refuses a piece without
tokens. So what it has read can be added to a builder (`Parameter.takes_of_readList`), and the
assertion holds.

There are two kinds of steps here. Those on tokens can crash at a place that is not in the list, and
none of them has a fault to report; they are shown to give `.ok` of what the library gives. Those on
texts can also have a fault, and give `ofExcept` of it.
-/
import Overlay.Pattern.Reader
import Overlay.Proofs.Checked.Name
import Overlay.Proofs.Parameter.Building

set_option autoImplicit false

namespace Overlay

/-! ## Tokens by their places

Leading qualifiers go behind the base of a type. The places are found first, how many qualifiers
there are and where the declarator starts, and then the qualifiers are taken away at the front and
put in one by one, with the place moved back by as many. In the lemmas the list is made of the three
parts that these places part, so that a place is the length of what is in front of it. -/

namespace Checked

open CType (Token)
open Parameter (builtinWords claimsNext typeWords)

variable {ε : Type}

/-- The place where a declarator starts, from the place `i` on: the end if there is none. -/
def declaratorFrom (ts : List Token) (depth i : Nat) : Checked ε Nat :=
  if i < ts.length then
    match ts[i]? with
    | none => crash .index
    | some t =>
      if depth = 0 ∧ t.startsDeclarator = true then .ok i
      else declaratorFrom ts (t.step depth) (i + 1)
  else .ok i
termination_by ts.length - i

/-- Puts a token at a place of a list. -/
def insertAt (ts : List Token) (i : Nat) (t : Token) : Checked ε (List Token) :=
  if i ≤ ts.length then .ok (ts.take i ++ t :: ts.drop i) else crash .index

/-- Puts tokens at a place of a list, one behind the other. -/
def insertAll (ts : List Token) (i : Nat) : List Token → Checked ε (List Token)
  | [] => .ok ts
  | t :: more => do
    let ts ← insertAt ts i t
    insertAll ts (i + 1) more

/-- `CType.hoist`, by the places where the qualifiers end and where the declarator starts. -/
def hoist (ts : List Token) : Checked ε (List Token) :=
  let leading := (ts.takeWhile Token.isQualifier).length
  if leading = 0 then .ok ts
  else do
    let last ← declaratorFrom ts 0 leading
    if last = leading then return ts
    else if leading ≤ ts.length then
      let place ← sub last leading
      insertAll (ts.drop leading) place (ts.take leading)
    else crash .index

/-- The declarator is where the library splits the tokens. The induction is on the tokens that are
left, and those that were passed go to the front. -/
theorem declaratorFrom_append (front ts : List Token) (depth : Nat) :
    (declaratorFrom (front ++ ts) depth front.length : Checked ε Nat)
      = .ok (front.length + (CType.splitDeclarator depth ts).1.length) := by
  induction ts generalizing front depth with
  | nil =>
    rw [declaratorFrom, List.append_nil, if_neg (Nat.lt_irrefl _)]
    rfl
  | cons t ts ih =>
    have hlt : front.length < (front ++ t :: ts).length := by
      rw [List.length_append, List.length_cons]
      omega
    -- the place looked at is the first behind those that were passed
    have hget : (front ++ t :: ts)[front.length]? = some t := by
      rw [List.getElem?_append_right (Nat.le_refl _), Nat.sub_self]
      rfl
    rw [declaratorFrom, if_pos hlt, hget, CType.splitDeclarator]
    by_cases hstart : depth = 0 ∧ t.startsDeclarator = true
    · rw [if_pos hstart]
      simp only [if_pos hstart]
      rfl
    · have hnext := ih (front ++ [t]) (t.step depth)
      rw [List.append_assoc, List.singleton_append, List.length_append, List.length_singleton]
        at hnext
      rw [if_neg hstart]
      simp only [if_neg hstart, hnext, List.length_cons]
      rw [Nat.add_assoc, Nat.add_comm 1]

/-- What is put in at a place stands between the tokens before it and those from it on. -/
theorem insertAll_append (front more ts : List Token) :
    (insertAll (front ++ ts) front.length more : Checked ε _) = .ok (front ++ (more ++ ts)) := by
  induction more generalizing front with
  | nil => rfl
  | cons t more ih =>
    have hplace : (insertAt (front ++ ts) front.length t : Checked ε _)
        = .ok ((front ++ [t]) ++ ts) := by
      rw [insertAt, if_pos (by rw [List.length_append]; omega), List.take_left, List.drop_left]
      simp
    have hnext := ih (front ++ [t])
    rw [List.length_append, List.length_singleton] at hnext
    rw [insertAll, hplace, ok_bind, hnext]
    simp

/-- The qualifiers are moved as in the library, and no place is outside of the list. -/
theorem hoist_eq (ts : List Token) : (hoist ts : Checked ε _) = .ok (CType.hoist ts) := by
  have htake := List.takeWhile_append_dropWhile (p := Token.isQualifier) (l := ts)
  rw [hoist, CType.hoist]
  generalize ts.takeWhile Token.isQualifier = qualifiers at htake
  generalize ts.dropWhile Token.isQualifier = body at htake
  subst htake
  have hbody := CType.splitDeclarator_append 0 body
  by_cases hnone : qualifiers.length = 0
  · obtain rfl := List.length_eq_zero_iff.1 hnone
    simp only [List.length_nil, if_true, List.nil_append, hbody]
  · simp only [if_neg hnone, declaratorFrom_append, ok_bind]
    -- qualifiers, base and declarator: the place found is the one between the last two
    generalize CType.splitDeclarator 0 body = parts at hbody
    obtain ⟨base, declarator⟩ := parts
    simp only at hbody
    subst hbody
    by_cases hbase : base.length = 0
    · obtain rfl := List.length_eq_zero_iff.1 hbase
      simp only [List.length_nil, Nat.add_zero, if_true, List.nil_append]
      rfl
    · have hlast : ¬ qualifiers.length + base.length = qualifiers.length := by omega
      have hlen : qualifiers.length ≤ (qualifiers ++ (base ++ declarator)).length := by
        rw [List.length_append]
        omega
      simp only [if_neg hlast, if_pos hlen, sub_eq (Nat.le_add_right _ _), ok_bind,
        Nat.add_sub_cancel_left, List.drop_left, List.take_left, insertAll_append]

/-- The token just before the last one. -/
def beforeLast (ts : List Token) : Checked ε (Option Token) :=
  if 2 ≤ ts.length then
    match ts[ts.length - 2]? with
    | none => crash .index
    | some t => .ok (some t)
  else .ok none

/-- The token before the last is the second one from behind, if there is one. -/
theorem beforeLast_eq (ts : List Token) :
    (beforeLast ts : Checked ε _) = .ok ts.reverse.tail.head? := by
  rw [beforeLast]
  match h : ts.reverse with
  | [] =>
    obtain rfl := List.reverse_eq_nil_iff.1 h
    rfl
  | [last] =>
    obtain rfl : ts = [last] := by rw [← List.reverse_reverse ts, h, List.reverse_singleton]
    rfl
  | last :: before :: more =>
    obtain rfl : ts = more.reverse ++ [before] ++ [last] := by
      rw [← List.reverse_reverse ts, h]
      simp
    have hlen : (more.reverse ++ [before] ++ [last]).length = more.reverse.length + 2 := by simp
    have hget : (more.reverse ++ [before] ++ [last])[more.reverse.length]? = some before := by
      simp
    rw [hlen, if_pos (Nat.le_add_left _ _), Nat.add_sub_cancel, hget]
    rfl

/-- `Parameter.stripName`, with the token before the name by its place. -/
def stripName (ts : List Token) : Checked ε (List Token) := do
  let before ← beforeLast ts
  match ts.getLast? with
  | some (.word w) =>
    if !builtinWords.contains w && !before.any claimsNext
        && (2 ≤ typeWords 0 ts || before.any Token.isIndirection) then
      return ts.dropLast
    else return ts
  | _ => return ts

/-- Whether the last token is a name is told by the one before it, and both are there when they are
looked at. -/
theorem stripName_eq (ts : List Token) :
    (stripName ts : Checked ε _) = .ok (Parameter.stripName ts) := by
  have hlast : ts.getLast? = ts.reverse.head? := List.head?_reverse.symm
  rw [stripName, beforeLast_eq, ok_bind, Parameter.stripName, Parameter.endsInName, hlast]
  simp only [List.contains_eq_mem]
  cases ts.reverse with
  | nil => rfl
  | cons last before =>
    cases last with
    | word w => exact (apply_ite Except.ok _ _ _).symm
    | _ => rfl

/-! ## Reading parameters

A list is cut at commas, a parameter at its sign of assignment. -/

def ofTokens (ts : List Token) : Checked ε CType := (hoist ts).map fun ts => ⟨CType.spell ts⟩

def parseType (t : Text) : Checked ε CType := ofTokens (CType.tokenize t)

def splitDefault (t : Text) : Checked ε (Text × Option Text) := do
  match ← cut .all .assign t with
  | some (type, expr) => return (type, some expr)
  | none => return (t, none)

def parseParameter (t : Text) : Checked ε (Option Parameter) := do
  let parts ← splitDefault t
  let tokens ← stripName (CType.tokenize parts.1)
  if tokens = [] then return none
  else
    let type ← ofTokens tokens
    match parts.2 with
    | none => return some ⟨type, none⟩
    | some expr =>
      if expr.all Text.isBlank then return none
      else return some ⟨type, some (Text.squeeze expr)⟩

def readPieces (list : Text) (afterDefault : Bool) :
    List Text → Checked ListingFault (List Parameter)
  | [] => .ok []
  | piece :: rest => do
    match ← parseParameter piece with
    | none => .error (.fault (.emptyParameter list))
    | some p =>
      if p.default.isNone && afterDefault then .error (.fault (.requiredAfterDefault p.type))
      else (readPieces list p.default.isSome rest).map (p :: ·)

def readList (t : Text) : Checked ListingFault (List Parameter) :=
  let list := Text.trim t
  if list = [] ∨ list = "void".toList then .ok []
  else splitCommas list >>= readPieces list false

/-- A type is made of its tokens without a crash. -/
theorem ofTokens_eq (ts : List Token) : (ofTokens ts : Checked ε _) = .ok (.ofTokens ts) := by
  rw [ofTokens, hoist_eq]
  rfl

/-- So a type is read without a crash, whatever its text. -/
theorem parseType_eq (t : Text) : (parseType t : Checked ε _) = .ok (.parse t) :=
  ofTokens_eq _

/-- The sign of assignment is found among the bytes, outside of all brackets. -/
theorem splitDefault_eq (t : Text) :
    (splitDefault t : Checked ε _) = .ok (Parameter.splitDefault t) := by
  rw [splitDefault, cut_eq Text.Mark.onBytes_assign Text.Brackets.onBytes_all,
    Parameter.splitDefault]
  cases Text.cut .all .assign t <;> rfl

/-- A piece without tokens is refused before a type is made of it. -/
theorem parseParameter_eq (t : Text) :
    (parseParameter t : Checked ε _) = .ok (Parameter.parse t) := by
  rw [parseParameter, splitDefault_eq, Parameter.parse]
  generalize Parameter.splitDefault t = parts
  obtain ⟨written, default⟩ := parts
  simp only [ok_bind, stripName_eq, ofTokens_eq]
  by_cases hnil : Parameter.stripName (CType.tokenize written) = []
  · rw [if_pos hnil, if_pos hnil]
    rfl
  · rw [if_neg hnil, if_neg hnil]
    cases default with
    | none => rfl
    | some expr => exact (apply_ite Except.ok _ _ _).symm

/-- Whether a default is missing is checked piece by piece, with the fault of the first piece that
is refused. -/
theorem readPieces_eq (list : Text) (afterDefault : Bool) (pieces : List Text) :
    readPieces list afterDefault pieces
      = ofExcept (Parameter.readPieces list afterDefault pieces) := by
  induction pieces generalizing afterDefault with
  | nil => rfl
  | cons piece pieces ih =>
    rw [readPieces, parseParameter_eq, Parameter.readPieces]
    cases Parameter.parse piece with
    | none => rfl
    | some p =>
      simp only [ok_bind]
      by_cases hmissing : (p.default.isNone && afterDefault) = true
      · rw [if_pos hmissing, if_pos hmissing]
        rfl
      · rw [if_neg hmissing, if_neg hmissing, ih, ofExcept_map]

/-- The commas are looked for only in a list that is not empty and is not `void`. -/
theorem readList_eq (t : Text) : readList t = ofExcept (Parameter.readList t) := by
  rw [readList, Parameter.readList]
  by_cases hempty : Text.trim t = [] ∨ Text.trim t = "void".toList
  · simp only [if_pos hempty]
    rfl
  · simp only [if_neg hempty, splitCommas_eq, ok_bind, readPieces_eq]

/-! ## Builders

The library returns what a builder refuses as a fault. Here it is a crash, since a program that has
checked its parameters asserts that the builder takes them. -/

/-- What a builder makes; it asserts that its promises stay. -/
def asserted {α : Type} : Except Violation α → Checked ε α
  | .ok a => .ok a
  | .error violation => crash (.refused violation)

/-- The types and the defaults of a list that was read are what a declaration asks for. -/
theorem asserted_withParameters {d : Declaration} {t : Text} {params : List Parameter}
    (hd : d.params = .empty) (h : Parameter.readList t = .ok params) (refused : Violation → ε) :
    asserted (d.withParameters params)
      = ofExcept ((d.withParameters params).mapError refused) := by
  obtain ⟨d', hd'⟩ := Declaration.exists_withParameters
    (hd.symm ▸ Parameter.takes_of_readList h : ParameterList.Takes d.params params)
  rw [hd']
  rfl

/-- They are what a signature asks for as well. -/
theorem asserted_ofParameters {t : Text} {params : List Parameter}
    (h : Parameter.readList t = .ok params) (isConst : Bool) (refused : Violation → ε) :
    asserted (Signature.ofParameters params isConst)
      = ofExcept ((Signature.ofParameters params isConst).mapError refused) := by
  obtain ⟨s, hs⟩ := Signature.exists_ofParameters (Parameter.takes_of_readList h) isConst
  rw [hs]
  rfl

/-! ## Reading patterns

The signature is built with the same assertion. The rest is cut by the name and its list. -/

def readSignature (params rest : Text) : Checked Pattern.Fault Signature := do
  let ps ← mapFault .parameters (readList params)
  let isConst ← ofExcept (Pattern.readConst rest)
  asserted (Signature.ofParameters ps isConst)

def readName (t : Text) : Checked ε (ScopeLimit × Text) :=
  match Text.dropPiece "*::".toList t with
  | some rest => .ok (.wildcard, Text.trim rest)
  | none =>
    match Text.dropPiece "::".toList t with
    | some rest => .ok (.exact .global, Text.trim rest)
    | none => do
      let name ← parseName t
      return (if name.scope.isGlobal then .unqualified else .exact name.scope, name.leaf)

def ofParts (name : Text) (signature : Option Signature) : Checked Pattern.Fault Pattern := do
  let parts ← readName (Text.trim name)
  if Pattern.isLeaf parts.2 then return .named parts.1 parts.2 signature
  else .error (.fault (.leaf parts.2))

def readNamed (t : Text) : Checked Pattern.Fault Pattern := do
  match ← splitApplied t with
  | .bare => ofParts t none
  | .unclosed => .error (.fault (.unclosed t))
  | .applied name params rest =>
    let signature ← readSignature params rest
    ofParts name (some signature)

def parsePattern (t : Text) : Checked Pattern.Malformed Pattern :=
  let text := Text.trim t
  if text = [] then .ok .global
  else mapFault (fun fault => ⟨text, fault⟩) (readNamed text)

/-- The builder of a signature gets its parameters from a list that was read, and so refuses none of
them. -/
theorem readSignature_eq (params rest : Text) :
    readSignature params rest = ofExcept (Pattern.readSignature params rest) := by
  rw [readSignature, readList_eq, mapFault_ofExcept, Pattern.readSignature]
  cases hread : Parameter.readList params with
  | error fault => rfl
  | ok ps =>
    cases Pattern.readConst rest with
    | error fault => rfl
    | ok isConst =>
      exact asserted_ofParameters hread isConst Pattern.Fault.refused

/-- A mark in front of the name is dropped as it stands, and only a name without one is cut by
offsets. -/
theorem readName_eq (t : Text) : (readName t : Checked ε _) = .ok (Pattern.readName t) := by
  rw [readName, Pattern.readName]
  cases Text.dropPiece "*::".toList t with
  | some rest => rfl
  | none =>
    cases Text.dropPiece "::".toList t with
    | some rest => rfl
    | none =>
      simp only [parseName_eq, ok_bind]
      rfl

/-- Whether the leaf is valid is asked when the name has been cut. -/
theorem ofParts_eq (name : Text) (signature : Option Signature) :
    ofParts name signature = ofExcept (Pattern.ofParts name signature) := by
  rw [ofParts, readName_eq, ok_bind, Pattern.ofParts]
  by_cases hleaf : Pattern.isLeaf (Pattern.readName (Text.trim name)).2 = true
  · simp only [if_pos hleaf]
    rfl
  · simp only [if_neg hleaf]
    rfl

/-- Name, list and rest come from one cut, and from there on no offset is needed. -/
theorem readNamed_eq (t : Text) : readNamed t = ofExcept (Pattern.readNamed t) := by
  rw [readNamed, splitApplied_eq, ok_bind, Pattern.readNamed]
  cases AppliedName.split t with
  | bare => exact ofParts_eq t none
  | unclosed => rfl
  | applied name params rest =>
    simp only [readSignature_eq, ofParts_eq]
    exact (ofExcept_bind _ _).symm

/-- **Patterns are read without a crash**, with the faults that the library has for them. -/
theorem parsePattern_eq (t : Text) : parsePattern t = ofExcept (Pattern.parse t) := by
  rw [parsePattern, Pattern.parse]
  by_cases hnil : Text.trim t = []
  · simp only [if_pos hnil]
    rfl
  · simp only [if_neg hnil, readNamed_eq, mapFault_ofExcept]

end Checked

end Overlay
