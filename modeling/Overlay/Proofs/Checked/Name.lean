/-
Names, by offsets.

Scopes and qualified names are cut at each `::`, and the parameter list behind a name at its
parentheses. The search for that list starts behind the keyword `operator`, or behind the `()`
that belong to the name of the call operator; where it starts is an offset, counted back from the
end of the text past the blanks behind the keyword.

Counting back is safe because what is left behind the blanks is an end of the text. So of each of
the steps it is shown what part of the text they have passed, and the offset is its size.
-/
import Overlay.Name.Qualified
import Overlay.Proofs.Checked.Matching

set_option autoImplicit false

namespace Overlay.Checked

variable {ε : Type}

/-! ## Scopes and qualified names

Nothing is cut here but at separators, so these are the split of the last file with the blanks
taken off. -/

def parseScope (t : Text) : Checked ε ScopePath :=
  (splitScopes t).map fun segments => ⟨segments.filter fun s => !s.isEmpty⟩

/-- Of the segments between the separators the empty ones are dropped. -/
theorem parseScope_eq (t : Text) : (parseScope t : Checked ε _) = .ok (.parse t) := by
  rw [parseScope, splitScopes_eq]
  rfl

def parseName (t : Text) : Checked ε QualifiedName :=
  (splitScopes (Text.trim t)).map fun segments =>
    ⟨⟨segments.dropLast.filter fun s => !s.isEmpty⟩, segments.getLast?.getD []⟩

/-- The last segment is the leaf. There is always one, so nothing is missing there. -/
theorem parseName_eq (t : Text) : (parseName t : Checked ε _) = .ok (.parse t) := by
  rw [parseName, splitScopes_eq]
  rfl

/-! ## The parameter list behind a name

First where the search starts, then the list that it finds. The name is all that stands in front of
the parenthesis, including what the search has passed over. -/

/-- The offset of the first occurrence of `piece`. -/
def find (piece t : Text) : Option Nat := (Text.breakOn piece t).map fun parts => parts.1.size

/-- The offset from which on a parameter list is searched for. -/
def searchFrom (t : Text) : Checked ε Nat :=
  match AppliedName.cutOperator [] t with
  | none => .ok 0
  | some (head, _) => do
    let after ← sliceFrom t head.size
    let trimmed := Text.trimStart after
    if Text.startsWith "()".toList trimmed then
      let place ← sub t.size trimmed.size
      return place + 2
    else return head.size

/-- The offset where the search starts is the size of what the library passes over. -/
theorem searchFrom_eq (t : Text) :
    (searchFrom t : Checked ε _) = .ok (AppliedName.searchStart t).1.size := by
  rw [searchFrom, AppliedName.searchStart]
  cases hcut : AppliedName.cutOperator [] t with
  | none => rfl
  | some parts =>
    obtain ⟨head, after⟩ := parts
    have htext : t = head ++ after := AppliedName.eq_of_cutOperator hcut
    have hslice : (sliceFrom t head.size : Checked ε Text) = .ok after :=
      htext ▸ sliceFrom_append head after
    simp only [hslice, ok_bind]
    cases hcall : Text.dropPiece "()".toList (Text.trimStart after) with
    | none =>
      have hstarts : ¬ Text.startsWith "()".toList (Text.trimStart after) = true := by
        rw [Text.startsWith, hcall]
        simp
      rw [if_neg hstarts]
      rfl
    | some rest =>
      have hstarts : Text.startsWith "()".toList (Text.trimStart after) = true := by
        rw [Text.startsWith, hcall]
        rfl
      -- the offset is counted back from the end, past all that is left once the blanks are dropped
      have hblanks : t = (head ++ after.takeWhile Text.isBlank) ++ Text.trimStart after := by
        rw [List.append_assoc, Text.takeWhile_append_trimStart, htext]
      have hsize : (head ++ after.takeWhile Text.isBlank).size + 2
          = (head ++ after.takeWhile Text.isBlank ++ "()".toList).size :=
        (Text.size_append _ "()".toList).symm
      rw [if_pos hstarts, sub_size_of_eq hblanks, ok_bind, hsize]
      rfl

/-- `AppliedName.split`, by offsets: that of the first parenthesis where a list is searched for,
and that of the one that closes it. -/
def splitApplied (t : Text) : Checked ε AppliedName := do
  let start ← searchFrom t
  let tail ← sliceFrom t start
  match find ['('] tail with
  | none => return .bare
  | some place =>
    let opening := start + place
    match ← matching '(' ')' 0 (t.bytes.drop opening) with
    | none => return .unclosed
    | some n =>
      let name ← sliceTo t opening
      let params ← slice t (opening + 1) (opening + n)
      let rest ← sliceFrom t (opening + n + 1)
      return .applied name params rest

/-- Name, list and rest are the slices around the two parentheses, which are found where the library
finds them. -/
theorem splitApplied_eq (t : Text) :
    (splitApplied t : Checked ε _) = .ok (AppliedName.split t) := by
  have hstart := AppliedName.searchStart_append t
  rw [splitApplied, searchFrom_eq, AppliedName.split]
  generalize AppliedName.searchStart t = start at hstart
  obtain ⟨before, tail⟩ := start
  simp only at hstart
  subst hstart
  simp only [ok_bind, sliceFrom_append, find]
  cases hbreak : Text.breakOn ['('] tail with
  | none => rfl
  | some parts =>
    obtain ⟨p, inside⟩ := parts
    have htail : before ++ tail = (before ++ p) ++ '(' :: inside := by
      rw [Text.eq_of_breakOn hbreak]
      simp
    simp only [Option.map_some, htail, ← Text.size_append, Text.drop_bytes_append]
    rw [matching_opening rfl rfl (by decide)]
    cases hclose : Text.closing '(' ')' 0 inside with
    | none => rfl
    | some parts =>
      obtain ⟨params, rest⟩ := parts
      have hinside := Text.eq_of_closing hclose
      have hrest : (sliceFrom (before ++ p ++ '(' :: inside)
          ((before ++ p).size + (1 + params.size) + 1) : Checked ε _) = .ok rest :=
        sliceFrom_of_eq (append_enclosed hinside) (size_enclosed rfl rfl (before ++ p) params)
      simp only [Option.map_some, ok_bind, sliceTo_append, slice_enclosed (o := '(') rfl hinside,
        hrest]
      rfl

end Overlay.Checked
