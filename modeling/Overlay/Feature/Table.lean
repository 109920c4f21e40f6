/-
The finished table, and the entry that wins.

For one feature and one variant at most one entry wins. It must be of the feature and
match the variant, and a global entry must have been recorded before the variant's
declaration (a variant that was never registered sees them all). Of these the most
specific wins, then the one that matched at the smaller depth, then the one recorded
last: that order is `Rank`.

An entry can only match if it is global or names the variant's leaf, so the table keeps
the entries of each feature by leaf name, with the global ones apart, and asks no
others.
-/
import Overlay.Feature.Draft
import Overlay.Pattern.Matching

set_option autoImplicit false

namespace Overlay.Feature

/-! ## Competing -/

/-- What decides between two entries that match one variant. -/
structure Rank where
  specificity : Pattern.Specificity
  depth : Nat
  sequence : Nat
  deriving DecidableEq, Repr

namespace Rank

/-- The rank `r` loses against `s`: less specific, else deeper, else recorded earlier. -/
def losesTo (r s : Rank) : Bool :=
  if r.specificity.level = s.specificity.level then
    -- the smaller depth wins, but the greater sequence number
    if r.depth = s.depth then r.sequence < s.sequence else s.depth < r.depth
  else r.specificity.level < s.specificity.level

end Rank

namespace Entry

/-- The entry was recorded in time for a variant: only global entries come too late. -/
def inTimeFor (e : Entry) (v : Variant) : Bool :=
  !e.pattern.isGlobal || v.position.all fun position => e.sequence < position

/-- The rank of an entry for a variant; `none` if it is none of the variant's entries. -/
def rank? (e : Entry) (v : Variant) (g : ScopeGraph) : Option Rank :=
  if e.inTimeFor v then
    (e.pattern.depth? v g).map fun depth => ⟨e.pattern.specificity, depth, e.sequence⟩
  else none

def better (best : Option (Rank × Entry)) (next : Rank × Entry) : Option (Rank × Entry) :=
  match best with
  | none => some next
  -- of two equal ranks the later entry wins
  | some b => if next.1.losesTo b.1 then some b else some next

/-- The entry of the highest rank for a variant. -/
def best (es : List Entry) (v : Variant) (g : ScopeGraph) : Option Entry :=
  let ranked := es.filterMap fun e => (e.rank? v g).map fun rank => (rank, e)
  (ranked.foldl better none).map Prod.snd

end Entry

/-! ## The index -/

/-- The entries of one feature by leaf name, with the global ones apart. An entry is listed by
its place in the table. -/
structure Bucket where
  byLeaf : Dictionary (List Nat)
  global : List Nat
  deriving DecidableEq

namespace Bucket

def empty : Bucket := ⟨.empty, []⟩

/-- Lists an entry, which stands at `place`, after those that are listed. -/
def add (b : Bucket) (e : Entry) (place : Nat) : Bucket :=
  match e.pattern.leaf? with
  | none => { b with global := b.global ++ [place] }
  | some leaf =>
    { b with byLeaf := b.byLeaf.insert leaf ((b.byLeaf.get? leaf).getD [] ++ [place]) }

def candidates (b : Bucket) (leaf : Text) : List Nat :=
  (b.byLeaf.get? leaf).getD [] ++ b.global

end Bucket

abbrev Index := Dictionary Bucket

namespace Index

def bucket (index : Index) (feature : Text) : Bucket := (index.get? feature).getD .empty

/-- Lists an entry, which stands at `place`, in the bucket of its feature. -/
def add (index : Index) (e : Entry) (place : Nat) : Index :=
  index.insert e.feature ((index.bucket e.feature).add e place)

def ofEntries (es : List Entry) : Index :=
  es.zipIdx.foldl (fun index e => index.add e.1 e.2) .empty

/-- The places of the entries of a feature that can match a variant of this leaf name. -/
def candidates (index : Index) (feature leaf : Text) : List Nat :=
  match index.get? feature with
  | none => []
  | some bucket => bucket.candidates leaf

end Index

/-! ## The table -/

structure Table where
  entries : List Entry
  index : Index
  diagnostics : List Diagnostic
  indexed : index = Index.ofEntries entries
  deriving DecidableEq

/-- The entries of a draft that are still there, in the order of definition. -/
def Draft.entries (d : Draft) : List Entry := d.slots.filterMap id

def Draft.freeze (d : Draft) : Table := ⟨d.entries, Index.ofEntries d.entries, d.diagnostics, rfl⟩

namespace Table

def featureNames (t : Table) : List Text := t.index.keys

/-- The entries of a feature that can match a variant of this leaf name. -/
def candidates (t : Table) (feature leaf : Text) : List Entry :=
  (t.index.candidates feature leaf).filterMap fun place => t.entries[place]?

/-- The entry that wins for a feature on a variant. -/
def bestMatch (t : Table) (feature : Text) (v : Variant) (g : ScopeGraph) : Option Entry :=
  Entry.best (t.candidates feature v.leaf) v g

end Table

end Overlay.Feature
