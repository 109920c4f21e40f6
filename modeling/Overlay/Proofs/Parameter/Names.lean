/-
The names of parameters.

Behind a type an identifier is the name of the parameter, and it is dropped (`stripName_named`): the
type is then what it is without the name (`parse_text`). A type is one for this purpose when it ends
in an indirection, or has a word of its own outside brackets and does not end in a token that claims
the next. Whether a word is outside brackets is decided by a count of open ones, and with balanced
brackets none is open there (`foldl_step_eq_zero`).

So a list of parameters is read alike whatever the names in it are (`names_play_no_part`).

The conditions are on the type as it is written, since that is what a reader of a declaration sees.
They are shown to be what the reader asks of the tokens, and from there on the name is a last token
that is taken off.
-/
import Overlay.Feature.Entry
import Overlay.Pattern.Reader
import Overlay.Proofs.CType.Qualifiers
import Overlay.Proofs.Parameter.Defaults

set_option autoImplicit false

namespace Overlay.Parameter

open CType (Token tokenize)
open Text (IsGap IsListed isBlank isIdentifier isListMark squeeze trim)

variable {t n : Text} {ts us : List Token} {token : Token}

/-! ## What a name can stand behind

A word of the language, such as `int`, is never the name of a parameter. And behind
`struct` or `::` the next word belongs to the type. -/

/-- An identifier that is no built-in word. -/
def IsName (n : Text) : Prop := isIdentifier n = true ∧ n ∉ builtinWords

/-- A word that is no qualifier stands outside template arguments and parentheses: in front of it as
many of these are closed as were opened. -/
def HasTypeWord (t : Text) : Prop :=
  ∃ us w vs, tokenize t = us ++ .word w :: vs ∧ w ∉ CType.qualifiers
    ∧ us.count (.mark '<') = us.count (.mark '>') ∧ us.count (.mark '(') = us.count (.mark ')')

/-- A parameter as it is written, but for its name. -/
structure Written where
  type : Text
  default : Option Text

namespace Written

/-- The parameter as it is written with this name. -/
def text (w : Written) (n : Text) : Text :=
  w.type ++ ' ' :: (n ++ (w.default.map (" = ".toList ++ ·)).getD [])

/-- A name behind the type is the name of the parameter. -/
structure TakesName (w : Written) : Prop where
  plain : '=' ∉ w.type
  balanced : Text.Brackets.all.IsBalanced w.type
  named : (∃ token ∈ (tokenize w.type).getLast?, token.isIndirection = true)
    ∨ HasTypeWord w.type ∧ ∀ token ∈ (tokenize w.type).getLast?, claimsNext token = false
  default : ∀ e ∈ w.default, ¬ IsGap e

end Written

/-! ## Dropping the name

The reader counts the words outside brackets that could be the type. With the name there must be two
of them, so there must be one without it, or an indirection in front of the name. -/

/-- The words of two parts are counted one after the other, with the depth that the first leaves. -/
theorem typeWords_append (depth : Nat) (ts us : List Token) :
    typeWords depth (ts ++ us)
      = typeWords depth ts + typeWords (ts.foldl Token.step depth) us := by
  induction ts generalizing depth with
  | nil => simp [typeWords]
  | cons token ts ih =>
    rw [List.cons_append, typeWords, typeWords, ih, List.foldl_cons, Nat.add_assoc]

/-- Every word but a qualifier is counted. -/
theorem isTypeWord_iff : isTypeWord token = true ↔ ∃ w, token = .word w ∧ w ∉ CType.qualifiers := by
  cases token <;> simp [isTypeWord, ← CType.isQualifier_word_iff]

/-- A mark is written as often as it is a token. -/
theorem count_flatMap_text {c : Char} (hc : CType.separates c = true)
    (h : ∀ token ∈ ts, token.IsRead) : (ts.flatMap Token.text).count c = ts.count (.mark c) := by
  obtain ⟨hident, hscope, hrvalue, hellipsis⟩ : Text.isIdentChar c = false ∧ c ≠ ':' ∧ c ≠ '&'
      ∧ c ≠ '.' := by
    simpa [CType.separates] using hc
  induction ts with
  | nil => rfl
  | cons token ts ih =>
    obtain ⟨htoken, hts⟩ := List.forall_mem_cons.1 h
    rw [List.flatMap_cons, List.count_append, ih hts, List.count_cons, Nat.add_comm,
      Nat.add_left_cancel_iff]
    cases token with
    | scope => simp [Token.text, hscope.symm]
    | rvalue => simp [Token.text, hrvalue.symm]
    | ellipsis => simp [Token.text, hellipsis.symm]
    | word w =>
      have hnot : c ∉ w := Text.not_mem_of_isIdentifier htoken hident
      simp [Token.text, List.count_eq_zero_of_not_mem hnot]
    | number w =>
      have hnot : c ∉ w := fun hmem => by
        simp [CType.isIdentChar_of_isDigit (htoken.2 c hmem)] at hident
      simp [Token.text, List.count_eq_zero_of_not_mem hnot]
    | mark d => simp [Token.text, List.count_cons]

/-- Where as many brackets are closed as were opened, none is open. -/
theorem foldl_step_eq_zero (hbalanced : Text.Brackets.angled.IsBalanced t) (hus : us <+: tokenize t)
    (hangle : us.count (.mark '<') = us.count (.mark '>'))
    (hparen : us.count (.mark '(') = us.count (.mark ')')) : us.foldl Token.step 0 = 0 := by
  have hpaired := Text.Brackets.isPaired_angled
  obtain ⟨p, hp, htext, hdepth⟩ := CType.exists_prefix_of_tokens hus
  have hread : ∀ token ∈ us, token.IsRead :=
    fun _ hmem => CType.isRead_of_mem_tokenize (hus.subset hmem)
  have hcount : ∀ c, CType.separates c = true → isBlank c = false →
      p.count c = us.count (.mark c) := by
    intro c hc hblank
    rw [← count_flatMap_text hc hread, htext, List.count_filter (by simp [hblank])]
  -- the reader counts both kinds of brackets together, here they are told kind by kind
  have hopeners : p.countP (· ∈ Text.Brackets.angled.openers) = p.count '<' + p.count '(' := by
    rw [Text.Brackets.countP_mem_eq hpaired.nodup_openers]
    rfl
  have hclosers : p.countP (· ∈ Text.Brackets.angled.closers) = p.count '>' + p.count ')' := by
    rw [Text.Brackets.countP_mem_eq hpaired.nodup_closers]
    rfl
  have hsum := hbalanced.depthAfter_add hpaired hp 0
  rw [hopeners, hclosers, hcount '<' rfl rfl, hcount '>' rfl rfl, hcount '(' rfl rfl,
    hcount ')' rfl rfl] at hsum
  rw [hdepth]
  omega

/-- A type with a word outside brackets is counted as having one. -/
theorem typeWords_pos (hbalanced : Text.Brackets.angled.IsBalanced t) (h : HasTypeWord t) :
    0 < typeWords 0 (tokenize t) := by
  obtain ⟨us, w, vs, htokens, hw, hangle, hparen⟩ := h
  have hdepth := foldl_step_eq_zero hbalanced (htokens ▸ List.prefix_append us _) hangle hparen
  have hword : isTypeWord (.word w) = true := isTypeWord_iff.2 ⟨w, rfl, hw⟩
  rw [htokens, typeWords_append, hdepth, typeWords, if_pos ⟨rfl, hword⟩]
  omega

/-- An indirection claims nothing. -/
theorem claimsNext_of_isIndirection (h : token.isIndirection = true) :
    claimsNext token = false := by
  cases token <;> simp_all [Token.isIndirection, claimsNext]

/-- A word at the end is a name, if enough stands in front of it. -/
theorem endsInName_concat (hn : n ∉ builtinWords)
    (hclaims : ∀ token ∈ ts.getLast?, claimsNext token = false)
    (h : 2 ≤ typeWords 0 (ts ++ [.word n]) ∨ ∃ token ∈ ts.getLast?, token.isIndirection = true) :
    endsInName (ts ++ [.word n]) = true := by
  have hreverse : (ts ++ [Token.word n]).reverse = .word n :: ts.reverse := by simp
  have hclaimed : ts.getLast?.any claimsNext = false := by
    simpa [Option.any_eq_false] using hclaims
  have hnamed : (decide (2 ≤ typeWords 0 (ts ++ [.word n])) || ts.getLast?.any Token.isIndirection)
      = true := by
    simpa [Option.any_eq_true] using h
  rw [endsInName, hreverse]
  simp [hn, hclaimed, hnamed, List.head?_reverse]

/-- The name is one token more. -/
theorem tokenize_named (hn : isIdentifier n = true) (t : Text) :
    tokenize (t ++ ' ' :: n) = tokenize t ++ [.word n] := by
  rw [CType.tokenize_append_cons rfl, CType.tokenize_identifier hn]

section Named

variable {w : Written} (hw : w.TakesName) (hn : IsName n)
include hw hn

/-- **The name is dropped**, and the tokens of the type are left. -/
theorem stripName_named : stripName (tokenize (w.type ++ ' ' :: n)) = tokenize w.type := by
  have hbalanced := Text.Brackets.isBalanced_angled hw.balanced
  have hclosed : (tokenize w.type).foldl Token.step 0 = 0 := by
    rw [CType.foldl_step_tokenize, hbalanced.depthAfter Text.Brackets.isPaired_angled]
  have hword : isTypeWord (.word n) = true := by
    have hbuiltin : CType.qualifiers ⊆ builtinWords := by simp [CType.qualifiers, builtinWords]
    exact isTypeWord_iff.2 ⟨n, rfl, fun hq => hn.2 (hbuiltin hq)⟩
  have hends : endsInName (tokenize w.type ++ [.word n]) = true := by
    rcases hw.named with ⟨token, htoken, hindirection⟩ | ⟨hwords, hclaims⟩
    · apply endsInName_concat hn.2 _ (.inr ⟨token, htoken, hindirection⟩)
      intro last hlast
      obtain rfl : token = last := Option.some.inj (htoken.symm.trans hlast)
      exact claimsNext_of_isIndirection hindirection
    · -- the name is the second word outside brackets
      apply endsInName_concat hn.2 hclaims (.inl ?_)
      have hpos := typeWords_pos hbalanced hwords
      rw [typeWords_append, hclosed, typeWords, if_pos ⟨rfl, hword⟩]
      omega
  rw [tokenize_named hn.1, stripName, if_pos hends, List.dropLast_concat]

/-- The name of a parameter is no part of what is read. -/
theorem parse_text : parse (w.text n) = some ⟨.parse w.type, w.default.map squeeze⟩ := by
  have hplain : '=' ∉ w.type ++ ' ' :: n := by
    have hname : '=' ∉ n := Text.not_mem_of_isIdentifier hn.1 rfl
    simp [hw.plain, hname]
  have hfilled : ¬ IsGap (w.type ++ ' ' :: n) := by
    rw [← tokenize_eq_nil_iff, tokenize_named hn.1]
    exact List.concat_ne_nil _ _
  cases hdefault : w.default with
  | none =>
    have htext : w.text n = w.type ++ ' ' :: n := by simp [Written.text, hdefault]
    rw [htext, parse_type hplain hfilled, stripName_named hw hn]
    rfl
  | some e =>
    -- no bracket is open behind the name, so the `=` there is that of the default
    have hclosed : Text.Brackets.all.depthAfter 0 (w.type ++ ' ' :: n) = 0 := by
      have hbrackets : ∀ c ∈ ' ' :: n, Text.Brackets.all.isBracket c = false := by
        refine List.forall_mem_cons.2 ⟨rfl, fun c hc => ?_⟩
        have hmark := Text.isListMark_of_isIdentChar (Text.isIdentChar_of_mem hn.1 hc)
        exact (Bool.or_eq_false_iff.1 hmark).1
      rw [Text.Brackets.depthAfter_append, hw.balanced.depthAfter Text.Brackets.isPaired_all,
        Text.Brackets.depthAfter_of_forall hbrackets]
    have htext : w.text n = w.type ++ ' ' :: n ++ " = ".toList ++ e := by
      simp [Written.text, hdefault]
    rw [htext, parse_spaced hplain hclosed hfilled (hw.default e hdefault), stripName_named hw hn]
    rfl

end Named

/-! ## Lists of parameters with names

A list is read piece by piece, and no piece sees the name in another. It also has to be seen that
the commas stay where they are, and they do, as an identifier has none. -/

/-- Parameters, each with a name that can stand there. -/
def AreNamed (ws : List (Written × Text)) : Prop := ∀ x ∈ ws, x.1.TakesName ∧ IsName x.2

/-- The parameters as they are written, each with its name. -/
def texts (ws : List (Written × Text)) : List Text := ws.map fun x => x.1.text x.2

/-- The entry is about the callable of that name with these parameters. -/
def IsAbout (e : Feature.Entry) (limit : ScopeLimit) (leaf : Text) (ps : List Parameter)
    (isConst : Bool) : Prop :=
  ∃ s, Signature.ofParameters ps isConst = .ok s ∧ e.pattern = .named limit leaf (some s)

section Lists

variable {ws ws' : List (Written × Text)}

/-- Each parameter is read with its type and default, and without its name. -/
theorem map_parse_texts (h : AreNamed ws) : (texts ws).map parse
    = (ws.map Prod.fst).map fun w => some ⟨.parse w.type, w.default.map squeeze⟩ := by
  rw [texts, List.map_map, List.map_map]
  exact List.map_congr_left fun x hx => parse_text (h x hx).1 (h x hx).2

/-- A name has neither brackets nor commas. -/
theorem map_filter_texts (h : AreNamed ws) : (texts ws).map (List.filter isListMark)
    = (ws.map Prod.fst).map fun w => (w.text []).filter isListMark := by
  rw [texts, List.map_map, List.map_map]
  apply List.map_congr_left
  intro x hx
  have hname : x.2.filter isListMark = [] := by
    apply CType.filter_of_isIdentChar fun _ => Text.isListMark_of_isIdentChar
    exact fun c hc => Text.isIdentChar_of_mem (h x hx).2.1 hc
  have hspace : ∀ t : Text, (' ' :: t).filter isListMark = t.filter isListMark :=
    fun t => List.filter_cons_of_neg (by decide)
  simp only [Function.comp_apply, Written.text, List.filter_append, hspace, hname,
    List.nil_append]

/-- A type that takes a name has a token. -/
theorem tokenize_type_ne_nil {w : Written} (hw : w.TakesName) : tokenize w.type ≠ [] := by
  rcases hw.named with ⟨token, htoken, -⟩ | ⟨⟨us, word, vs, htokens, -⟩, -⟩
  · exact List.ne_nil_of_mem (List.mem_of_getLast? htoken)
  · rw [htokens]
    simp

/-- A parameter with a name has more tokens than one. -/
theorem two_le_length_tokenize {w : Written} (hw : w.TakesName) (hn : IsName n) (r : Text) :
    2 ≤ (tokenize (w.text n ++ r)).length := by
  obtain ⟨more, htext⟩ : ∃ more, w.text n ++ r = w.type ++ ' ' :: (n ++ more) :=
    ⟨(w.default.map (" = ".toList ++ ·)).getD [] ++ r, by simp [Written.text]⟩
  have htype := List.length_pos_iff.2 (tokenize_type_ne_nil hw)
  have hname : tokenize (n ++ more) ≠ [] := by
    rw [Ne, tokenize_eq_nil_iff, Text.isGap_append, ← tokenize_eq_nil_iff,
      CType.tokenize_identifier hn.1]
    simp
  have hrest := List.length_pos_iff.2 hname
  rw [htext, CType.tokenize_append_cons rfl, List.length_append]
  omega

/-- So every one of the parameters can be read. -/
theorem parse_ne_none {piece : Text} (h : AreNamed ws) (hpiece : piece ∈ texts ws) :
    parse piece ≠ none := by
  intro hnone
  have hmem := List.mem_map_of_mem (f := parse) hpiece
  rw [map_parse_texts h, hnone] at hmem
  simp at hmem

/-- A list of parameters with names is not `void`. -/
theorem readList_texts (h : AreNamed ws) (hlisted : IsListed (texts ws)) (list : Text) :
    readList (", ".toList.intercalate (texts ws)) = readPieces list false (texts ws) := by
  cases hws : ws with
  | nil => rfl
  | cons x more =>
    rw [← hws]
    have hne : texts ws ≠ [] := by simp [texts, hws]
    obtain ⟨r, hr⟩ : ∃ r, ", ".toList.intercalate (texts ws) = x.1.text x.2 ++ r := by
      rw [texts, hws, List.map_cons]
      cases more with
      | nil => exact ⟨[], by simp⟩
      | cons y more =>
        exact ⟨_, by rw [List.intercalate_cons_of_ne_nil (by simp), List.append_assoc]⟩
    obtain ⟨hx, hname⟩ := h x (hws ▸ List.mem_cons_self)
    have htokens := two_le_length_tokenize hx hname r
    rw [← hr, ← CType.tokenize_trim] at htokens
    -- nothing and `void` have one token at most
    have hlist : ¬ (trim (", ".toList.intercalate (texts ws)) = []
        ∨ trim (", ".toList.intercalate (texts ws)) = "void".toList) := by
      rintro (hnil | hvoid)
      · rw [hnil, CType.tokenize_nil] at htokens
        simp at htokens
      · rw [hvoid, CType.tokenize_identifier rfl] at htokens
        simp at htokens
    have hpieces := map_parse_splitCommas hlisted hne
    rw [readList]
    simp only [if_neg hlist]
    exact (readPieces_congr hpieces.symm fun _ => parse_ne_none h).symm

end Lists

/-- Parameters that differ in their names alone are the same, and so are the signatures of lists of
them and the keys of entries with these. -/
theorem names_play_no_part {ws ws' : List (Written × Text)} (h : AreNamed ws) (h' : AreNamed ws')
    (hsame : ws.map Prod.fst = ws'.map Prod.fst) :
    (∀ x ∈ ws, parse (x.1.text x.2) = some ⟨.parse x.1.type, x.1.default.map squeeze⟩)
      ∧ (∀ ps ps', (texts ws).map parse = ps.map some → (texts ws').map parse = ps'.map some →
        ∀ isConst, Signature.ofParameters ps isConst = Signature.ofParameters ps' isConst
          ∧ ∀ e e' : Feature.Entry, ∀ limit leaf, e.feature = e'.feature →
            IsAbout e limit leaf ps isConst → IsAbout e' limit leaf ps' isConst → e.key = e'.key)
      ∧ (IsListed (texts ws) → ∀ rest,
        Pattern.readSignature (", ".toList.intercalate (texts ws)) rest
          = Pattern.readSignature (", ".toList.intercalate (texts ws')) rest) := by
  have hparse : (texts ws).map parse = (texts ws').map parse := by
    rw [map_parse_texts h, map_parse_texts h', hsame]
  refine ⟨fun x hx => parse_text (h x hx).1 (h x hx).2, ?_, ?_⟩
  · intro ps ps' hps hps' isConst
    obtain rfl : ps = ps' := by
      apply List.map_injective_iff.2 (Option.some_injective Parameter)
      rw [← hps, hparse, hps']
    refine ⟨rfl, ?_⟩
    rintro e e' limit leaf hfeature ⟨s, hs, hpattern⟩ ⟨s', hs', hpattern'⟩
    obtain rfl : s = s' := Except.ok.inj (hs.symm.trans hs')
    rw [Feature.Entry.key, Feature.Entry.key, hfeature, hpattern, hpattern']
  · intro hlisted rest
    have hlisted' : IsListed (texts ws') := by
      apply hlisted.congr
      rw [map_filter_texts h, map_filter_texts h', hsame]
    have hlist : readList (", ".toList.intercalate (texts ws))
        = readList (", ".toList.intercalate (texts ws')) := by
      rw [readList_texts h hlisted [], readList_texts h' hlisted' []]
      exact readPieces_congr hparse fun _ => parse_ne_none h
    rw [Pattern.readSignature, Pattern.readSignature, hlist]

def mapReference : Written := ⟨"const std::map<int, A> &".toList, none⟩

def defaultedSize : Written := ⟨"unsigned long".toList, some " f(a, b)\t+ 1".toList⟩

/-- A reference takes a name, as it ends in an indirection. -/
theorem takesName_mapReference : mapReference.TakesName where
  plain := by decide
  balanced := by decide +kernel
  named := .inl ⟨.mark '&', by decide +kernel, rfl⟩
  default e he := absurd he (Option.not_mem_none e)

/-- So does a type of two words of the language, of which the last claims nothing. -/
theorem takesName_defaultedSize : defaultedSize.TakesName where
  plain := by decide
  balanced := by decide +kernel
  named := by
    have htokens : tokenize defaultedSize.type
        = [.word "unsigned".toList, .word "long".toList] := by decide +kernel
    refine .inr ⟨⟨[], _, _, htokens, by decide, rfl, rfl⟩, ?_⟩
    rw [htokens]
    decide
  default := by
    intro e he hgap
    obtain rfl := Option.some.inj he
    simpa [isBlank] using hgap 'f' (by decide)

/-- A list of these two with their names. -/
theorem names_play_no_part_mapReference :
    let ws := [(mapReference, "m".toList), (defaultedSize, "n".toList)]
    let ws' := [(mapReference, "values_2".toList), (defaultedSize, "operator".toList)]
    AreNamed ws ∧ AreNamed ws' ∧ ws.map Prod.fst = ws'.map Prod.fst ∧ IsListed (texts ws)
      ∧ ", ".toList.intercalate (texts ws')
        = "const std::map<int, A> & values_2, unsigned long operator =  f(a, b)\t+ 1".toList
      ∧ parse (mapReference.text "m".toList) = some ⟨⟨"std::map<int, A> const &".toList⟩, none⟩
      ∧ parse (defaultedSize.text "n".toList)
        = some ⟨⟨"unsigned long".toList⟩, some "f(a, b) + 1".toList⟩
      ∧ Pattern.readSignature (", ".toList.intercalate (texts ws)) "const".toList
        = Pattern.readSignature (", ".toList.intercalate (texts ws')) "const".toList := by
  intro ws ws'
  have hnamed : ∀ n m : Text, IsName n → IsName m →
      AreNamed [(mapReference, n), (defaultedSize, m)] := by
    intro n m hn hm
    simp [AreNamed, takesName_mapReference, takesName_defaultedSize, hn, hm]
  have h : AreNamed ws := hnamed _ _ ⟨rfl, by decide⟩ ⟨rfl, by decide⟩
  have h' : AreNamed ws' := hnamed _ _ ⟨rfl, by decide⟩ ⟨rfl, by decide⟩
  have hlisted : IsListed (texts ws) := ⟨by decide +kernel, by decide +kernel⟩
  exact ⟨h, h', rfl, hlisted, by decide +kernel, by decide +kernel, by decide +kernel,
    (names_play_no_part h h' rfl).2.2 hlisted _⟩

end Overlay.Parameter
