import GnuRadio.Grc.ExprUtils

/-!
# Rewriting the variables of an expression

`expr_replace` reads the tokens of an expression as they are when no string literal has its own
quote in it. It then replaces the variables, and besides whatever looks like a name: attributes, the
names of keyword arguments, the prefixes of string literals and the exponents of numbers without
digits behind the point.
-/

namespace GnuRadio

open ExprToken

theorem keywords_isVarChar : ∀ s ∈ keywords, ∀ c ∈ s, isVarChar c := by
  have checked : keywords.all (·.all isVarChar) = true := by decide +kernel
  intro s member
  exact List.all_eq_true.mp (List.all_eq_true.mp checked s member)

variable {c quote : Char} {body : List BodyChar} {s : ExprSplit} {word : Text} {glued : Bool}
  {m : ReplaceDict} {tokens : List ExprToken}

theorem variableName_letter (letter : c.isAlpha) : VariableName [c] := by
  have longer : keywords.all (2 ≤ ·.length) = true := by decide +kernel
  refine ⟨?_, fun member => ?_⟩
  · rw [isIdentifier, letter]
    rfl
  · have short := of_decide_eq_true (List.all_eq_true.mp longer _ member)
    exact absurd short (by decide : ¬ 2 ≤ 1)

theorem isIdentifier_isVarChar {s : Text} (identifier : isIdentifier s) : ∀ c ∈ s, isVarChar c := by
  cases s with
  | nil => cases identifier
  | cons char chars =>
    rw [isIdentifier, Bool.and_eq_true, List.all_eq_true] at identifier
    intro c member
    rcases List.mem_cons.mp member with rfl | member
    · have first := identifier.1
      rw [Bool.or_eq_true] at first
      rw [isVarChar, Bool.or_eq_true]
      refine first.imp_left fun letter => ?_
      rw [Char.isAlphanum, letter, Bool.true_or]
    · exact identifier.2 c member

/-- What begins with neither a letter nor an underscore. -/
def Nameless (s : Text) : Prop := ∀ c ∈ s.head?, ¬(c.isAlpha || c == '_')

theorem Nameless.append {s : Text} (nameless : Nameless s) (some : s ≠ []) (t : Text) :
    Nameless (s ++ t) := by
  obtain ⟨c, s, rfl⟩ := List.exists_cons_of_ne_nil some
  exact nameless

theorem nameless_nil : Nameless [] := by
  intro c member
  cases member

theorem nameless_of_not_isVarChar (other : ¬isVarChar c) (s : Text) : Nameless (c :: s) := by
  intro d member word
  obtain rfl := Option.some.inj member
  refine other ?_
  rw [Bool.or_eq_true] at word
  rw [isVarChar, Bool.or_eq_true]
  refine word.imp_left fun letter => ?_
  rw [Char.isAlphanum, letter, Bool.true_or]

theorem nameless_of_isDigit (digit : c.isDigit) (s : Text) : Nameless (c :: s) := by
  intro d member word
  obtain rfl := Option.some.inj member
  delta Char.isDigit at digit
  delta Char.isAlpha Char.isUpper Char.isLower at word
  simp only [Bool.or_eq_true, Bool.and_eq_true, decide_eq_true_eq, beq_iff_eq, ge_iff_le,
    UInt32.le_iff_toNat_le] at digit word
  rcases word with (capital | small) | rfl
  · have bound := digit.2.trans_lt (by decide : (57 : UInt32).toNat < 'A'.val.toNat)
    omega
  · have bound := digit.2.trans_lt (by decide : (57 : UInt32).toNat < 'a'.val.toNat)
    omega
  · revert digit
    decide

theorem isQuote_not_isVarChar (quote : isQuote c) : ¬isVarChar c := by
  rw [isQuote, Bool.or_eq_true, beq_iff_eq, beq_iff_eq] at quote
  rcases quote with rfl | rfl <;> decide

namespace ReplaceDict

variable (m : ReplaceDict)

theorem replaceTok_nameless {s : Text} (nameless : Nameless s) : replaceTok m.dict s = s := by
  have absent : s ∉ m.dict := by
    intro there
    have identifier := (m.names s there).1
    cases s with
    | nil => cases identifier
    | cons c s =>
      rw [isIdentifier, Bool.and_eq_true] at identifier
      exact nameless c rfl identifier.1
  rw [replaceTok, AList.lookup_eq_none.mpr absent, Option.getD_none]

theorem replaceTok_keyword {s : Text} (keyword : s ∈ keywords) : replaceTok m.dict s = s := by
  have absent : s ∉ m.dict := fun there => (m.names s there).2 keyword
  rw [replaceTok, AList.lookup_eq_none.mpr absent, Option.getD_none]

end ReplaceDict

/-! ## What the loop makes of the tokens -/

namespace ExprSplit

variable {s : ExprSplit}

theorem foldl_word {word : Text} (chars : ∀ c ∈ word, isVarChar c) (closed : s.quote = none) :
    word.foldl step s = ⟨s.toks, s.tok ++ word, none⟩ := by
  induction word generalizing s with
  | nil =>
    obtain ⟨toks, tok, quote⟩ := s
    obtain rfl := closed
    rw [List.foldl_nil, List.append_nil]
  | cons c word ih =>
    have first : s.step c = ⟨s.toks, s.tok ++ [c], none⟩ := by
      rw [step, if_pos (Or.inr (chars c List.mem_cons_self)), closed, if_neg (by simp)]
    rw [List.foldl_cons, first, ih (fun d member => chars d (List.mem_cons_of_mem c member)) rfl,
      List.append_assoc]
    rfl

variable {quote : Char} {body : Text}

theorem foldl_quoted (others : ∀ c ∈ body, c ≠ quote) (opened : s.quote = some quote) :
    body.foldl step s = ⟨s.toks, s.tok ++ body, some quote⟩ := by
  induction body generalizing s with
  | nil =>
    obtain ⟨toks, tok, quote'⟩ := s
    obtain rfl := opened
    rw [List.foldl_nil, List.append_nil]
  | cons c body ih =>
    have other : some quote ≠ some c := fun same =>
      others c List.mem_cons_self (Option.some.inj same).symm
    have first : s.step c = ⟨s.toks, s.tok ++ [c], some quote⟩ := by
      rw [step, if_pos (Or.inl (by rw [opened]; simp)), opened, if_neg other]
    rw [List.foldl_cons, first, ih (fun d member => others d (List.mem_cons_of_mem c member)) rfl,
      List.append_assoc]
    rfl

theorem step_other {c : Char} (other : ¬isVarChar c) (noQuote : ¬isQuote c)
    (closed : s.quote = none) : s.step c = ⟨s.toks ++ [s.tok, [c]], [], none⟩ := by
  rw [step, if_neg (not_or.mpr ⟨not_not.mpr closed, other⟩), if_neg noQuote]

theorem foldl_literal (isQuote : isQuote quote) (others : ∀ c ∈ body, c ≠ quote)
    (closed : s.quote = none) :
    (quote :: (body ++ [quote])).foldl step s =
      ⟨s.toks ++ [s.tok], quote :: (body ++ [quote]), none⟩ := by
  have first : s.step quote = ⟨s.toks ++ [s.tok], [quote], some quote⟩ := by
    rw [step, if_neg (not_or.mpr ⟨not_not.mpr closed, isQuote_not_isVarChar isQuote⟩),
      if_pos isQuote]
  rw [List.foldl_cons, first, List.foldl_append, foldl_quoted others rfl, List.foldl_cons, step,
    if_pos (Or.inl (by simp)), if_pos rfl]
  rfl

/-- What comes out for the pieces so far. -/
def emitted (m : ReplaceDict) (s : ExprSplit) : Text :=
  (s.toks.map (replaceTok m.dict)).flatten ++ replaceTok m.dict s.tok

theorem exprReplace_eq (m : ReplaceDict) (expr : Text) :
    exprReplace expr m.dict = (expr.foldl step ⟨[], [], none⟩).emitted m := by
  have general : ∀ l : List Text,
      ((l.filter (· ≠ [])).map (replaceTok m.dict)).flatten =
        (l.map (replaceTok m.dict)).flatten := by
    intro l
    induction l with
    | nil => rfl
    | cons tok l ih =>
      by_cases empty : tok = []
      · subst empty
        rw [List.filter_cons_of_neg (by simp), ih, List.map_cons, List.flatten_cons,
          m.replaceTok_nameless nameless_nil, List.nil_append]
      · rw [List.filter_cons_of_pos (by simpa using empty), List.map_cons, List.map_cons,
          List.flatten_cons, List.flatten_cons, ih]
  rw [exprReplace, exprSplit, general, emitted]
  simp

end ExprSplit

/-- What comes out for a number. -/
def NumberLit.rewritten (m : ReplaceDict) (n : NumberLit) : Text :=
  if n.fraction = some [] then
    n.whole ++ '.' :: (replaceTok m.dict n.suffix ++ n.signedText)
  else n.text

/-- What comes out for a token, with whether a string literal stands directly before it. -/
def ExprToken.rewritten (m : ReplaceDict) (glued : Bool) : ExprToken → Text
  | name s | attr s | keywordArg s => replaceTok m.dict s
  | number n => n.rewritten m
  | string pre quote body =>
      (if glued then pre else replaceTok m.dict pre) ++ (string [] quote body).text
  | t => t.text

/-- What comes out for the tokens. -/
def rewritten (m : ReplaceDict) : Bool → List ExprToken → Text
  | _, [] => []
  | glued, t :: ts => t.rewritten m glued ++ rewritten m t.isString ts

/-- The piece under way, when a token may come next. -/
def Ready (glued : Bool) (tok : Text) : ExprToken → Prop
  | .other _ => True
  | .string pre .. => pre = [] ∨ if glued then tok ≠ [] ∧ Nameless tok else tok = []
  | .keyword _ => if glued then tok ≠ [] ∧ Nameless tok else tok = []
  | _ => tok = []

theorem ready_nil (t : ExprToken) : Ready false [] t := by
  cases t <;> simp [Ready]

theorem stringPrefixes_isVarChar : ∀ s ∈ stringPrefixes, ∀ c ∈ s, isVarChar c := by
  have checked : stringPrefixes.all (·.all isVarChar) = true := by decide +kernel
  intro s member
  exact List.all_eq_true.mp (List.all_eq_true.mp checked s member)

namespace NumberLit

variable {n : NumberLit}

theorem isDigit_isVarChar {c : Char} (digit : c.isDigit) : isVarChar c := by
  rw [isVarChar, Char.isAlphanum, digit, Bool.or_true, Bool.true_or]

theorem nameless_of_digits {digits : Text} (each : ∀ c ∈ digits, c.isDigit) : Nameless digits := by
  cases digits with
  | nil => exact nameless_nil
  | cons c digits => exact nameless_of_isDigit (each c List.mem_cons_self) digits

theorem foldl_signedText (valid : n.Valid) (m : ReplaceDict) {s : ExprSplit}
    (closed : s.quote = none) :
    (n.signedText.foldl ExprSplit.step s).quote = none ∧
      (n.signedText.foldl ExprSplit.step s).emitted m = s.emitted m ++ n.signedText := by
  rw [signedText]
  cases known : n.signed with
  | none => exact ⟨closed, (List.append_nil _).symm⟩
  | some exponent =>
    obtain ⟨sign, rest⟩ := exponent
    obtain ⟨signs, -, ⟨c, first, digit⟩, chars⟩ := valid.signed sign rest known
    have other : ¬isVarChar sign ∧ ¬isQuote sign := by
      rcases signs with rfl | rfl <;> decide
    have nameless : Nameless rest := by
      obtain ⟨tail, rfl⟩ := List.head?_eq_some_iff.mp first
      exact nameless_of_isDigit digit tail
    dsimp only
    rw [List.foldl_cons, ExprSplit.step_other other.1 other.2 closed,
      ExprSplit.foldl_word chars rfl]
    refine ⟨rfl, ?_⟩
    simp [ExprSplit.emitted, m.replaceTok_nameless nameless,
      m.replaceTok_nameless (nameless_of_not_isVarChar other.1 [])]

theorem foldl_text (valid : n.Valid) (m : ReplaceDict) {s : ExprSplit} (closed : s.quote = none)
    (ready : s.tok = []) :
    (n.text.foldl ExprSplit.step s).quote = none ∧
      (n.text.foldl ExprSplit.step s).emitted m = s.emitted m ++ n.rewritten m := by
  have whole := fun c member => isDigit_isVarChar (valid.whole c member)
  have point : ¬isVarChar '.' ∧ ¬isQuote '.' := by decide
  cases known : n.fraction with
  | none =>
    have some : n.whole ≠ [] := by
      intro none
      obtain ⟨digits, behind, -⟩ := valid.digits none
      rw [known] at behind
      cases behind
    obtain ⟨closed', emitted⟩ := foldl_signedText valid m
      (s := ⟨s.toks, n.whole ++ n.suffix, none⟩) rfl
    have nameless := (nameless_of_digits valid.whole).append some n.suffix
    rw [rewritten, known, if_neg (by simp), text, known, List.append_nil, List.foldl_append,
      List.foldl_append, ExprSplit.foldl_word whole closed, ExprSplit.foldl_word valid.suffix rfl,
      ready, List.nil_append]
    refine ⟨closed', emitted.trans ?_⟩
    simp [ExprSplit.emitted, m.replaceTok_nameless nameless, ready,
      m.replaceTok_nameless nameless_nil]
  | some digits =>
    have behind := valid.fraction digits known
    have chars := fun c member => isDigit_isVarChar (behind c member)
    obtain ⟨closed', emitted⟩ := foldl_signedText valid m
      (s := ⟨s.toks ++ [n.whole, ['.']], digits ++ n.suffix, none⟩) rfl
    have same : n.text.foldl ExprSplit.step s =
        n.signedText.foldl ExprSplit.step
          ⟨s.toks ++ [n.whole, ['.']], digits ++ n.suffix, none⟩ := by
      rw [text, known, List.foldl_append, List.foldl_append, List.foldl_append,
        ExprSplit.foldl_word whole closed, List.foldl_cons,
        ExprSplit.step_other point.1 point.2 rfl, ExprSplit.foldl_word chars rfl,
        ExprSplit.foldl_word valid.suffix rfl, ready]
      rfl
    rw [same]
    refine ⟨closed', emitted.trans ?_⟩
    by_cases empty : digits = []
    · subst empty
      rw [rewritten, known, if_pos rfl]
      simp [ExprSplit.emitted, ready, m.replaceTok_nameless nameless_nil,
        m.replaceTok_nameless (nameless_of_digits valid.whole),
        m.replaceTok_nameless (nameless_of_not_isVarChar point.1 [])]
    · have nameless := (nameless_of_digits behind).append empty n.suffix
      rw [rewritten, known, if_neg (by simpa using empty), text, known]
      simp [ExprSplit.emitted, ready, m.replaceTok_nameless nameless_nil,
        m.replaceTok_nameless nameless, m.replaceTok_nameless (nameless_of_digits valid.whole),
        m.replaceTok_nameless (nameless_of_not_isVarChar point.1 [])]

end NumberLit

/-! ## Reading all tokens -/

/-- No string literal of the token has its own quote in it. -/
def ExprToken.NoEscapedQuote : ExprToken → Prop
  | string _ quote body => BodyChar.escaped quote ∉ body
  | _ => True

theorem body_ne_quote (isQuote : isQuote quote) (plain : ∀ c, BodyChar.plain c ∈ body → c ≠ quote)
    (escaped : BodyChar.escaped quote ∉ body) : ∀ c ∈ body.flatMap BodyChar.text, c ≠ quote := by
  rintro c member rfl
  obtain ⟨unit, inside, here⟩ := List.mem_flatMap.mp member
  cases unit with
  | plain d =>
    obtain rfl := List.mem_singleton.mp here
    exact plain c inside rfl
  | escaped d =>
    rcases List.mem_cons.mp here with rfl | last
    · revert isQuote
      decide
    · obtain rfl := List.mem_singleton.mp last
      exact escaped inside

theorem foldl_word_alone (m : ReplaceDict) (chars : ∀ c ∈ word, isVarChar c)
    (closed : s.quote = none) (ready : s.tok = []) :
    (word.foldl ExprSplit.step s).quote = none ∧
      (word.foldl ExprSplit.step s).emitted m = s.emitted m ++ replaceTok m.dict word := by
  rw [ExprSplit.foldl_word chars closed, ready]
  refine ⟨rfl, ?_⟩
  rw [ExprSplit.emitted, ExprSplit.emitted, ready, m.replaceTok_nameless nameless_nil,
    List.append_nil, List.nil_append]

theorem foldl_keyword (m : ReplaceDict) (keyword : word ∈ keywords) (closed : s.quote = none)
    (ready : Ready glued s.tok (.keyword word)) :
    (word.foldl ExprSplit.step s).quote = none ∧
      (word.foldl ExprSplit.step s).emitted m = s.emitted m ++ word := by
  have chars := keywords_isVarChar word keyword
  cases glued with
  | false =>
    obtain ⟨closed', emitted⟩ := foldl_word_alone m chars closed ready
    rw [m.replaceTok_keyword keyword] at emitted
    exact ⟨closed', emitted⟩
  | true =>
    rw [ExprSplit.foldl_word chars closed]
    refine ⟨rfl, ?_⟩
    simp only [ExprSplit.emitted]
    rw [m.replaceTok_nameless (ready.2.append ready.1 word), m.replaceTok_nameless ready.2,
      List.append_assoc]

theorem replaceTok_prefix (m : ReplaceDict) {tok pre : Text}
    (ready : Ready glued tok (.string pre quote body)) :
    replaceTok m.dict (tok ++ pre) =
      replaceTok m.dict tok ++ if glued then pre else replaceTok m.dict pre := by
  rcases ready with rfl | known
  · rw [List.append_nil, m.replaceTok_nameless nameless_nil, ite_self, List.append_nil]
  · cases glued with
    | false =>
      have empty : tok = [] := known
      rw [empty, List.nil_append, m.replaceTok_nameless nameless_nil]
      rfl
    | true =>
      have some : tok ≠ [] ∧ Nameless tok := known
      rw [m.replaceTok_nameless (some.2.append some.1 pre), m.replaceTok_nameless some.2,
        if_pos rfl]

theorem foldl_token {t : ExprToken} (valid : t.Valid) (unescaped : t.NoEscapedQuote)
    (closed : s.quote = none) (ready : Ready glued s.tok t) :
    (t.text.foldl ExprSplit.step s).quote = none ∧
      (t.text.foldl ExprSplit.step s).emitted m = s.emitted m ++ t.rewritten m glued ∧
      ∀ u, t.Adjoins u → Ready t.isString (t.text.foldl ExprSplit.step s).tok u := by
  cases t with
  | name w =>
    obtain ⟨closed', emitted⟩ :=
      foldl_word_alone m (isIdentifier_isVarChar valid.1) closed ready
    refine ⟨closed', emitted, fun u adjoins => ?_⟩
    cases u <;> trivial
  | attr w =>
    obtain ⟨closed', emitted⟩ :=
      foldl_word_alone m (isIdentifier_isVarChar valid.1) closed ready
    refine ⟨closed', emitted, fun u adjoins => ?_⟩
    cases u <;> trivial
  | keywordArg w =>
    obtain ⟨closed', emitted⟩ :=
      foldl_word_alone m (isIdentifier_isVarChar valid.1) closed ready
    refine ⟨closed', emitted, fun u adjoins => ?_⟩
    cases u <;> trivial
  | keyword w =>
    obtain ⟨closed', emitted⟩ := foldl_keyword m valid.1 closed ready
    refine ⟨closed', emitted, fun u adjoins => ?_⟩
    cases u <;> first | trivial | exact Or.inl adjoins
  | number n =>
    obtain ⟨closed', emitted⟩ := NumberLit.foldl_text valid m closed ready
    refine ⟨closed', emitted, fun u adjoins => ?_⟩
    cases u <;> first | trivial | exact Or.inl adjoins
  | string pre quote body =>
    obtain ⟨known, quotes, plain⟩ := valid
    have others := body_ne_quote quotes (fun c member => (plain c member).1) unescaped
    have literal : Nameless (quote :: (body.flatMap BodyChar.text ++ [quote])) :=
      nameless_of_not_isVarChar (isQuote_not_isVarChar quotes) _
    have read : (ExprToken.string pre quote body).text.foldl ExprSplit.step s =
        ⟨s.toks ++ [s.tok ++ pre], quote :: (body.flatMap BodyChar.text ++ [quote]), none⟩ := by
      rw [ExprToken.text, List.foldl_append,
        ExprSplit.foldl_word (stringPrefixes_isVarChar pre known) closed,
        ExprSplit.foldl_literal quotes others rfl]
    rw [read]
    refine ⟨rfl, ?_, fun u adjoins => ?_⟩
    · simp only [ExprSplit.emitted, ExprToken.rewritten, ExprToken.text, List.map_append,
        List.map_cons, List.map_nil, List.flatten_append, List.flatten_cons, List.flatten_nil,
        replaceTok_prefix m ready, m.replaceTok_nameless literal, List.append_nil,
        List.nil_append, List.append_assoc]
    · cases u with
      | string pre' quote' body' => exact Or.inr ⟨by simp, literal⟩
      | keyword w => exact ⟨by simp, literal⟩
      | other c => trivial
      | name w => exact adjoins.elim
      | attr w => exact adjoins.elim
      | keywordArg w => exact adjoins.elim
      | number n => exact adjoins.elim
  | other c =>
    have read : (ExprToken.other c).text.foldl ExprSplit.step s =
        ⟨s.toks ++ [s.tok, [c]], [], none⟩ := ExprSplit.step_other valid.1 valid.2 closed
    rw [read]
    refine ⟨rfl, ?_, fun u _ => ready_nil u⟩
    simp [ExprSplit.emitted, ExprToken.rewritten, ExprToken.text,
      m.replaceTok_nameless nameless_nil,
      m.replaceTok_nameless (nameless_of_not_isVarChar valid.1 [])]

theorem foldl_tokens (valid : ∀ t ∈ tokens, t.Valid) (unescaped : ∀ t ∈ tokens, t.NoEscapedQuote)
    (chain : tokens.IsChain ExprToken.Adjoins) (glued : Bool) (closed : s.quote = none)
    (ready : ∀ t ∈ tokens.head?, Ready glued s.tok t) :
    ((tokens.flatMap ExprToken.text).foldl ExprSplit.step s).emitted m =
      s.emitted m ++ rewritten m glued tokens := by
  induction tokens generalizing glued s with
  | nil => exact (List.append_nil _).symm
  | cons t tokens ih =>
    obtain ⟨closed', emitted, follows⟩ := foldl_token (m := m) (valid t List.mem_cons_self)
      (unescaped t List.mem_cons_self) closed (ready t rfl)
    rw [List.flatMap_cons, List.foldl_append,
      ih (fun u member => valid u (List.mem_cons_of_mem t member))
        (fun u member => unescaped u (List.mem_cons_of_mem t member)) chain.tail t.isString closed'
        (fun u first => follows u (chain.rel_head? first)), emitted, List.append_assoc]
    rfl

/-! ## What is replaced -/

namespace ReplaceDict

/-- Every name gets longer. -/
def lengthenedDict (m : ReplaceDict) : PyDict Text Text where
  entries := m.dict.entries.map fun entry => ⟨entry.1, entry.1 ++ ['_']⟩
  nodupKeys := by
    rw [List.NodupKeys, List.keys, List.map_map]
    exact m.dict.nodupKeys

theorem keys_lengthenedDict (m : ReplaceDict) : m.lengthenedDict.keys = m.dict.keys := by
  rw [AList.keys, List.keys, lengthenedDict, List.map_map]
  rfl

theorem mem_lengthenedDict (m : ReplaceDict) (s : Text) : s ∈ m.lengthenedDict ↔ s ∈ m.dict := by
  rw [AList.mem_keys, AList.mem_keys, keys_lengthenedDict]

def lengthened (m : ReplaceDict) : ReplaceDict where
  dict := m.lengthenedDict
  names := fun s there => m.names s ((m.mem_lengthenedDict s).mp there)

theorem mem_lengthened (m : ReplaceDict) (s : Text) : s ∈ m.lengthened.dict ↔ s ∈ m.dict :=
  m.mem_lengthenedDict s

theorem replaceTok_lengthened (m : ReplaceDict) (s : Text) :
    (replaceTok m.lengthened.dict s).length =
      s.length + ([s].filter (· ∈ m.lengthened.dict)).length := by
  by_cases there : s ∈ m.lengthened.dict
  · obtain ⟨value, known⟩ := Option.isSome_iff_exists.mp (AList.lookup_isSome.mpr there)
    obtain ⟨entry, -, same⟩ := List.mem_map.mp (AList.mem_lookup_iff.mp known)
    obtain ⟨rfl, values⟩ := Sigma.mk.inj same
    obtain rfl := eq_of_heq values
    rw [replaceTok, known, Option.getD_some, List.filter_cons_of_pos (by simpa using there)]
    simp
  · rw [replaceTok, AList.lookup_eq_none.mpr there, Option.getD_none,
      List.filter_cons_of_neg (by simpa using there)]
    simp

end ReplaceDict

theorem replaceTok_absent {dict : PyDict Text Text} {s : Text} (absent : s ∉ dict) :
    replaceTok dict s = s := by
  rw [replaceTok, AList.lookup_eq_none.mpr absent, Option.getD_none]

theorem rewritten_eq_substitute (absent : ∀ s ∈ otherNames glued tokens, s ∉ m.dict) :
    rewritten m glued tokens = tokens.flatMap (ExprToken.substitute m.dict) := by
  induction tokens generalizing glued with
  | nil => rfl
  | cons t tokens ih =>
    have here : t.rewritten m glued = t.substitute m.dict := by
      have absent' := fun s member => absent s (List.mem_append_left _ member)
      cases t with
      | attr s => exact replaceTok_absent (absent' s List.mem_cons_self)
      | keywordArg s => exact replaceTok_absent (absent' s List.mem_cons_self)
      | number n =>
        by_cases bare : n.fraction = some []
        · have known := replaceTok_absent (absent' n.suffix (by
            rw [ExprToken.otherNames, NumberLit.otherNames, if_pos bare]
            exact List.mem_cons_self))
          change n.rewritten m = n.text
          rw [NumberLit.rewritten, if_pos bare, known, NumberLit.text, bare]
          simp
        · rw [ExprToken.rewritten, NumberLit.rewritten, if_neg bare]
          rfl
      | string pre quote body =>
        cases glued with
        | false =>
          have known := replaceTok_absent (absent' pre List.mem_cons_self)
          rw [ExprToken.rewritten, if_neg Bool.false_ne_true, known]
          rfl
        | true => rfl
      | name s => rfl
      | keyword s => rfl
      | other c => rfl
    rw [rewritten, here, ih fun s member => absent s (List.mem_append_right _ member)]
    rfl

theorem length_rewritten (m : ReplaceDict) (tokens : List ExprToken) (glued : Bool) :
    (rewritten m.lengthened glued tokens).length =
      (tokens.flatMap (ExprToken.substitute m.lengthened.dict)).length +
        ((otherNames glued tokens).filter (· ∈ m.lengthened.dict)).length := by
  induction tokens generalizing glued with
  | nil => rfl
  | cons t tokens ih =>
    have here : (t.rewritten m.lengthened glued).length =
        (t.substitute m.lengthened.dict).length +
          ((t.otherNames glued).filter (· ∈ m.lengthened.dict)).length := by
      cases t with
      | attr s => exact m.replaceTok_lengthened s
      | keywordArg s => exact m.replaceTok_lengthened s
      | number n =>
        by_cases bare : n.fraction = some []
        · have longer := m.replaceTok_lengthened n.suffix
          change (n.rewritten m.lengthened).length =
            n.text.length + (n.otherNames.filter (· ∈ m.lengthened.dict)).length
          rw [NumberLit.rewritten, if_pos bare, NumberLit.otherNames, if_pos bare, NumberLit.text,
            bare]
          simp only [List.length_append, List.length_cons, List.length_nil, longer]
          omega
        · change (n.rewritten m.lengthened).length =
            n.text.length + (n.otherNames.filter (· ∈ m.lengthened.dict)).length
          rw [NumberLit.rewritten, if_neg bare, NumberLit.otherNames, if_neg bare]
          rfl
      | string pre quote body =>
        cases glued with
        | false =>
          have longer := m.replaceTok_lengthened pre
          simp only [ExprToken.rewritten, ExprToken.substitute, ExprToken.text,
            ExprToken.otherNames, Bool.false_eq_true, if_false, List.length_append,
            List.length_cons, List.length_nil, longer]
          omega
        | true => rfl
      | name s => rfl
      | keyword s => rfl
      | other c => rfl
    rw [rewritten, otherNames, List.flatMap_cons, List.filter_append, List.length_append,
      List.length_append, List.length_append, here, ih]
    omega

namespace Expression

theorem exprReplace_eq_rewritten {e : Expression} (unescaped : e.NoEscapedQuotes)
    (m : ReplaceDict) : exprReplace e.text m.dict = rewritten m false e.tokens := by
  have each : ∀ t ∈ e.tokens, t.NoEscapedQuote := by
    intro t member
    cases t with
    | string pre quote body => exact unescaped pre quote body member
    | name s => trivial
    | keyword s => trivial
    | attr s => trivial
    | keywordArg s => trivial
    | number n => trivial
    | other c => trivial
  rw [ExprSplit.exprReplace_eq, text, foldl_tokens e.valid each e.chain false rfl
    (fun t _ => ready_nil t), ExprSplit.emitted, m.replaceTok_nameless nameless_nil]
  rfl

end Expression

/-- The pieces join to the expression. When no string literal has its own quote in it, the variables
are replaced and nothing else, if and only if nothing else that looks like a name is named like one
of them. -/
theorem exprReplace_iff (expr : List Char) (e : Expression) (m : ReplaceDict) :
    (exprSplit expr).flatten = expr ∧
      (e.NoEscapedQuotes →
        ((∀ m' : ReplaceDict, (∀ s, s ∈ m'.dict ↔ s ∈ m.dict) →
            exprReplace e.text m'.dict = e.substitute m'.dict) ↔
          ∀ s ∈ otherNames false e.tokens, s ∉ m.dict)) := by
  refine ⟨flatten_exprSplit expr, fun unescaped => ⟨fun faithful s member there => ?_,
    fun absent m' same => ?_⟩⟩
  · have length := congrArg List.length (faithful m.lengthened m.mem_lengthened)
    rw [Expression.exprReplace_eq_rewritten unescaped, length_rewritten] at length
    have none : (otherNames false e.tokens).filter (· ∈ m.lengthened.dict) = [] := by
      refine List.eq_nil_of_length_eq_zero ?_
      change _ = (e.tokens.flatMap (ExprToken.substitute m.lengthened.dict)).length at length
      omega
    have named := (m.mem_lengthened s).mpr there
    have inside : s ∈ (otherNames false e.tokens).filter (· ∈ m.lengthened.dict) :=
      List.mem_filter.mpr ⟨member, decide_eq_true named⟩
    rw [none] at inside
    cases inside
  · rw [Expression.exprReplace_eq_rewritten unescaped]
    exact rewritten_eq_substitute fun s member there => absent s member ((same s).mp there)

/-- `a.x+'\''+x`, with an attribute and an escaped quote. -/
def attributeAndQuote : Expression where
  tokens := [.name ['a'], .other '.', .attr ['x'], .other '+', .string [] '\'' [.escaped '\''],
    .other '+', .name ['x']]
  valid := by
    intro t member
    simp only [List.mem_cons, List.not_mem_nil, or_false] at member
    rcases member with rfl | rfl | rfl | rfl | rfl | rfl | rfl
    · exact variableName_letter rfl
    · constructor <;> decide
    · exact variableName_letter rfl
    · constructor <;> decide
    · refine ⟨List.mem_cons_self, by decide, fun c member => ?_⟩
      rcases List.mem_singleton.mp member
    · constructor <;> decide
    · exact variableName_letter rfl
  chain := by simp [ExprToken.Adjoins]
  dotted := by simp [ExprToken.Dotted]
  keyworded := by simp [ExprToken.Keyworded, ExprToken.Assigns, ExprToken.isBlank]

/-- `x` becomes `self.x`. -/
def prependSelf : ReplaceDict where
  dict := AList.singleton ['x'] ['s', 'e', 'l', 'f', '.', 'x']
  names := by
    intro s there
    obtain rfl : s = ['x'] := List.mem_singleton.mp there
    exact variableName_letter rfl

/-- The attribute is replaced, and the variable behind the literal is not. -/
theorem exprReplace_attributeAndQuote :
    exprReplace attributeAndQuote.text prependSelf.dict ≠
        attributeAndQuote.substitute prependSelf.dict ∧
      exprReplace attributeAndQuote.text prependSelf.dict = "a.self.x+'\\''+x".toList ∧
      attributeAndQuote.substitute prependSelf.dict = "a.x+'\\''+self.x".toList := by
  decide +kernel

end GnuRadio
