import Mathlib.Data.Finset.Dedup
import Mathlib.Data.List.Chain
import GnuRadio.Grc.Python

/-!
# Expressions of the flow graph editor

`expr_split` takes an expression apart where it has a character that cannot be in a name, and leaves
quoted text in one piece. Rewriting and the search for dependencies work on the pieces.
-/

namespace GnuRadio

/-- `VAR_CHARS` (`expr_utils.py:21`). -/
def isVarChar (char : Char) : Bool := char.isAlphanum || char == '_'

/-- The two quotes (`expr_utils.py:68`). -/
def isQuote (char : Char) : Bool := char == '\'' || char == '"'

/-- The variables of `expr_split`. -/
structure ExprSplit where
  toks : List Text
  tok : Text
  quote : Option Char
  deriving DecidableEq, Repr

/-- A round of the loop (`expr_utils.py:64-74`). -/
def ExprSplit.step (s : ExprSplit) (char : Char) : ExprSplit :=
  if s.quote ≠ none ∨ isVarChar char then
    { s with
      quote := if s.quote = some char then none else s.quote
      tok := s.tok ++ [char] }
  else if isQuote char then
    { toks := s.toks ++ [s.tok]
      tok := [char]
      quote := some char }
  else
    { toks := s.toks ++ [s.tok, [char]]
      tok := []
      quote := none }

/-- `expr_split` (`expr_utils.py:52-76`). -/
def exprSplit (expr : Text) : List Text :=
  let s := expr.foldl ExprSplit.step ⟨[], [], none⟩
  (s.toks ++ [s.tok]).filter (· ≠ [])

/-- What comes out for one piece. -/
def replaceTok (replaceDict : PyDict Text Text) (es : Text) : Text :=
  (replaceDict.lookup es).getD es

/-- `expr_replace` (`expr_utils.py:78-89`). -/
def exprReplace (expr : Text) (replaceDict : PyDict Text Text) : Text :=
  ((exprSplit expr).map (replaceTok replaceDict)).flatten

/-- `get_variable_dependencies` (`expr_utils.py:91-99`). -/
def getVariableDependencies (expr : Text) (vars : List Text) : Finset Text :=
  (vars.filter (· ∈ exprSplit expr)).toFinset

theorem mem_getVariableDependencies {expr : Text} {vars : List Text} {v : Text} :
    v ∈ getVariableDependencies expr vars ↔ v ∈ vars ∧ v ∈ exprSplit expr := by
  rw [getVariableDependencies, List.mem_toFinset, List.mem_filter, decide_eq_true_iff]

/-- No character of the text is lost or moved. -/
theorem flatten_exprSplit (expr : Text) : (exprSplit expr).flatten = expr := by
  have general : ∀ (l : Text) (s : ExprSplit),
      (l.foldl ExprSplit.step s).toks.flatten ++ (l.foldl ExprSplit.step s).tok =
        s.toks.flatten ++ s.tok ++ l := by
    intro l
    induction l with
    | nil => exact fun s => (List.append_nil _).symm
    | cons char l ih =>
      intro s
      rw [List.foldl_cons, ih, ExprSplit.step]
      split
      · simp
      · split <;> simp
  have whole := general expr ⟨[], [], none⟩
  rw [exprSplit]
  rw [List.flatten_filter_ne_nil, List.flatten_append, List.flatten_singleton, whole]
  rfl

/-!
## The tokens of Python expressions

What an expression consists of for Python: names, attributes behind a dot, names of keyword
arguments, numbers, string literals with their prefixes, operators, brackets and blanks. Rewriting
the variables of an expression means to replace the names and to leave everything else. There are no
lambdas and comprehensions, which have variables of their own, and no literals in three quotes.
-/

/-- A letter, a digit or an underscore comes first in a name only if it is no digit. -/
def isIdentifier : Text → Bool
  | [] => false
  | char :: chars => (char.isAlpha || char == '_') && chars.all isVarChar

/-- The keywords that are words of their own. -/
def keywords : List Text :=
  ["and", "as", "assert", "break", "class", "continue", "def", "del", "elif", "else", "except",
    "exec", "finally", "for", "from", "global", "if", "import", "in", "is", "lambda", "not", "or",
    "pass", "print", "raise", "return", "try", "while", "with", "yield"].map String.toList

/-- The keywords that bind variables. -/
def binders : List Text := ["for", "lambda"].map String.toList

/-- The name of a variable. -/
def VariableName (s : Text) : Prop := isIdentifier s ∧ s ∉ keywords

/-- A number: digits, digits behind a point, what follows without a blank (an exponent, a base, the
suffix of a long or an imaginary number, or a keyword), and what follows the sign of an exponent. -/
structure NumberLit where
  whole : Text
  fraction : Option Text
  suffix : Text
  signed : Option (Char × Text)
  deriving DecidableEq, Repr

/-- What stands between the quotes of a string literal. -/
inductive BodyChar where
  | plain (c : Char)
  | escaped (c : Char)
  deriving DecidableEq, Repr

/-- The tokens. A keyword argument is named before a single `=`. -/
inductive ExprToken where
  | name (s : Text)
  | keyword (s : Text)
  | attr (s : Text)
  /-- The name of a keyword argument. -/
  | keywordArg (s : Text)
  | number (n : NumberLit)
  | string (pre : Text) (quote : Char) (body : List BodyChar)
  /-- A character of an operator, a bracket, a dot or a blank. -/
  | other (c : Char)
  deriving DecidableEq, Repr

namespace NumberLit

/-- The sign of the exponent and what follows it. -/
def signedText (n : NumberLit) : Text :=
  match n.signed with
  | none => []
  | some (sign, rest) => sign :: rest

/-- The number as it is written. -/
def text (n : NumberLit) : Text :=
  n.whole ++ (match n.fraction with
    | none => []
    | some digits => '.' :: digits) ++ n.suffix ++ n.signedText

/-- What is written is a number. -/
structure Valid (n : NumberLit) : Prop where
  whole : ∀ c ∈ n.whole, c.isDigit
  fraction : ∀ digits, n.fraction = some digits → ∀ c ∈ digits, c.isDigit
  digits : n.whole = [] → ∃ behind, n.fraction = some behind ∧ behind ≠ []
  suffix : ∀ c ∈ n.suffix, isVarChar c
  /-- A float has an exponent, or is imaginary. -/
  float : n.fraction ≠ none → n.suffix = [] ∨ n.suffix ∈ keywords ∨
    ∃ c ∈ ['e', 'E', 'j', 'J'], n.suffix.head? = some c
  signed : ∀ sign rest, n.signed = some (sign, rest) → (sign = '+' ∨ sign = '-') ∧
    (∃ c ∈ ['e', 'E'], n.suffix.getLast? = some c) ∧ (∃ c ∈ rest.head?, c.isDigit) ∧
    ∀ c ∈ rest, isVarChar c
  /-- No comprehension begins directly behind it. -/
  single : ¬"for".toList <:+ n.suffix ++ n.signedText

end NumberLit

namespace BodyChar

/-- The characters as they are written. -/
def text : BodyChar → Text
  | plain c => [c]
  | escaped c => ['\\', c]

end BodyChar

namespace ExprToken

/-- The token as it is written. -/
def text : ExprToken → Text
  | name s | keyword s | attr s | keywordArg s => s
  | number n => n.text
  | string pre quote body => pre ++ quote :: (body.flatMap BodyChar.text ++ [quote])
  | other c => [c]

/-- Whether it is a string literal. -/
def isString : ExprToken → Bool
  | string .. => true
  | _ => false

/-- A token with the variables replaced. -/
def substitute (replaceDict : PyDict Text Text) : ExprToken → Text
  | name s => (replaceDict.lookup s).getD s
  | t => t.text

/-- The prefixes of string literals. -/
def stringPrefixes : List Text :=
  ["", "r", "R", "u", "U", "b", "B", "ur", "uR", "Ur", "UR", "br", "bR", "Br", "BR"].map
    String.toList

/-- What a token of its kind may be. -/
def Valid : ExprToken → Prop
  | name s | attr s | keywordArg s => VariableName s
  | keyword s => s ∈ keywords ∧ s ∉ binders
  | number n => n.Valid
  | string pre quote body => pre ∈ stringPrefixes ∧ isQuote quote ∧
      ∀ c, BodyChar.plain c ∈ body → c ≠ quote ∧ c ≠ '\\' ∧ c ≠ '\n'
  | other c => ¬isVarChar c ∧ ¬isQuote c

/-- What may follow without anything between: two words may not, a word right before a quote would be
a prefix, and a quote behind two would begin a literal in three quotes. -/
def Adjoins : ExprToken → ExprToken → Prop
  | other _, _ | _, other _ | string .., keyword _ => True
  | string _ quote body, string pre quote' _ => body = [] → pre = [] → quote' ≠ quote
  | keyword _, string pre .. | number _, string pre .. => pre = []
  | _, _ => False

/-- Names behind a dot are attributes, and no others are. -/
def Dotted : Bool → List ExprToken → Prop
  | _, [] => True
  | dot, other c :: ts => Dotted (c == '.' || (dot && c.isWhitespace)) ts
  | dot, attr _ :: ts => dot = true ∧ Dotted false ts
  | dot, _ :: ts => dot = false ∧ Dotted false ts

def isBlank : ExprToken → Bool
  | other c => c.isWhitespace
  | _ => false

/-- Whether a single `=` comes next, behind blanks. -/
def Assigns (ts : List ExprToken) : Prop :=
  match ts.dropWhile isBlank with
  | other '=' :: other '=' :: _ => False
  | other '=' :: _ => True
  | _ => False

/-- Names before a single `=` are those of keyword arguments, and no others are. -/
def Keyworded : List ExprToken → Prop
  | [] => True
  | name _ :: ts => ¬Assigns ts ∧ Keyworded ts
  | keywordArg _ :: ts => Assigns ts ∧ Keyworded ts
  | _ :: ts => Keyworded ts

end ExprToken

open ExprToken

/-- An expression, as far as its tokens go. -/
structure Expression where
  tokens : List ExprToken
  valid : ∀ t ∈ tokens, t.Valid
  chain : tokens.IsChain Adjoins
  dotted : Dotted false tokens
  keyworded : Keyworded tokens

/-- Replacements for variables. -/
structure ReplaceDict where
  dict : PyDict Text Text
  names : ∀ s ∈ dict, VariableName s

namespace Expression

/-- The expression as it is written. -/
def text (e : Expression) : Text := e.tokens.flatMap ExprToken.text

/-- The expression with the variables replaced. -/
def substitute (e : Expression) (replaceDict : PyDict Text Text) : Text :=
  e.tokens.flatMap (ExprToken.substitute replaceDict)

/-- No string literal has its own quote in it, which would have to be escaped. -/
def NoEscapedQuotes (e : Expression) : Prop :=
  ∀ pre quote body, ExprToken.string pre quote body ∈ e.tokens → BodyChar.escaped quote ∉ body

end Expression

/-- What looks like a name in a number: behind a point without digits, an exponent or `j`. -/
def NumberLit.otherNames (n : NumberLit) : List Text :=
  if n.fraction = some [] then [n.suffix] else []

/-- What looks like a name in a token and is none. A prefix does not when a string literal stands
directly before it. -/
def ExprToken.otherNames (glued : Bool) : ExprToken → List Text
  | attr s | keywordArg s => [s]
  | number n => n.otherNames
  | string pre .. => if glued then [] else [pre]
  | _ => []

/-- What looks like a name and is none, with whether a string literal stands directly before. -/
def otherNames : Bool → List ExprToken → List Text
  | _, [] => []
  | glued, t :: ts => t.otherNames glued ++ otherNames t.isString ts

end GnuRadio
