import PixelUnit.Sheet.Fault
import PixelUnit.Sheet.Token
import PixelUnit.Text.Digits

/-!
# Lexemes

How far the token at the front of a text reaches. Every splitter returns what it takes and what is
left. `Lexeme.raw_append_rest` says that the two make up the text again, and `Lexeme.raw_ne_nil`
that a lexeme takes at least one character.
-/

namespace PixelUnit.Sheet

/-! ## Classes of characters -/

/-- The white space of a stylesheet. -/
def isSpacing (c : Char) : Bool :=
  c == ' ' || c == '\t' || c == '\n' || c == '\r' || c == '\x0c'

/-- Whether a character lies outside ASCII. -/
def isNonAscii (c : Char) : Bool :=
  0x80 ≤ c.toNat

/-- Whether a character can start an identifier. -/
def isIdentStart (c : Char) : Bool :=
  Text.isLetter c || isNonAscii c || c == '_'

/-- Whether a character can stand in an identifier. -/
def isIdent (c : Char) : Bool :=
  isIdentStart c || Text.isDigit c || c == '-'

/-- Whether a character is one of the two quotes. -/
def isQuote (c : Char) : Bool :=
  c == '"' || c == '\''

/-- The class of a character that is a token of its own. -/
def punctuation? : Char → Option Token.Kind
  | '\x7b' => some .openBrace
  | '\x7d' => some .closeBrace
  | '(' => some .openParen
  | ')' => some .closeParen
  | '[' => some .openSquare
  | ']' => some .closeSquare
  | ':' => some .colon
  | ';' => some .semicolon
  | _ => none

/-- Whether a word ends before what comes next: at the end of the text, at white space, at a quote
and at punctuation. -/
def isSeparator : Option Char → Bool
  | none => true
  | some c => (punctuation? c).isSome || isSpacing c || isQuote c

/-- Whether two characters are a backslash and a character it escapes. -/
def isEscape (first second : Option Char) : Bool :=
  first == some '\\' && second.any (· != '\n')

/-- Whether an identifier starts with the two characters that come next. -/
def startsIdent (first second : Option Char) : Bool :=
  if first.any isIdentStart then true
  else if first == some '-' then second.any isIdentStart || second == some '-'
  else isEscape first second

/-- Whether a comment starts with the two characters that come next. -/
def startsComment (first second : Option Char) : Bool :=
  first == some '/' && second == some '*'

/-! ## Splitters -/

/-- A comment from behind its opening, through the closing mark; nothing if that is missing. -/
def splitComment : List Char → Option (List Char × List Char)
  | [] => none
  | '*' :: '/' :: r => some (['*', '/'], r)
  | c :: r => (splitComment r).map fun (t, u) => (c :: t, u)

/-- A string from behind its opening quote, through the closing one. A line feed that is not
escaped and the end of the text break it off; a line feed is left where it is. -/
def splitString (quote : Char) : List Char → List Char × List Char × Option Fault.Cause
  | [] => ([], [], some .unclosedString)
  | '\n' :: r => ([], '\n' :: r, some .brokenString)
  | '\\' :: c :: r =>
    let (t, u, e) := splitString quote r
    ('\\' :: c :: t, u, e)
  | c :: r =>
    if c == quote then ([c], r, none)
    else
      let (t, u, e) := splitString quote r
      (c :: t, u, e)

/-- An unquoted address from behind its opening parenthesis, through the closing one. -/
def splitUrl : List Char → List Char × List Char × Option Fault.Cause
  | [] => ([], [], some .unclosedUrl)
  | '\\' :: c :: r =>
    let (t, u, e) := splitUrl r
    ('\\' :: c :: t, u, e)
  | c :: r =>
    if c == ')' then ([c], r, none)
    else
      let (t, u, e) := splitUrl r
      (c :: t, u, e)

/-- The part of a word that follows its first character: up to a separator or a comment, where a
backslash takes the character behind it along. -/
def splitWord : List Char → List Char × List Char
  | [] => ([], [])
  | '\\' :: c :: r =>
    let (t, u) := splitWord r
    ('\\' :: c :: t, u)
  | c :: r =>
    if isSeparator (some c) || startsComment (some c) r.head? then ([], c :: r)
    else
      let (t, u) := splitWord r
      (c :: t, u)

/-- An identifier, with its escapes. -/
def splitIdent : List Char → List Char × List Char
  | [] => ([], [])
  | '\\' :: c :: r =>
    if c == '\n' then ([], '\\' :: c :: r)
    else
      let (t, u) := splitIdent r
      ('\\' :: c :: t, u)
  | c :: r =>
    if isIdent c then
      let (t, u) := splitIdent r
      (c :: t, u)
    else ([], c :: r)

/-! ## The lexeme at the front -/

/-- A token without its place, the text behind it, and what is wrong with it. -/
structure Lexeme where
  kind : Token.Kind
  raw : List Char
  rest : List Char
  fault : Option Fault.Cause

/-- Whether a word is `url`, in letters of either case. -/
def isUrlName (cs : List Char) : Bool :=
  cs.map Char.toLower == ['u', 'r', 'l']

/-- Whether a text opens an unquoted address: a parenthesis with no quote behind it and the white
space that follows. -/
def opensUrl : List Char → Bool
  | '(' :: r => !(r.dropWhile isSpacing).head?.any isQuote
  | _ => false

/-- The word, or the unquoted address, that starts with `c`. -/
def Lexeme.word (c : Char) (cs : List Char) : Lexeme :=
  let (t, u) := splitWord cs
  if isUrlName (c :: t) && opensUrl u then
    let (v, w, e) := splitUrl (u.drop 1)
    ⟨.url, c :: t ++ u.take 1 ++ v, w, e⟩
  else ⟨.word, c :: t, u, none⟩

/-- The lexeme that starts with `c`; only a comment without an end has none. -/
def Lexeme.read (c : Char) (cs : List Char) : Except Fault.Cause Lexeme :=
  if startsComment (some c) cs.head? then
    match splitComment (cs.drop 1) with
    | some (t, u) => .ok ⟨.comment, c :: cs.take 1 ++ t, u, none⟩
    | none => .error .unclosedComment
  else if isSpacing c then
    .ok ⟨.spacing, c :: cs.takeWhile isSpacing, cs.dropWhile isSpacing, none⟩
  else if isQuote c then
    match splitString c cs with
    | (t, u, none) => .ok ⟨.string, c :: t, u, none⟩
    | (t, u, some e) => .ok ⟨.badString, c :: t, u, some e⟩
  else match punctuation? c with
    | some kind => .ok ⟨kind, [c], cs, none⟩
    | none =>
      if c == '@' && startsIdent cs.head? (cs.drop 1).head? then
        let (t, u) := splitIdent cs
        .ok ⟨.atKeyword, c :: t, u, none⟩
      else .ok (Lexeme.word c cs)

/-! ## Nothing is lost -/

theorem append_of_splitComment {cs t u : List Char} (h : splitComment cs = some (t, u)) :
    t ++ u = cs := by
  fun_induction splitComment cs generalizing t u with
  | case1 => simp at h
  | case2 r =>
    simp only [Option.some.injEq, Prod.mk.injEq] at h
    obtain ⟨rfl, rfl⟩ := h
    rfl
  | case3 c r _ ih =>
    obtain ⟨⟨t', u'⟩, hs, he⟩ := Option.map_eq_some_iff.1 h
    simp only [Prod.mk.injEq] at he
    obtain ⟨rfl, rfl⟩ := he
    simp [ih hs]

theorem splitString_append (quote : Char) (cs : List Char) :
    (splitString quote cs).1 ++ (splitString quote cs).2.1 = cs := by
  fun_induction splitString quote cs <;> simp_all

theorem splitUrl_append (cs : List Char) : (splitUrl cs).1 ++ (splitUrl cs).2.1 = cs := by
  fun_induction splitUrl cs <;> simp_all

theorem splitWord_append (cs : List Char) : (splitWord cs).1 ++ (splitWord cs).2 = cs := by
  fun_induction splitWord cs <;> simp_all

theorem splitIdent_append (cs : List Char) : (splitIdent cs).1 ++ (splitIdent cs).2 = cs := by
  fun_induction splitIdent cs <;> simp_all

theorem Lexeme.word_raw_append_rest (c : Char) (cs : List Char) :
    (Lexeme.word c cs).raw ++ (Lexeme.word c cs).rest = c :: cs := by
  have hw := splitWord_append cs
  have hu := splitUrl_append ((splitWord cs).2.drop 1)
  simp only [Lexeme.word]
  split
  · rw [← List.take_append_drop 1 (splitWord cs).2, ← hu] at hw
    simpa using hw
  · simpa using hw

/-- A lexeme and what is left behind it make up the text. -/
theorem Lexeme.raw_append_rest {c : Char} {cs : List Char} {l : Lexeme}
    (h : Lexeme.read c cs = .ok l) : l.raw ++ l.rest = c :: cs := by
  unfold Lexeme.read at h
  split at h
  · split at h
    · rename_i t u hs
      cases h
      simp only [List.cons_append, List.append_assoc, append_of_splitComment hs,
        List.take_append_drop]
    · cases h
  · split at h
    · cases h
      simp
    · split at h
      · have hs := splitString_append c cs
        split at h <;> rename_i t u hsplit <;> cases h <;> rw [hsplit] at hs <;> simpa using hs
      · split at h
        · cases h
          simp
        · split at h
          · cases h
            simp [splitIdent_append]
          · cases h
            exact Lexeme.word_raw_append_rest c cs

/-- A lexeme holds the character it starts with. -/
theorem Lexeme.raw_ne_nil {c : Char} {cs : List Char} {l : Lexeme}
    (h : Lexeme.read c cs = .ok l) : l.raw ≠ [] := by
  unfold Lexeme.read at h
  split at h
  · split at h <;> cases h
    simp
  · split at h
    · cases h
      simp
    · split at h
      · split at h <;> cases h <;> simp
      · split at h
        · cases h
          simp
        · split at h
          · cases h
            simp
          · cases h
            simp only [Lexeme.word]
            split <;> simp

/-- What is left behind a lexeme is shorter than the text. -/
theorem Lexeme.rest_length_lt {c : Char} {cs : List Char} {l : Lexeme}
    (h : Lexeme.read c cs = .ok l) : l.rest.length < cs.length + 1 := by
  have happ := congrArg List.length (Lexeme.raw_append_rest h)
  have hne := List.length_pos_iff.2 (Lexeme.raw_ne_nil h)
  simp at happ
  omega

end PixelUnit.Sheet
