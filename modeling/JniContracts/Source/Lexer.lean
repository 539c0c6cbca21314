import JniContracts.Source.Fault
import JniContracts.Source.Token
import JniContracts.Text.Alphanumeric

/-!
Cutting C text into tokens. Comments and directives are dropped. A dollar sign counts as a letter,
so that patterns are read by the same rules as source text.
-/

namespace JniContracts

namespace Lexer

abbrev Cut := List Char × List Char

def more (c : Char) : Cut → Cut
  | (lexeme, rest) => (c :: lexeme, rest)

def inFront (first : List Char) : Cut → Cut
  | (lexeme, rest) => (first ++ lexeme, rest)

def isGap (c : Char) : Bool := c == ' ' || c == '\t' || c == '\r' || c == '\x0c' || c == '\x0b'

def commentBody : List Char → Option Cut
  | [] => none
  | '*' :: '/' :: rest => some (['*', '/'], rest)
  | c :: rest => (commentBody rest).map (more c)

/-- Up to and with the closing quote; a backslash takes the next character with it. -/
def literalBody (quote : Char) : List Char → Option Cut
  | [] => none
  | '\\' :: c :: rest => (literalBody quote rest).map fun cut => more '\\' (more c cut)
  | c :: rest =>
    if c == quote then some ([c], rest)
    else if c == '\\' || c == '\n' then none
    else (literalBody quote rest).map (more c)

def opening (quote : Char) : List Char → Option Cut
  | 'u' :: '8' :: c :: rest => if c == quote then some (['u', '8', c], rest) else none
  | m :: c :: rest =>
    if m == quote then some ([m], c :: rest)
    else if (m == 'L' || m == 'u' || m == 'U') && c == quote then some ([m, c], rest)
    else none
  | [m] => if m == quote then some ([m], []) else none
  | [] => none

def charLiteral (cs : List Char) : Option Cut := do
  let (first, rest) ← opening '\'' cs
  if rest.head? == some '\'' then none
  else (literalBody '\'' rest).map (inFront first)

def isDigit (c : Char) : Bool := c.isDigit
def isDigitOrTick (c : Char) : Bool := c.isDigit || c == '\''
def isHexOrTick (c : Char) : Bool :=
  c.isDigit || ('a' ≤ c && c ≤ 'f') || ('A' ≤ c && c ≤ 'F') || c == '\''

def numberSuffix (cs : List Char) : Cut :=
  cs.span fun c => ['u', 'U', 'l', 'L', 'f', 'F'].contains c

def exponent : List Char → Cut
  | e :: rest =>
    if e == 'e' || e == 'E' then
      let (sign, digits) := match rest with
        | '+' :: r => (['+'], r)
        | '-' :: r => (['-'], r)
        | r => ([], r)
      match digits.span isDigit with
      | ([], _) => ([], e :: rest)
      | (ds, after) => (e :: sign ++ ds, after)
    else ([], e :: rest)
  | [] => ([], [])

def scaled (cs : List Char) : Cut :=
  let (e, rest) := exponent cs
  inFront e (numberSuffix rest)

def decimalNumber : List Char → Option Cut
  | '.' :: rest =>
    match rest.span isDigit with
    | ([], _) => none
    | (ds, after) => some (inFront ('.' :: ds) (scaled after))
  | c :: rest =>
    if isDigit c then
      let (ds, after) := rest.span isDigitOrTick
      match after with
      | '.' :: after =>
        let (fs, after) := after.span isDigit
        some (inFront (c :: ds ++ '.' :: fs) (scaled after))
      | after => some (inFront (c :: ds) (scaled after))
    else none
  | [] => none

def number : List Char → Option Cut
  | '0' :: x :: rest =>
    if x == 'x' || x == 'X' then
      match rest.span isHexOrTick with
      | ([], _) => decimalNumber ('0' :: x :: rest)
      | (ds, after) => some (inFront ('0' :: x :: ds) (numberSuffix after))
    else decimalNumber ('0' :: x :: rest)
  | cs => decimalNumber cs

def isNameChar (c : Char) : Bool := Text.isWordChar c || c == '$'
def isNameStart (c : Char) : Bool := Text.isWordStart c || c == '$'

def identifier : List Char → Option Cut
  | c :: rest => if isNameStart c then some (more c (rest.span isNameChar)) else none
  | [] => none

def punctuators : List String := [
  "...", "<<=", ">>=", "->*",
  "->", "++", "--", "<<", ">>", "<=", ">=", "==", "!=", "&&", "||", "+=", "-=", "*=", "/=", "%=",
  "&=", "^=", "|=", "::", "##",
  "\x7b", "\x7d", "[", "]", "(", ")", ";", ",", ".", "<", ">", "+", "-", "*", "/", "%", "&", "|",
  "^", "!", "~", "?", ":", "=", "#"]

def dropStart? : List Char → List Char → Option (List Char)
  | [], cs => some cs
  | p :: ps, c :: cs => if p == c then dropStart? ps cs else none
  | _ :: _, [] => none

def punctuator (cs : List Char) : Option Cut :=
  punctuators.findSome? fun p => (dropStart? p.toList cs).map fun rest => (p.toList, rest)

/-- A directive runs up to the first line end that no backslash precedes. -/
def directiveBody : List Char → Cut
  | [] => ([], [])
  | '\\' :: c :: rest => more '\\' (more c (directiveBody rest))
  | c :: rest => if c == '\\' || c == '\n' then ([], c :: rest) else more c (directiveBody rest)

def directive? (cs : List Char) : Option Cut :=
  match cs.span fun c => c == ' ' || c == '\t' with
  | (gap, '#' :: rest) => some (inFront (gap ++ ['#']) (directiveBody rest))
  | _ => none

inductive Lexeme where
  | gap
  | newline
  | lineComment
  | blockComment
  | token (kind : TokenKind)
  deriving DecidableEq, Repr

/-- The first of the alternatives, in this order, that the input starts with. -/
def lexeme : List Char → Except Problem (Lexeme × Cut)
  | [] => .ok (.gap, [], [])
  | '\n' :: rest => .ok (.newline, ['\n'], rest)
  | '/' :: '/' :: rest => .ok (.lineComment, inFront ['/', '/'] (rest.span (· != '\n')))
  | '/' :: '*' :: rest =>
    match commentBody rest with
    | some cut => .ok (.blockComment, inFront ['/', '*'] cut)
    | none => .error .openComment
  | c :: rest =>
    if isGap c then .ok (.gap, more c (rest.span isGap))
    else match opening '"' (c :: rest) with
    | some (first, body) =>
      match literalBody '"' body with
      | some cut => .ok (.token .string, inFront first cut)
      | none => .error .openString
    | none =>
      match charLiteral (c :: rest) with
      | some cut => .ok (.token .char, cut)
      | none =>
        match number (c :: rest) with
        | some cut => .ok (.token .number, cut)
        | none =>
          match identifier (c :: rest) with
          | some cut => .ok (.token .ident, cut)
          | none =>
            match punctuator (c :: rest) with
            | some cut => .ok (.token .punct, cut)
            | none => .error (.strayChar c)

def after (p : Pos) : List Char → Pos
  | [] => p
  | c :: cs => after (if c == '\n' then ⟨p.line + 1, 1⟩ else ⟨p.line, p.col + 1⟩) cs

def along (p : Pos) (text : List Char) : Pos := ⟨p.line, p.col + text.length⟩

/-- The place after a lexeme. The lines of a literal that goes on after a backslash do not count. -/
def Lexeme.passed (l : Lexeme) (p : Pos) (text : List Char) : Pos :=
  match l with
  | .newline | .blockComment => after p text
  | .gap | .lineComment | .token _ => along p text

/-- Reads on from a place; `fresh` says that the line holds no token so far. -/
def scan : Nat → Bool → Pos → List Token → List Char → Except Fault (List Token)
  | 0, _, p, seen, _ | _, _, p, seen, [] => .ok (⟨.eof, "", p⟩ :: seen).reverse
  | fuel + 1, fresh, p, seen, cs =>
    match if fresh then directive? cs else none with
    | some (text, rest) => scan fuel fresh (after p text) seen rest
    | none =>
      match lexeme cs with
      | .error problem => .error ⟨problem, p.line⟩
      | .ok (.token kind, text, rest) =>
        scan fuel false (along p text) (⟨kind, String.ofList text, p⟩ :: seen) rest
      | .ok (l, text, rest) =>
        scan fuel (fresh || l == .newline) (l.passed p text) seen rest

end Lexer

/-- The tokens of a text; the last one marks the end of input. Every step takes a character at
least, so the length of the text is fuel enough. -/
def tokenize (source : String) : Except Fault (List Token) :=
  let cs := source.toList
  Lexer.scan cs.length true ⟨1, 1⟩ [] cs

end JniContracts
