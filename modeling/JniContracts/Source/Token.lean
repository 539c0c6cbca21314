/-!
Tokens of C and C++ text, with the line and column at which they start.
-/

namespace JniContracts

/-- A line and a column, both counted from one. -/
structure Pos where
  line : Nat
  col : Nat
  deriving DecidableEq, Repr, Inhabited

inductive TokenKind where
  | ident
  | number
  | string
  | char
  | punct
  | eof
  deriving DecidableEq, Repr, Inhabited

structure Token where
  kind : TokenKind
  text : String
  pos : Pos
  deriving DecidableEq, Repr, Inhabited

namespace Token

def line (t : Token) : Nat := t.pos.line

def isPunct (t : Token) (text : String) : Bool := t.kind == .punct && t.text == text

def isPunctOf (t : Token) (texts : List String) : Bool := t.kind == .punct && texts.contains t.text

def isIdent (t : Token) : Bool := t.kind == .ident

def isWord (t : Token) (text : String) : Bool := t.kind == .ident && t.text == text

def isWordOf (t : Token) (texts : List String) : Bool := t.kind == .ident && texts.contains t.text

def isEof (t : Token) : Bool := t.kind == .eof

def shown (t : Token) : String := if t.text == "" then "end of input" else t.text

end Token

end JniContracts
