import JniContracts.Text.Quoted

/-!
What can be wrong with source text, and the ways in which reading it can come to an end early.
-/

namespace JniContracts

inductive Problem where
  | strayChar (c : Char)
  | openComment
  | openString
  | unbalanced (bracket : String)
  | unclosed (bracket : String)
  | expected (wanted found : String)
  | expectedName (found : String)
  | noExpression (found : String)
  | trailing (found : String)
  | blockEnds
  | doWithoutWhile
  | noSemicolon
  | openDeclaration
  | strayCloser
  | tooDeep
  deriving DecidableEq, Repr

namespace Problem

def message : Problem → String
  | strayChar c => "unexpected character " ++ Text.Quoted.encode (String.singleton c)
  | openComment => "unterminated block comment"
  | openString => "unterminated string literal"
  | unbalanced bracket => s!"unbalanced '{bracket}'"
  | unclosed bracket => s!"unclosed '{bracket}'"
  | expected wanted found => s!"expected '{wanted}' but found '{found}'"
  | expectedName found => s!"expected identifier but found '{found}'"
  | noExpression found => s!"unexpected '{found}' in expression"
  | trailing found => s!"trailing input '{found}' in pattern"
  | blockEnds => "unexpected end of input in block"
  | doWithoutWhile => "expected 'while' after do-body"
  | noSemicolon => "expected ';'"
  | openDeclaration => "unterminated declaration"
  | strayCloser => "unexpected '\x7d'"
  | tooDeep => "nesting too deep to analyze"

end Problem

structure Fault where
  problem : Problem
  line : Nat
  deriving DecidableEq, Repr

namespace Fault

def message (f : Fault) : String := f.problem.message

def located (file : String) (f : Fault) : String :=
  if file == "" then s!"line {f.line}: {f.message}" else s!"{file}:{f.line}: {f.message}"

end Fault

/-- Why reading stopped. Apart from faults of the text: a bracket was looked up at a token that is
none, the nesting limit was passed, or the reader could move no further and would never return. -/
inductive Stop where
  | fault (f : Fault)
  | noBracket (index : Nat)
  | tooDeep
  | endless
  deriving DecidableEq, Repr

namespace Stop

def message : Stop → String
  | fault f => f.message
  | noBracket index => s!"no bracket at token {index}"
  | tooDeep => Problem.tooDeep.message
  | endless => "the end is never reached"

end Stop

end JniContracts
