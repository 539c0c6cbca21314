/-!
Operators of expressions and how they are spelled.
-/

namespace JniContracts

inductive BinOp where
  | comma | or | and | bitOr | bitXor | bitAnd | eq | ne | lt | gt | le | ge | shl | shr
  | add | sub | mul | div | mod
  deriving DecidableEq, Repr

namespace BinOp

def text : BinOp → String
  | comma => "," | or => "||" | and => "&&" | bitOr => "|" | bitXor => "^" | bitAnd => "&"
  | eq => "==" | ne => "!=" | lt => "<" | gt => ">" | le => "<=" | ge => ">="
  | shl => "<<" | shr => ">>" | add => "+" | sub => "-" | mul => "*" | div => "/" | mod => "%"

def precedence : BinOp → Nat
  | comma => 1 | or => 4 | and => 5 | bitOr => 6 | bitXor => 7 | bitAnd => 8
  | eq | ne =>
    9 | lt | gt | le | ge => 10 | shl | shr => 11 | add | sub => 12 | mul | div | mod => 13

def infixes : List BinOp :=
  [or, and, bitOr, bitXor, bitAnd, eq, ne, lt, gt, le, ge, shl, shr, add, sub, mul, div, mod]

def ofText? (s : String) : Option BinOp := infixes.find? fun op => op.text == s

def isEquality (op : BinOp) : Bool := op == eq || op == ne

end BinOp

inductive UnOp where
  | incr | decr | addr | deref | plus | neg | not | compl
  | delete | new | sizeof | alignof | alignofC | alignofGnu
  deriving DecidableEq, Repr

namespace UnOp

def text : UnOp → String
  | incr => "++" | decr => "--" | addr => "&" | deref => "*" | plus => "+" | neg => "-"
  | not => "!" | compl => "~" | delete => "delete" | new => "new" | sizeof => "sizeof"
  | alignof => "alignof" | alignofC => "_Alignof" | alignofGnu => "__alignof__"

def signs : List UnOp := [incr, decr, addr, deref, plus, neg, not, compl]

def ofSign? (s : String) : Option UnOp := signs.find? fun op => op.text == s

def sizes : List UnOp := [sizeof, alignof, alignofC, alignofGnu]

def ofSize? (s : String) : Option UnOp := sizes.find? fun op => op.text == s

def gap : UnOp → String
  | delete | new | sizeof | alignof => " "
  | _ => ""

def isStep (op : UnOp) : Bool := op == incr || op == decr

end UnOp

inductive AssignOp where
  | set | add | sub | mul | div | mod | bitAnd | bitOr | bitXor | shl | shr
  deriving DecidableEq, Repr

namespace AssignOp

def text : AssignOp → String
  | set => "=" | add => "+=" | sub => "-=" | mul => "*=" | div => "/=" | mod => "%="
  | bitAnd => "&=" | bitOr => "|=" | bitXor => "^=" | shl => "<<=" | shr => ">>="

def all : List AssignOp := [set, add, sub, mul, div, mod, bitAnd, bitOr, bitXor, shl, shr]

def ofText? (s : String) : Option AssignOp := all.find? fun op => op.text == s

end AssignOp

end JniContracts
