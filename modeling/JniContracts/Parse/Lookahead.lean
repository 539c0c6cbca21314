import JniContracts.Parse.State

/-!
What the next tokens look like: a declaration, or a cast. C text cannot be told apart here without
its type names, so these are rules of thumb over the shape of the tokens and the variables known so
far.
-/

namespace JniContracts.Parse

def typeWords : List String := [
  "void", "char", "short", "int", "long", "float", "double", "signed",
  "unsigned", "bool", "_Bool", "_Complex", "size_t", "ssize_t",
  "int8_t", "int16_t", "int32_t", "int64_t",
  "uint8_t", "uint16_t", "uint32_t", "uint64_t", "uintptr_t", "intptr_t",
  "auto"]

def qualifiers : List String := [
  "const", "volatile", "static", "register", "extern", "inline",
  "__inline", "__inline__", "restrict", "__restrict", "_Thread_local",
  "thread_local", "constexpr", "mutable", "typename"]

def pointerQualifiers : List String := ["const", "volatile", "restrict", "__restrict"]

def statementWords : List String := [
  "if", "else", "while", "do", "for", "switch", "case", "default",
  "return", "break", "continue", "goto", "sizeof", "typedef",
  "delete", "new", "throw", "using"]

def tagWords : List String := ["struct", "union", "enum", "class"]

def isPointerMark (t : Token) : Bool :=
  t.isPunctOf ["*", "&", "&&"] || t.isWordOf pointerQualifiers

namespace Context

/-- The place behind the template arguments that open at `i`; none if a statement ends before. -/
def templateEnd (c : Context) : Nat → Int → Nat → Option Nat
  | 0, _, _ => none
  | fuel + 1, depth, i =>
    let t := c.tokenAt i
    if t.isEof || t.isPunctOf [";", "\x7b", "\x7d"] then none
    else
      let depth :=
        if t.isPunct "<" then depth + 1
        else if t.isPunct ">" then depth - 1
        else if t.isPunct ">>" then depth - 2
        else depth
      if depth ≤ 0 then some (i + 1) else templateEnd c fuel depth (i + 1)

/-- The place behind the rest of a type: qualified names, template arguments and further words. -/
def typeTail (c : Context) : Nat → Nat → Option Nat
  | 0, i => some i
  | fuel + 1, i =>
    let t := c.tokenAt i
    if t.isPunct "::" && (c.tokenAt (i + 1)).isIdent then typeTail c fuel (i + 2)
    else if t.isPunct "<" then
      match c.templateEnd c.tokens.size 0 i with
      | some j => typeTail c fuel j
      | none => none
    else if (t.isWordOf typeWords || t.isWordOf pointerQualifiers) &&
        (c.tokenAt (i - 1)).isIdent then
      typeTail c fuel (i + 1)
    else some i

def looksLikeDeclaration (c : Context) (locals : List String) (start : Nat) : Bool :=
  let i := c.skipWhile (·.isWordOf qualifiers) start
  let t := c.tokenAt i
  if !t.isIdent || statementWords.contains t.text || isHole t.text || locals.contains
    t.text then false
  else if tagWords.contains t.text && !(c.tokenAt (i + 1)).isIdent then false
  else
    match c.typeTail c.tokens.size (if tagWords.contains t.text then i + 2 else i + 1) with
    | none => false
    | some j =>
      let k := c.skipWhile isPointerMark j
      let name := c.tokenAt k
      let follower := c.tokenAt (k + 1)
      name.isIdent && !statementWords.contains name.text &&
        (follower.isPunctOf ["=", ";", ",", "[", ")", ":", "\x7b"] ||
          (follower.isPunct "(" && typeWords.contains (c.tokenAt start).text))

def looksLikeCast (c : Context) (locals : List String) (start : Nat) : Bool :=
  let close := c.partnerOf start
  let inner := c.slice (start + 1) close
  match inner with
  | [] => false
  | first :: _ =>
    let (names, rest) := inner.span fun t => t.isIdent || t.isPunct "::"
    let (marks, rest) := rest.span fun t => t.isPunctOf ["*", "&"] || t.isWordOf pointerQualifiers
    let words := names.filter (·.isIdent)
    let follower := c.tokenAt (close + 1)
    if !first.isIdent || isHole first.text then false
    else if words.any fun t => statementWords.contains t.text then false
    else if !rest.isEmpty then false
    else if words.length == 1 && marks.isEmpty && locals.contains first.text then false
    else if isWordlike follower then true
    else if !marks.isEmpty || inner.any (fun t => typeWords.contains t.text) || 1 <
        words.length then
      follower.isPunctOf ["(", "!", "~", "&", "*", "-", "+", "++", "--", "\x7b"]
    else follower.isPunctOf ["(", "!", "~"]

/-- The place of the first declarator's name, behind the type that starts at `start`. The search for
the end of template arguments has no end of its own. -/
def declaratorStart (c : Context) (start : Nat) : Nat → Nat → Except Stop Nat
  | 0, _ => .error .endless
  | fuel + 1, i =>
    let t := c.tokenAt i
    if t.isIdent && !qualifiers.contains t.text && !typeWords.contains t.text &&
        (c.tokenAt (i + 1)).isPunctOf ["=", ";", ",", "[", ")", ":", "(", "\x7b"] && start <
            i then .ok i
    else if t.isEof then .error (.fault ⟨.openDeclaration, t.line⟩)
    else if t.isPunct "<" then
      let j := c.skipWhile (fun t => !t.isPunctOf [">", ">>"]) i
      if (c.tokenAt j).isEof then .error .endless else declaratorStart c start fuel (j + 1)
    else declaratorStart c start fuel (i + 1)

end Context

def looksLikeDeclaration : ParseM Bool := do
  let c ← read
  let s ← get
  pure (c.looksLikeDeclaration s.locals s.pos)

end JniContracts.Parse
