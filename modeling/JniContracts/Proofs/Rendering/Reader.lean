import JniContracts.Proofs.Rendering.Runs
import JniContracts.Proofs.Spelling.Patterns

/-!
A reader of rendered text. It takes an expression back from its text, but for places, which are not
in it. The readers for one level of nesting are made from those for one level less, as those of
source text are.
-/

namespace JniContracts

def Pos.origin : Pos := ⟨0, 0⟩

namespace Expr

mutual
/-- The expression without its places. -/
def bare : Expr → Expr
  | name n _ => name n .origin
  | literal t k _ => literal t k .origin
  | ellipsis _ => ellipsis .origin
  | call f args via _ => call f.bare (bareAll args) via .origin
  | member o attr arrow _ => member o.bare attr arrow .origin
  | index o i _ => index o.bare i.bare .origin
  | unary op e side _ => unary op e.bare side .origin
  | binary op l r _ => binary op l.bare r.bare .origin
  | conditional c x y _ => conditional c.bare x.bare y.bare .origin
  | assign op t v _ => assign op t.bare v.bare .origin
  | cast t e _ => cast t e.bare .origin
  | initList es _ => initList (bareAll es) .origin
  | verbatim t _ => verbatim t .origin

def bareAll : List Expr → List Expr
  | [] => []
  | e :: es => e.bare :: bareAll es
end

theorem bareAll_eq (es : List Expr) : bareAll es = es.map bare := by
  induction es with
  | nil => rfl
  | cons e es ih => rw [bareAll, ih, List.map_cons]

section Bare

variable (a b c : Expr) (p : Pos)

theorem bare_call (args : List Expr) (via : Bool) :
    (call a args via p).bare = call a.bare (bareAll args) via .origin := rfl

theorem bare_member (attr : String) (arrow : Bool) :
    (member a attr arrow p).bare = member a.bare attr arrow .origin := rfl

theorem bare_index : (index a b p).bare = index a.bare b.bare .origin := rfl

theorem bare_unary (op : UnOp) (side : Side) :
    (unary op a side p).bare = unary op a.bare side .origin := rfl

theorem bare_binary (op : BinOp) : (binary op a b p).bare = binary op a.bare b.bare .origin := rfl

theorem bare_conditional : (conditional a b c p).bare = conditional a.bare b.bare c.bare .origin :=
  rfl

theorem bare_assign (op : AssignOp) : (assign op a b p).bare = assign op a.bare b.bare .origin :=
  rfl

theorem bare_cast (t : String) : (cast t a p).bare = cast t a.bare .origin := rfl

theorem bare_initList (es : List Expr) : (initList es p).bare = initList (bareAll es) .origin := rfl

end Bare

def pointer? : Expr → Option String
  | member (name r _) _ true _ => some r
  | _ => none

def tight (e : Expr) : List Char := (enclose e e.render).toList

end Expr

namespace Rendering

open Lexer Expr

abbrev Reading (α : Type) := Option (α × List Char)

def wordOps : List UnOp := .delete :: .new :: UnOp.sizes

def isQualifiedChar (c : Char) : Bool := isNameChar c || c == ':'

def sign? : List Char → Reading UnOp
  | '+' :: '+' :: s => some (.incr, s)
  | '-' :: '-' :: s => some (.decr, s)
  | '+' :: s => some (.plus, s)
  | '-' :: s => some (.neg, s)
  | '&' :: s => some (.addr, s)
  | '*' :: s => some (.deref, s)
  | '!' :: s => some (.not, s)
  | '~' :: s => some (.compl, s)
  | _ => none

def literal? (s : List Char) : Reading Expr :=
  match opening '"' s with
  | some (first, body) =>
    (literalBody '"' body).map
      fun cut => (.literal (String.ofList (first ++ cut.1)) .string .origin, cut.2)
  | none =>
    match charLiteral s with
    | some cut => some (.literal (String.ofList cut.1) .char .origin, cut.2)
    | none => (number s).map fun cut => (.literal (String.ofList cut.1) .number .origin, cut.2)

def type? (s : List Char) : Reading (List Char) :=
  match s.span isTypeChar with
  | (t, ')' :: r) => if looseMark t then none else some (t, r)
  | _ => none

def operator? : List Char → Reading String
  | ' ' :: s =>
    match s.span (· != ' ') with
    | (op, ' ' :: r) => some (String.ofList op, r)
    | _ => none
  | _ => none

structure Readers where
  tight : List Char → Reading Expr
  suffixes : Expr → List Char → Reading Expr
  /-- The flag says that a comma may stand outside of all brackets. -/
  loose : Bool → List Char → Reading Expr
  list : Char → List Char → Reading (List Expr)

namespace Readers

variable (g : Readers)

/-- A cast, or an expression in parentheses. -/
def parenthesis (s : List Char) : Reading Expr :=
  match type? s with
  | some (t, r) => (g.tight r).map fun x => (.cast (String.ofList t) x.1 .origin, x.2)
  | none =>
    match g.loose true s with
    | some (e, ')' :: r) => g.suffixes e r
    | _ => none

/-- The operand of an operator that is spelled as a word. In parentheses it is text. -/
def wordOperand (op : UnOp) : List Char → Reading Expr
  | '(' :: s =>
    match skim .plain 0 s with
    | some (inner, r) =>
      g.suffixes (.verbatim (String.ofList (op.text.toList ++ '(' :: inner)) .origin) r
    | none => none
  | s => (g.tight (s.drop op.gap.length)).map fun x => (.unary op x.1 .before .origin, x.2)

def wordStep (s : List Char) : Reading Expr :=
  let (w, r) := s.span isQualifiedChar
  if w.isEmpty then none
  else
    match wordOps.find? fun op => op.text.toList == w with
    | none => g.suffixes (.name (String.ofList w) .origin) r
    | some op => g.wordOperand op r

def tightStep : List Char → Reading Expr
  | [] => none
  | c :: s =>
    if c == '(' then g.parenthesis s
    else if c == '\x7b' then
      match g.list '\x7d' s with
      | some (es, r) => g.suffixes (.initList es .origin) r
      | none => none
    else
      match sign? (c :: s) with
      | some (op, r) => (g.tight r).map fun x => (.unary op x.1 .before .origin, x.2)
      | none =>
        match dropStart? ['.', '.', '.'] (c :: s) with
        | some r => g.suffixes (.ellipsis .origin) r
        | none =>
          match literal? (c :: s) with
          | some (e, r) => g.suffixes e r
          | none => g.wordStep (c :: s)

/-- Calls through a pointer in `pointers` are interface calls. -/
def suffixesStep (pointers : List String) (e : Expr) : List Char → Reading Expr
  | '(' :: s =>
    match g.list ')' s with
    | some (args, r) => g.suffixes (.call e args (e.pointer?.any pointers.contains) .origin) r
    | none => none
  | '[' :: s =>
    match g.loose true s with
    | some (i, ']' :: r) => g.suffixes (.index e i .origin) r
    | _ => none
  | '-' :: '>' :: s =>
    let (w, r) := s.span isNameChar
    g.suffixes (.member e (String.ofList w) true .origin) r
  | '.' :: s =>
    let (w, r) := s.span isNameChar
    g.suffixes (.member e (String.ofList w) false .origin) r
  | '+' :: '+' :: s => g.suffixes (.unary .incr e .behind .origin) s
  | '-' :: '-' :: s => g.suffixes (.unary .decr e .behind .origin) s
  | s => some (e, s)

def joined (commas : Bool) (a : Expr) (s : List Char) : Reading Expr :=
  match s with
  | ',' :: ' ' :: r =>
    if commas then (g.tight r).map fun x => (.binary .comma a x.1 .origin, x.2) else some (a, s)
  | _ =>
    match operator? s with
    | none => some (a, s)
    | some (op, r) =>
      if op == "?" then
        match g.tight r with
        | none => none
        | some (b, r) =>
          match operator? r with
          | none => none
          | some (_, r) => (g.tight r).map fun x => (.conditional a b x.1 .origin, x.2)
      else
        match BinOp.ofText? op with
        | some op => (g.tight r).map fun x => (.binary op a x.1 .origin, x.2)
        | none => some (a, s)

def simple (commas : Bool) (s : List Char) : Reading Expr :=
  match g.tight s with
  | some (a, r) => g.joined commas a r
  | none => none

def looseStep (commas : Bool) (s : List Char) : Reading Expr :=
  match g.simple commas s with
  | none => none
  | some (a, s) =>
    match operator? s with
    | none => some (a, s)
    | some (op, r) =>
      match AssignOp.ofText? op with
      | some op => (g.loose commas r).map fun x => (.assign op a x.1 .origin, x.2)
      | none => some (a, s)

def listStep (close : Char) (s : List Char) : Reading (List Expr) :=
  if s.head? == some close then some ([], s.drop 1)
  else
    match g.loose false s with
    | some (e, ',' :: ' ' :: r) => (g.list close r).map fun x => (e :: x.1, x.2)
    | some (e, c :: r) => if c == close then some ([e], r) else none
    | _ => none

def deeper (pointers : List String) : Readers where
  tight := g.tightStep
  suffixes := g.suffixesStep pointers
  loose := g.looseStep
  list := g.listStep

def tooDeep : Readers := ⟨fun _ => none, fun _ _ => none, fun _ _ => none, fun _ _ => none⟩

def within (pointers : List String) : Nat → Readers
  | 0 => tooDeep
  | levels + 1 => (within pointers levels).deeper pointers

end Readers

end Rendering

end JniContracts
