import JniContracts.Pattern.Bindings

/-!
Metavariables inside text: a dollar sign and a name in capitals, digits and underscores. The name
ends where a capitalised word starts, so that `$TYPEArray` is the variable `TYPE` and the word
`Array`.
-/

namespace JniContracts

inductive Segment where
  | char (c : Char)
  | var (name : String)
  deriving DecidableEq, Repr

namespace Segment

def isVarStart (c : Char) : Bool := c.isUpper || c == '_'
def isVarChar (c : Char) : Bool := c.isUpper || c.isDigit || c == '_'

def endsBefore : List Char → Bool
  | [] => true
  | c :: rest => !isVarChar c || (c.isUpper && rest.head?.any Char.isLower)

def nameRest : List Char → List Char × List Char
  | [] => ([], [])
  | c :: rest =>
    if endsBefore (c :: rest) then ([], c :: rest)
    else
      let (name, after) := nameRest rest
      (c :: name, after)

def splitFor : Nat → List Char → List Segment
  | 0, _ | _, [] => []
  | fuel + 1, '$' :: c :: rest =>
    if isVarStart c then
      let (name, after) := nameRest rest
      .var (String.ofList (c :: name)) :: splitFor fuel after
    else .char '$' :: splitFor fuel (c :: rest)
  | fuel + 1, c :: rest => .char c :: splitFor fuel rest

/-- The segments of a text; each takes a character at least. -/
def split (text : String) : List Segment := splitFor text.toList.length text.toList

def name? : Segment → Option String
  | var v => some v
  | char _ => none

/-- The text of a segment when metavariables are replaced; one without a value stays. -/
def fill (b : Bindings) : Segment → String
  | char c => String.singleton c
  | var v => (b.get? v).getD ("$" ++ v)

end Segment

def metavariables (text : String) : List String :=
  ((Segment.split text).filterMap Segment.name?).eraseDups

def fillIn (template : String) (b : Bindings) : String :=
  String.join ((Segment.split template).map (Segment.fill b))

def soleVariable? (name : String) : Option String :=
  match Segment.split name with
  | [.var v] => some v
  | _ => none

namespace NamePattern

def isInner (c : Char) : Bool := c.isAlphanum || c == '_' || c == ':'

/-- The ways to split a text in two with a first part that is not empty, the shortest first. -/
def cuts : List Char → List (List Char × List Char)
  | [] => []
  | c :: rest => ([c], rest) :: (cuts rest).map fun (a, b) => (c :: a, b)

def dropStart? : List Char → List Char → Option (List Char)
  | [], cs => some cs
  | p :: ps, c :: cs => if p == c then dropStart? ps cs else none
  | _ :: _, [] => none

/-- The first way, with early variables as short as possible, to read a text as the segments. A
variable that occurs again stands for the same text. -/
def solve :
    List Segment → List Char → List (String × List Char) → Option (List (String × List Char))
  | [], [], found => some found
  | [], _ :: _, _ => none
  | .char _ :: _, [], _ => none
  | .char c :: ss, d :: rest, found => if c == d then solve ss rest found else none
  | .var v :: ss, cs, found =>
    match found.lookup v with
    | some value =>
      match dropStart? value cs with
      | some rest => solve ss rest found
      | none => none
    | none => (cuts cs).findSome? fun (value, rest) =>
      if value.all isInner then solve ss rest (found ++ [(v, value)]) else none

def bindAll : List (String × List Char) → Bindings → Option Bindings
  | [], b => some b
  | (v, value) :: rest, b =>
    match b.bind v (String.ofList value) with
    | some b => bindAll rest b
    | none => none

/-- Matches a name with metavariables against a name. The text is split first and the values are
compared with earlier bindings afterwards. -/
def match? (pattern text : String) (b : Bindings) : Option Bindings :=
  match Segment.split pattern with
  | [.var v] => if text == "" || text.toList.contains '\n' then none else b.bind v text
  | segments =>
    match solve segments text.toList [] with
    | some found => bindAll found b
    | none => none

def matchOption (pattern : String) (text : Option String) (b : Bindings) : Option Bindings :=
  text.bind fun t => match? pattern t b

end NamePattern

end JniContracts
