/-!
The words of JSON text. Blanks are the space, the tab and the two line ends, and nothing else. A
number has no leading zero, and digits after its point and its exponent mark. A string holds no bare
control character.
-/
namespace FaultIsolation.Json

/-- The text of a string: `none` if an escape names one half of a surrogate pair without the other,
so that the string stands for no sequence of characters. -/
abbrev Text := Option String

/-- A word of JSON. A number is kept as it is written. -/
inductive Token where
  | openObject
  | closeObject
  | openArray
  | closeArray
  | colon
  | comma
  | null
  | bool (value : Bool)
  | number (literal : List Char)
  | string (text : Text)
  deriving Repr, DecidableEq, Inhabited

def isBlank (c : Char) : Bool := c = ' ' || c = '\t' || c = '\n' || c = '\r'

def hexDigit? (c : Char) : Option Nat :=
  if '0' ≤ c ∧ c ≤ '9' then some (c.toNat - '0'.toNat)
  else if 'a' ≤ c ∧ c ≤ 'f' then some (c.toNat - 'a'.toNat + 10)
  else if 'A' ≤ c ∧ c ≤ 'F' then some (c.toNat - 'A'.toNat + 10)
  else none

def codeUnit? (a b c d : Char) : Option Nat := do
  return (((← hexDigit? a) * 16 + (← hexDigit? b)) * 16 + (← hexDigit? c)) * 16 + (← hexDigit? d)

def simpleEscape? : Char → Option Char
  | '"' => some '"'
  | '\\' => some '\\'
  | '/' => some '/'
  | 'b' => some '\x08'
  | 'f' => some '\x0c'
  | 'n' => some '\n'
  | 'r' => some '\r'
  | 't' => some '\t'
  | _ => none

/-- A piece of a string: a character, or a code unit that an escape names. -/
inductive Piece where
  | char (c : Char)
  | unit (value : Nat)
  deriving Repr, DecidableEq, Inhabited

/-- The pieces of a string up to its closing quote, and what follows it. -/
def stringPieces : List Char → Option (List Piece × List Char)
  | [] => none
  | '"' :: rest => some ([], rest)
  | '\\' :: 'u' :: a :: b :: c :: d :: rest => do
    let value ← codeUnit? a b c d
    let (pieces, rest) ← stringPieces rest
    return (.unit value :: pieces, rest)
  | '\\' :: escape :: rest => do
    let c ← simpleEscape? escape
    let (pieces, rest) ← stringPieces rest
    return (.char c :: pieces, rest)
  | c :: rest => do
    if c = '\\' ∨ c.toNat < 0x20 then none
    let (pieces, rest) ← stringPieces rest
    return (.char c :: pieces, rest)

def isHighHalf (unit : Nat) : Bool := 0xD800 ≤ unit ∧ unit ≤ 0xDBFF

def isLowHalf (unit : Nat) : Bool := 0xDC00 ≤ unit ∧ unit ≤ 0xDFFF

/-- The characters that pieces stand for. Two halves of a surrogate pair make one character if both
are escapes and stand side by side. -/
def joinPieces : List Piece → Option (List Char)
  | [] => some []
  | .char c :: rest => return c :: (← joinPieces rest)
  | .unit high :: .unit low :: rest =>
    if isHighHalf high ∧ isLowHalf low then
      return Char.ofNat (0x10000 + (high - 0xD800) * 0x400 + (low - 0xDC00)) :: (← joinPieces rest)
    else if isHighHalf high ∨ isLowHalf high then none
    else return Char.ofNat high :: (← joinPieces (.unit low :: rest))
  | .unit value :: rest =>
    if isHighHalf value ∨ isLowHalf value then none
    else return Char.ofNat value :: (← joinPieces rest)

def digits (cs : List Char) : List Char × List Char := cs.span Char.isDigit

def someDigits? (cs : List Char) : Option (List Char × List Char) :=
  match digits cs with
  | ([], _) => none
  | found => some found

/-- The whole part of a number: zero, or digits that do not start with zero. A further digit after a
leading zero is an error. -/
def wholePart? : List Char → Option (List Char × List Char)
  | '0' :: rest => if (digits rest).1.isEmpty then some (['0'], rest) else none
  | cs => someDigits? cs

def fraction? : List Char → Option (List Char × List Char)
  | '.' :: rest => do
    let (found, rest) ← someDigits? rest
    return ('.' :: found, rest)
  | cs => some ([], cs)

def exponent? : List Char → Option (List Char × List Char)
  | mark :: rest =>
    if mark = 'e' ∨ mark = 'E' then
      match rest with
      | sign :: afterSign =>
        if sign = '+' ∨ sign = '-' then do
          let (found, rest) ← someDigits? afterSign
          return (mark :: sign :: found, rest)
        else do
          let (found, rest) ← someDigits? rest
          return (mark :: found, rest)
      | [] => none
    else some ([], mark :: rest)
  | [] => some ([], [])

def magnitude? (cs : List Char) : Option (List Char × List Char) := do
  let (whole, cs) ← wholePart? cs
  let (fraction, cs) ← fraction? cs
  let (exponent, cs) ← exponent? cs
  return (whole ++ fraction ++ exponent, cs)

def number? : List Char → Option (List Char × List Char)
  | '-' :: rest => do
    let (found, rest) ← magnitude? rest
    return ('-' :: found, rest)
  | cs => magnitude? cs

def token? : List Char → Option (Token × List Char)
  | '{' :: rest => some (.openObject, rest)
  | '}' :: rest => some (.closeObject, rest)
  | '[' :: rest => some (.openArray, rest)
  | ']' :: rest => some (.closeArray, rest)
  | ':' :: rest => some (.colon, rest)
  | ',' :: rest => some (.comma, rest)
  | 'n' :: 'u' :: 'l' :: 'l' :: rest => some (.null, rest)
  | 't' :: 'r' :: 'u' :: 'e' :: rest => some (.bool true, rest)
  | 'f' :: 'a' :: 'l' :: 's' :: 'e' :: rest => some (.bool false, rest)
  | '"' :: rest => do
    let (pieces, rest) ← stringPieces rest
    return (.string ((joinPieces pieces).map String.ofList), rest)
  | cs => do
    let (literal, rest) ← number? cs
    return (.number literal, rest)

/-- The words of some text, read with a bound on their number. -/
def tokensWithin : Nat → List Char → Option (List Token)
  | 0, _ => none
  | bound + 1, cs =>
    match cs.dropWhile isBlank with
    | [] => some []
    | c :: rest => do
      let (token, rest) ← token? (c :: rest)
      return token :: (← tokensWithin bound rest)

/-- The words of some text. Every word takes a character, so there are no more words than
characters. -/
def tokens? (source : String) : Option (List Token) :=
  let cs := source.toList
  tokensWithin (cs.length + 1) cs

end FaultIsolation.Json
