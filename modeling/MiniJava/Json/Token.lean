import MiniJava.Json

/-!
# JSON tokens

Cuts the text of a document into tokens, one character at a time.
-/

namespace MiniJava.Json

/-- A token. Quoted text that no string stands for keeps its spelling. -/
inductive Token where
  | openBrace
  | closeBrace
  | openBracket
  | closeBracket
  | colon
  | comma
  | str (value : String)
  | broken (spelling : String)
  | scalar (value : Json)

/-- Where in a token a character stands. What was read of the token is held in reverse. -/
inductive TokenState where
  | between
  | inString (read : List Char)
  | afterBackslash (read : List Char)
  | inNumber (read : List Char)
  | inWord (read : List Char)

/-- The value of a digit of base sixteen. -/
def hexValue? (c : Char) : Option Nat :=
  if '0' ≤ c ∧ c ≤ '9' then some (c.toNat - 48)
  else if 'a' ≤ c ∧ c ≤ 'f' then some (c.toNat - 87)
  else if 'A' ≤ c ∧ c ≤ 'F' then some (c.toNat - 55)
  else none

/-- The character that a backslash and a letter stand for. -/
def escaped? : Char → Option Char
  | '"' => some '"'
  | '\\' => some '\\'
  | '/' => some '/'
  | 'b' => some '\x08'
  | 'f' => some '\x0c'
  | 'n' => some '\n'
  | 'r' => some '\r'
  | 't' => some '\t'
  | _ => none

/-- The code units of what stands between quotes. A character outside the basic plane counts as one
unit unless it is written as two escapes. Control characters and unknown escapes are refused. -/
def codeUnits? : List Char → Option (List Nat)
  | [] => some []
  | '\\' :: 'u' :: a :: b :: c :: d :: rest => do
    let unit := (((← hexValue? a) * 16 + (← hexValue? b)) * 16 + (← hexValue? c)) * 16
      + (← hexValue? d)
    return unit :: (← codeUnits? rest)
  | '\\' :: c :: rest => do
    let value ← escaped? c
    return value.toNat :: (← codeUnits? rest)
  | c :: rest => do
    if c.toNat < 32 ∨ c = '\\' then none
    else return c.toNat :: (← codeUnits? rest)

/-- The first unit of a surrogate pair. -/
def isHighSurrogate (unit : Nat) : Bool :=
  0xD800 ≤ unit && unit < 0xDC00

/-- The second unit of a surrogate pair. -/
def isLowSurrogate (unit : Nat) : Bool :=
  0xDC00 ≤ unit && unit < 0xE000

/-- The characters of code units. Half of a surrogate pair stands for none. -/
def ofCodeUnits? : List Nat → Option (List Char)
  | [] => some []
  | high :: low :: rest =>
    if isHighSurrogate high then
      if isLowSurrogate low then do
        let c := Char.ofNat (0x10000 + (high - 0xD800) * 1024 + (low - 0xDC00))
        return c :: (← ofCodeUnits? rest)
      else none
    else if isLowSurrogate high then none
    else return Char.ofNat high :: (← ofCodeUnits? (low :: rest))
  | [unit] =>
    if isHighSurrogate unit || isLowSurrogate unit then none else some [Char.ofNat unit]

/-- The token of what stands between quotes. -/
def stringToken? (content : List Char) : Option Token := do
  let units ← codeUnits? content
  match ofCodeUnits? units with
  | some text => return .str (String.ofList text)
  | none => return .broken (String.ofList ('"' :: content ++ ['"']))

/-- The leading digits of a text and what follows them. -/
def spanDigits (text : List Char) : List Char × List Char :=
  (text.takeWhile Char.isDigit, text.dropWhile Char.isDigit)

/-- The value of decimal digits. -/
def digitsValue (digits : List Char) : Nat :=
  digits.foldl (fun n c => n * 10 + (c.toNat - 48)) 0

/-- What follows a fraction, if there is one; its digits must not be missing. -/
def skipFraction? : List Char → Option (List Char)
  | '.' :: rest =>
    let (digits, rest) := spanDigits rest
    if digits.isEmpty then none else some rest
  | rest => some rest

/-- What follows an exponent, if there is one; its digits must not be missing. -/
def skipExponent? : List Char → Option (List Char)
  | c :: rest =>
    if c = 'e' ∨ c = 'E' then
      let rest := match rest with
        | '+' :: rest | '-' :: rest => rest
        | rest => rest
      let (digits, rest) := spanDigits rest
      if digits.isEmpty then none else some rest
    else some (c :: rest)
  | [] => some []

/-- The token of a number. Its integer part is zero or begins with another digit. Negative zero is
no integer. -/
def numberToken? (text : List Char) : Option Token := do
  let (negative, unsigned) := match text with
    | '-' :: rest => (true, rest)
    | rest => (false, rest)
  let (digits, rest) := spanDigits unsigned
  if digits.isEmpty || (digits.length > 1 && digits.head? == some '0') then none
  else if rest.isEmpty && !(negative && digitsValue digits == 0) then
    let value : Int := digitsValue digits
    return .scalar (.int (if negative then -value else value))
  else
    let rest ← skipExponent? (← skipFraction? rest)
    if rest.isEmpty then return .scalar (.other (String.ofList text)) else none

/-- The token of a word. -/
def wordToken? (word : List Char) : Option Token :=
  if word = "null".toList then some (.scalar .null)
  else if word = "true".toList then some (.scalar (.bool true))
  else if word = "false".toList then some (.scalar (.bool false))
  else none

/-- The characters that numbers consist of. -/
def isNumberChar (c : Char) : Bool :=
  c.isDigit || c = '+' || c = '-' || c = '.' || c = 'e' || c = 'E'

/-- The characters between tokens. -/
def isBlank (c : Char) : Bool :=
  c = ' ' || c = '\n' || c = '\r' || c = '\t'

/-- The token of one character. -/
def punctuation? : Char → Option Token
  | '\x7b' => some .openBrace
  | '\x7d' => some .closeBrace
  | '[' => some .openBracket
  | ']' => some .closeBracket
  | ':' => some .colon
  | ',' => some .comma
  | _ => none

/-- Takes a character that stands between tokens, with the tokens before it in reverse. -/
def beginToken? (tokens : List Token) (c : Char) : Option (TokenState × List Token) :=
  match punctuation? c with
  | some token => some (.between, token :: tokens)
  | none =>
    if isBlank c then some (.between, tokens)
    else if c = '"' then some (.inString [], tokens)
    else if c.isDigit || c = '-' then some (.inNumber [c], tokens)
    else if c.isAlpha then some (.inWord [c], tokens)
    else none

/-- Takes one character. -/
def stepToken? : TokenState × List Token → Char → Option (TokenState × List Token)
  | (.between, tokens), c => beginToken? tokens c
  | (.inString read, tokens), c =>
    if c = '"' then (stringToken? read.reverse).map fun token => (.between, token :: tokens)
    else if c = '\\' then some (.afterBackslash (c :: read), tokens)
    else some (.inString (c :: read), tokens)
  | (.afterBackslash read, tokens), c => some (.inString (c :: read), tokens)
  | (.inNumber read, tokens), c =>
    if isNumberChar c then some (.inNumber (c :: read), tokens)
    else (numberToken? read.reverse).bind fun token => beginToken? (token :: tokens) c
  | (.inWord read, tokens), c =>
    if c.isAlpha then some (.inWord (c :: read), tokens)
    else (wordToken? read.reverse).bind fun token => beginToken? (token :: tokens) c

/-- The tokens of a text. A blank behind it ends the last one. -/
def tokens? (text : List Char) : Option (List Token) := do
  match ← (text ++ [' ']).foldlM stepToken? (.between, []) with
  | (.between, tokens) => return tokens.reverse
  | _ => none

end MiniJava.Json
