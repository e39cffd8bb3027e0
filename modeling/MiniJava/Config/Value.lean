import MiniJava.Json

/-!
# Values of config files

Numbers, booleans and text, each read from the front of the characters that are left. The characters
have no carriage returns in front of newlines any more.
-/

namespace MiniJava.Config

/-- The blanks inside a line. -/
def isBlank (c : Char) : Bool :=
  c = ' ' || c = '\t'

/-- What follows blanks. -/
def skipBlanks (text : List Char) : List Char :=
  text.dropWhile isBlank

/-- The characters of keys without quotes. -/
def isKeyChar (c : Char) : Bool :=
  c.isAlphanum || c = '_' || c = '-'

/-- The characters that may stand in a line of text and in comments. -/
def isPrintable (c : Char) : Bool :=
  c = '\t' || (32 ≤ c.toNat && c.toNat ≠ 127)

/-! ## Numbers -/

/-- The value of a digit of a base up to sixteen. -/
def digit? (base : Nat) (c : Char) : Option Nat :=
  let value :=
    if '0' ≤ c ∧ c ≤ '9' then c.toNat - 48
    else if 'a' ≤ c ∧ c ≤ 'f' then c.toNat - 87
    else if 'A' ≤ c ∧ c ≤ 'F' then c.toNat - 55
    else base
  if value < base then some value else none

/-- The number that digits stand for, given the number before them. Between two digits there may be
an underscore. -/
def digits? (base : Nat) (value : Nat) : List Char → Option Nat
  | [] => some value
  | '_' :: c :: rest => (digit? base c).bind fun d => digits? base (value * base + d) rest
  | c :: rest => (digit? base c).bind fun d => digits? base (value * base + d) rest

/-- The number of digits that do not begin with an underscore; there is at least one. -/
def number? (base : Nat) (digits : List Char) : Option Nat :=
  match digits with
  | [] | '_' :: _ => none
  | _ => digits? base 0 digits

/-- A decimal number that does not begin with a needless zero. -/
def decimal? (digits : List Char) : Option Nat :=
  if digits.length > 1 && digits.head? == some '0' then none else number? 10 digits

/-- An integer of 64 bits. Only decimal ones have a sign. -/
def integer? (word : List Char) : Option Int :=
  let value : Option Int := match word with
    | '0' :: 'x' :: digits => (number? 16 digits).map Int.ofNat
    | '0' :: 'o' :: digits => (number? 8 digits).map Int.ofNat
    | '0' :: 'b' :: digits => (number? 2 digits).map Int.ofNat
    | '+' :: digits => (decimal? digits).map Int.ofNat
    | '-' :: digits => (decimal? digits).map fun n => -(n : Int)
    | digits => (decimal? digits).map Int.ofNat
  value.filter fun n => decide (-9223372036854775808 ≤ n ∧ n ≤ 9223372036854775807)

/-- What follows a sign, if there is one. -/
def skipSign : List Char → List Char
  | '+' :: rest | '-' :: rest => rest
  | rest => rest

/-- The leading digits, with the underscores among them, and what follows. -/
def spanDigits (text : List Char) : List Char × List Char :=
  let isDigit (c : Char) : Bool := c.isDigit || c = '_'
  (text.takeWhile isDigit, text.dropWhile isDigit)

/-- Whether a text is an exponent. -/
def isExponent : List Char → Bool
  | e :: rest => (e = 'e' || e = 'E') && (number? 10 (skipSign rest)).isSome
  | [] => false

/-- Whether a word is a number with a fraction or an exponent, or one of the two special ones. -/
def isFloat (word : List Char) : Bool :=
  let unsigned := skipSign word
  if unsigned = "inf".toList ∨ unsigned = "nan".toList then true
  else
    let (whole, rest) := spanDigits unsigned
    (decimal? whole).isSome && match rest with
      | '.' :: rest =>
        let (places, rest) := spanDigits rest
        (number? 10 places).isSome && (rest.isEmpty || isExponent rest)
      | rest => isExponent rest

/-- The value of a word without quotes. -/
def word? (word : List Char) : Option Json :=
  if word = "true".toList then some (.bool true)
  else if word = "false".toList then some (.bool false)
  else
    match integer? word with
    | some n => some (.int n)
    | none => if isFloat word then some (.other (String.ofList word)) else none

/-! ## Text -/

/-- The characters before the closing quotes, escapes as they are written, and what follows. Text in
more than one quote may end with quotes of its own, fewer than close it. -/
def raw? (quote : Char) (count : Nat) : List Char → Option (List Char × List Char)
  | [] => none
  | c :: rest =>
    if (List.replicate count quote).isPrefixOf (c :: rest) then
      let run := min (2 * count - 1) ((c :: rest).takeWhile (· = quote)).length
      some (List.replicate (run - count) quote, (c :: rest).drop run)
    else if quote = '"' ∧ c = '\\' then
      match rest with
      | next :: rest => (raw? quote count rest).map fun (raw, rest) => (c :: next :: raw, rest)
      | [] => none
    else (raw? quote count rest).map fun (raw, rest) => (c :: raw, rest)

/-- The character of a code point; surrogates are none. -/
def codePoint? (digits : List Char) : Option Char := do
  let n ← digits.foldlM (fun n c => (digit? 16 c).map (n * 16 + ·)) 0
  if h : n.isValidChar then some (Char.ofNatAux n h) else none

/-- The character that a backslash and a letter stand for. -/
def escaped? : Char → Option Char
  | 'b' => some '\x08'
  | 't' => some '\t'
  | 'n' => some '\n'
  | 'f' => some '\x0c'
  | 'r' => some '\r'
  | '"' => some '"'
  | '\\' => some '\\'
  | _ => none

/-- The text after a backslash at the end of a line: all blanks and newlines are left out. -/
def continued? (text : List Char) : Option (List Char) :=
  match skipBlanks text with
  | '\n' :: rest => some (rest.dropWhile fun c => isBlank c || c = '\n')
  | _ => none

/-- What is left out makes the text no longer. -/
theorem length_continued?_le {text rest : List Char} (h : continued? text = some rest) :
    rest.length ≤ text.length := by
  unfold continued? at h
  split at h
  · rename_i after hskip
    have hdrop := (List.dropWhile_sublist (l := text) isBlank).length_le
    have hrest := (List.dropWhile_sublist (l := after) fun c => isBlank c || c = '\n').length_le
    simp only [skipBlanks] at hskip
    simp only [Option.some.injEq] at h
    subst h
    simp only [hskip, List.length_cons] at hdrop
    omega
  · simp at h

/-- Text with its escapes resolved. -/
def unescape? (text : List Char) : Option (List Char) :=
  match text with
  | [] => some []
  | '\\' :: 'u' :: a :: b :: c :: d :: rest => do
    return (← codePoint? [a, b, c, d]) :: (← unescape? rest)
  | '\\' :: 'U' :: a :: b :: c :: d :: e :: f :: g :: h :: rest => do
    return (← codePoint? [a, b, c, d, e, f, g, h]) :: (← unescape? rest)
  | '\\' :: rest =>
    match rest with
    | [] => none
    | c :: after =>
      match escaped? c with
      | some char => (unescape? after).map (char :: ·)
      | none =>
        match _h : continued? (c :: after) with
        | some next => unescape? next
        | none => none
  | c :: rest => (unescape? rest).map (c :: ·)
termination_by text.length
decreasing_by
  · simp only [List.length_cons]; omega
  · simp only [List.length_cons]; omega
  · simp only [List.length_cons]; omega
  · have hle := length_continued?_le _h
    simp only [List.length_cons] at hle ⊢
    omega
  · simp only [List.length_cons]; omega

/-- Text in quotes of either kind; between single quotes there are no escapes. With `multiline` it
may also stand between three quotes and then go over lines, the first of which is left out if it is
empty. -/
def text? (multiline : Bool) : List Char → Option (String × List Char)
  | [] => none
  | quote :: rest =>
    if quote = '"' ∨ quote = '\x27' then do
      let long := multiline && [quote, quote].isPrefixOf rest
      let body := match long, rest.drop 2 with
        | true, '\n' :: body => body
        | true, body => body
        | false, _ => rest
      let (raw, rest) ← raw? quote (if long then 3 else 1) body
      if raw.all fun c => isPrintable c || (long && c = '\n') then
        let content ← if quote = '"' then unescape? raw else some raw
        return (String.ofList content, rest)
      else none
    else none

/-- The value at the front of a text. -/
def value? (text : List Char) : Option (Json × List Char) :=
  match text? true text with
  | some (value, rest) => some (.str value, rest)
  | none =>
    let word := text.takeWhile fun c => isKeyChar c || c = '+' || c = '.'
    (word? word).map (·, text.drop word.length)

end MiniJava.Config
