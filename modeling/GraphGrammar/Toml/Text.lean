import GraphGrammar.Toml.Reader

/-!
# Quoted text

Text stands in double quotes, with escapes, or in single quotes, without. Three quotes instead of one allow it to
go over several lines; a line end right behind them does not belong to the text, and up to two quotes right before
the closing ones do.
-/

namespace GraphGrammar.Toml.Text

/-- Where in a text with escapes the next character stands. -/
inductive Mode where
  /-- Between characters. -/
  | plain
  /-- Behind a backslash. -/
  | escape
  /-- Among the hexadecimal digits of an escape: `left` and one more are to come, and `value` is what they give
  so far. -/
  | hex (left value : Nat)
  /-- Among the blanks and line ends that a backslash at the end of a line takes out; `ended` tells whether a line
  end was among them. -/
  | fold (ended : Bool)

/-- The character that a letter behind a backslash stands for. -/
def escaped? : Char → Option Char
  | 'b' => some '\x08'
  | 't' => some '\t'
  | 'n' => some '\n'
  | 'f' => some '\x0c'
  | 'r' => some '\r'
  | 'e' => some '\x1b'
  | '"' => some '"'
  | '\\' => some '\\'
  | _ => none

/-- How many hexadecimal digits follow a letter behind a backslash. -/
def hexLength? : Char → Option Nat
  | 'x' => some 2
  | 'u' => some 4
  | 'U' => some 8
  | _ => none

/-- What two more quotes close, behind a first one: the quotes among the next two that still belong to the text, and
what follows them. -/
def closing? (quote : Char) : List Char → Option (List Char × List Char)
  | a :: b :: rest =>
    if a = quote && b = quote then
      let quotes := (rest.take 2).takeWhile (· = quote)
      some (quotes, rest.drop quotes.length)
    else none
  | _ => none

/-- The text up to the closing quotes, behind what is `done` of it in reverse, with what follows the quotes. -/
def withEscapes (multiline : Bool) (done : List Char) : Mode → List Char → Option (List Char × List Char)
  | _, [] => none
  | .plain, '"' :: rest =>
    if !multiline then some (done.reverse, rest)
    else
      match closing? '"' rest with
      | some (quotes, behind) => some (done.reverse ++ quotes, behind)
      | none => withEscapes multiline ('"' :: done) .plain rest
  | .plain, '\\' :: rest => withEscapes multiline done .escape rest
  | .plain, '\r' :: '\n' :: rest =>
    if multiline then withEscapes multiline ('\n' :: '\r' :: done) .plain rest else none
  | .plain, c :: rest =>
    if isPlain c || (multiline && c = '\n') then withEscapes multiline (c :: done) .plain rest else none
  | .escape, c :: rest =>
    match escaped? c, hexLength? c with
    | some d, _ => withEscapes multiline (d :: done) .plain rest
    | none, some n => withEscapes multiline done (.hex (n - 1) 0) rest
    | none, none =>
      if !multiline then none
      else if c = '\n' then withEscapes multiline done (.fold true) rest
      else if isBlank c || (c = '\r' && rest.head? = some '\n') then withEscapes multiline done (.fold false) rest
      else none
  | .hex left value, c :: rest =>
    match digit? 16 c, left with
    | none, _ => none
    | some d, left + 1 => withEscapes multiline done (.hex left (value * 16 + d)) rest
    | some d, 0 =>
      let code := value * 16 + d
      if code.isValidChar then withEscapes multiline (Char.ofNat code :: done) .plain rest else none
  | .fold _, '\n' :: rest => withEscapes multiline done (.fold true) rest
  | .fold _, '\r' :: '\n' :: rest => withEscapes multiline done (.fold true) rest
  | .fold ended, c :: rest =>
    if isBlank c then withEscapes multiline done (.fold ended) rest
    else if !ended then none
    else if c = '\\' then withEscapes multiline done .escape rest
    else if c = '"' then
      match closing? '"' rest with
      | some (quotes, behind) => some (done.reverse ++ quotes, behind)
      | none => withEscapes multiline ('"' :: done) .plain rest
    else if isPlain c then withEscapes multiline (c :: done) .plain rest
    else none

/-- The text up to the three closing single quotes, with what follows them. -/
def literalLines (done : List Char) : List Char → Option (List Char × List Char)
  | [] => none
  | '\'' :: rest =>
    match closing? '\'' rest with
    | some (quotes, behind) => some (done.reverse ++ quotes, behind)
    | none => literalLines ('\'' :: done) rest
  | '\r' :: '\n' :: rest => literalLines ('\n' :: '\r' :: done) rest
  | c :: rest => if isPlain c || c = '\n' then literalLines (c :: done) rest else none

/-- What is left of a text behind a line end it may begin with. -/
def dropLineEnd : List Char → List Char
  | '\n' :: rest => rest
  | '\r' :: '\n' :: rest => rest
  | cs => cs

/-- Text on one line; nothing is taken when no quote stands at the front. -/
def oneLine? : Reader (Option String) := do
  match ← get with
  | '"' :: rest =>
    let (text, rest) ← Reader.lift (withEscapes false [] .plain rest)
    set rest
    return some (String.ofList text)
  | '\'' :: rest =>
    set rest
    let text ← Reader.takeWhile fun c => isPlain c && c ≠ '\''
    Reader.expect "'"
    return some (String.ofList text)
  | _ => return none

/-- Text on one line or on several; nothing is taken when no quote stands at the front. -/
def quoted? : Reader (Option String) := do
  match ← get with
  | '"' :: '"' :: '"' :: rest =>
    let (text, rest) ← Reader.lift (withEscapes true [] .plain (dropLineEnd rest))
    set rest
    return some (String.ofList text)
  | '\'' :: '\'' :: '\'' :: rest =>
    let (text, rest) ← Reader.lift (literalLines [] (dropLineEnd rest))
    set rest
    return some (String.ofList text)
  | _ => oneLine?

end GraphGrammar.Toml.Text
