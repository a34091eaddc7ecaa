/-!
# JSON tokens

A JSON text is cut into tokens by a machine that reads one character at a time. The text of a string
may name characters by UTF-16 units; a string whose surrogates do not come in adjacent pairs is a
string all the same, but stands for no text. The machine refuses a text as soon as no token can be
completed.
-/

set_option autoImplicit false

namespace Confinement.Json

/-- A piece of a string. -/
inductive Piece where
  /-- A character that stands for itself, or a short escape. -/
  | char (c : Char)
  /-- A UTF-16 unit given by four hexadecimal digits. -/
  | unit (n : Nat)
  deriving DecidableEq, Inhabited

/-- Is a UTF-16 unit the first half of a pair? -/
def isHigh (n : Nat) : Bool := 0xD800 ≤ n ∧ n < 0xDC00

/-- Is a UTF-16 unit the second half of a pair? -/
def isLow (n : Nat) : Bool := 0xDC00 ≤ n ∧ n < 0xE000

/-- The characters that pieces stand for; none when a surrogate is not paired with its neighbour. -/
def chars? : List Piece → Option (List Char)
  | [] => some []
  | .char c :: rest => (chars? rest).map (c :: ·)
  | .unit high :: .unit low :: rest =>
    if isHigh high ∧ isLow low then
      (chars? rest).map (Char.ofNat (0x10000 + (high - 0xD800) * 0x400 + (low - 0xDC00)) :: ·)
    else if isHigh high ∨ isLow high then none
    else (chars? (.unit low :: rest)).map (Char.ofNat high :: ·)
  | .unit n :: rest =>
    if isHigh n ∨ isLow n then none else (chars? rest).map (Char.ofNat n :: ·)

/-- The parts of a number, each named for what was read last. -/
inductive NumberPart where
  | sign | zero | whole | point | fraction | mark | markSign | exponent
  deriving DecidableEq, Inhabited

namespace NumberPart

/-- The part that a character leads to; none when the number cannot go on with it. -/
def next? (part : NumberPart) (c : Char) : Option NumberPart :=
  match part with
  | sign => if c = '0' then some zero else if c.isDigit then some whole else none
  | zero => if c = '.' then some point else if c = 'e' ∨ c = 'E' then some mark else none
  | whole =>
    if c.isDigit then some whole
    else if c = '.' then some point
    else if c = 'e' ∨ c = 'E' then some mark
    else none
  | point => if c.isDigit then some fraction else none
  | fraction =>
    if c.isDigit then some fraction else if c = 'e' ∨ c = 'E' then some mark else none
  | mark =>
    if c = '+' ∨ c = '-' then some markSign else if c.isDigit then some exponent else none
  | markSign => if c.isDigit then some exponent else none
  | exponent => if c.isDigit then some exponent else none

/-- May the number end here? -/
def isComplete : NumberPart → Bool
  | zero => true
  | whole => true
  | fraction => true
  | exponent => true
  | _ => false

end NumberPart

/-- A token. -/
inductive Token where
  | openBrace | closeBrace | openBracket | closeBracket | comma | colon
  | null
  | bool (b : Bool)
  /-- A number; its value when it is written with digits alone. -/
  | number (natural : Option Nat)
  /-- A string; its text when it stands for one. -/
  | string (text : Option String)
  deriving DecidableEq, Inhabited

/-- The words among the tokens. -/
def Token.ofWord? (word : String) : Option Token :=
  if word = "null" then some .null
  else if word = "true" then some (.bool true)
  else if word = "false" then some (.bool false)
  else none

/-- The token of the pieces of a string, the last piece first. -/
def Token.ofPieces (reversed : List Piece) : Token :=
  .string ((chars? reversed.reverse).map String.ofList)

/-- What the machine is in the middle of. Strings keep their pieces with the last one first. -/
inductive Reading where
  /-- Between tokens. -/
  | between
  /-- In a run of letters. -/
  | word (letters : String)
  /-- In a number. -/
  | number (part : NumberPart) (natural : Option Nat)
  /-- In a string. -/
  | string (pieces : List Piece)
  /-- After a backslash. -/
  | escape (pieces : List Piece)
  /-- After some of the four hexadecimal digits of a UTF-16 unit. -/
  | unit (pieces : List Piece) (digits value : Nat)
  deriving DecidableEq, Inhabited

/-- The machine: what it is in the middle of, and the tokens so far with the last one first. -/
structure Lexer where
  reading : Reading
  tokens : List Token
  deriving DecidableEq, Inhabited

namespace Lexer

/-- Nothing is read yet. -/
def start : Lexer := { reading := .between, tokens := [] }

/-- Completes a token. -/
def emit (tokens : List Token) (token : Token) : Lexer :=
  { reading := .between, tokens := token :: tokens }

/-- Takes up a character between tokens. -/
def startToken (tokens : List Token) (c : Char) : Option Lexer :=
  if c = ' ' ∨ c = '\t' ∨ c = '\n' ∨ c = '\r' then some { reading := .between, tokens }
  else if c = '{' then some (emit tokens .openBrace)
  else if c = '}' then some (emit tokens .closeBrace)
  else if c = '[' then some (emit tokens .openBracket)
  else if c = ']' then some (emit tokens .closeBracket)
  else if c = ',' then some (emit tokens .comma)
  else if c = ':' then some (emit tokens .colon)
  else if c = '"' then some { reading := .string [], tokens }
  else if c.isLower then some { reading := .word (String.singleton c), tokens }
  else if c = '-' then some { reading := .number .sign none, tokens }
  else if c = '0' then some { reading := .number .zero (some 0), tokens }
  else if c.isDigit then some { reading := .number .whole (some (c.toNat - 48)), tokens }
  else none

/-- The character that a short escape stands for. -/
def shortEscape? (c : Char) : Option Char :=
  if c = '"' ∨ c = '\\' ∨ c = '/' then some c
  else if c = 'b' then some '\x08'
  else if c = 'f' then some '\x0c'
  else if c = 'n' then some '\n'
  else if c = 'r' then some '\r'
  else if c = 't' then some '\t'
  else none

/-- The value of a hexadecimal digit. -/
def hexDigit? (c : Char) : Option Nat :=
  if c.isDigit then some (c.toNat - 48)
  else if 'a' ≤ c ∧ c ≤ 'f' then some (c.toNat - 87)
  else if 'A' ≤ c ∧ c ≤ 'F' then some (c.toNat - 55)
  else none

/-- The value of a number after one more character: digits alone have one. -/
def extend (part : NumberPart) (natural : Option Nat) (c : Char) : Option Nat :=
  match part with
  | .whole => natural.map fun n => 10 * n + (c.toNat - 48)
  | _ => none

/-- Takes up a character. -/
def step (lexer : Lexer) (c : Char) : Option Lexer :=
  match lexer.reading with
  | .between => startToken lexer.tokens c
  | .word letters =>
    if c.isLower then some { lexer with reading := .word (letters.push c) }
    else (Token.ofWord? letters).bind fun token => startToken (token :: lexer.tokens) c
  | .number part natural =>
    match part.next? c with
    | some next => some { lexer with reading := .number next (extend next natural c) }
    -- A number has no closing mark: the character behind it starts the next token.
    | none => if part.isComplete then startToken (.number natural :: lexer.tokens) c else none
  | .string pieces =>
    if c = '"' then some (emit lexer.tokens (.ofPieces pieces))
    else if c = '\\' then some { lexer with reading := .escape pieces }
    else if c.toNat < 0x20 then none
    else some { lexer with reading := .string (.char c :: pieces) }
  | .escape pieces =>
    if c = 'u' then some { lexer with reading := .unit pieces 0 0 }
    else (shortEscape? c).map fun e => { lexer with reading := .string (.char e :: pieces) }
  | .unit pieces digits value =>
    (hexDigit? c).map fun d =>
      let value := 16 * value + d
      { lexer with
        reading := if digits = 3 then .string (.unit value :: pieces)
          else .unit pieces (digits + 1) value }

/-- The tokens at the end of the text. -/
def finish (lexer : Lexer) : Option (List Token) :=
  match lexer.reading with
  | .between => some lexer.tokens.reverse
  | .word letters => (Token.ofWord? letters).map fun token => (token :: lexer.tokens).reverse
  | .number part natural =>
    if part.isComplete then some (.number natural :: lexer.tokens).reverse else none
  | _ => none

end Lexer

/-- The tokens of a text. -/
def tokens? (text : String) : Option (List Token) :=
  (text.toList.foldlM Lexer.step Lexer.start).bind Lexer.finish

end Confinement.Json
