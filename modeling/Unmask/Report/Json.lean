import Unmask.Report.Number

/-!
# JSON

The texts of a report.  A text is cut into tokens, and a machine with a stack of open containers
takes the tokens in order.  At most 127 containers may be open at once.  What a number is worth
is not kept.
-/

namespace Unmask.Report

inductive Json where
  | null
  | bool (b : Bool)
  | number
  | string (s : Text)
  | array (items : List Json)
  | object (members : List (Text × Json))
deriving Repr

namespace Json

/-- The value of the last member with a name. -/
def member? (name : String) : Json → Option Json
  | object members => (members.reverse.find? fun (key, _) => key = name.toList).map Prod.snd
  | _ => none

def string? : Json → Option Text
  | string s => some s
  | _ => none

/-! ## Tokens -/

/-- What a JSON text is made of. -/
inductive Token where
  | beginArray
  | endArray
  | beginObject
  | endObject
  | colon
  | comma
  | string (s : Text)
  /-- A number or one of the literals. -/
  | scalar (value : Json)
deriving Repr

def readHex? (a b c d : Char) : Option Nat :=
  Text.readNat? 16 [a, b, c, d]

/-- The character that a letter stands for behind a backslash. -/
def escaped? (c : Char) : Option Char :=
  match c with
  | '"' => some '"'
  | '\\' => some '\\'
  | '/' => some '/'
  | 'b' => some '\x08'
  | 'f' => some '\x0c'
  | 'n' => some '\n'
  | 'r' => some '\r'
  | 't' => some '\t'
  | _ => none

/-- Whether a number is one of the surrogates from `least` on. -/
def isSurrogateFrom (least n : Nat) : Bool :=
  least ≤ n && n < least + 0x400

/--
One character of a string behind a backslash and `u`, and how many characters of `s` it takes.
-/
def readUnicode? : Text → Option (Char × Nat)
  | a :: b :: c :: d :: s => do
    let n ← readHex? a b c d
    if isSurrogateFrom 0xD800 n then
      match s with
      | '\\' :: 'u' :: a :: b :: c :: d :: _ =>
        let m ← readHex? a b c d
        if isSurrogateFrom 0xDC00 m then
          return (Char.ofNat (0x10000 + (n - 0xD800) * 0x400 + (m - 0xDC00)), 10)
        else none
      | _ => none
    else if isSurrogateFrom 0xDC00 n then none
    else return (Char.ofNat n, 4)
  | _ => none

/--
The text of a string behind its opening quote, and what follows its closing quote.  Control
characters have to be escaped.
-/
def readString? : Text → Option (Text × Text)
  | [] => none
  | c :: s =>
    if c = '"' then some ([], s)
    else if c.toNat < 0x20 then none
    else if c = '\\' then
      match s with
      | [] => none
      | 'u' :: s => do
        let (c, width) ← readUnicode? s
        let (text, rest) ← readString? (s.drop width)
        return (c :: text, rest)
      | e :: s => do
        let c ← escaped? e
        let (text, rest) ← readString? s
        return (c :: text, rest)
    else (readString? s).map fun (text, rest) => (c :: text, rest)
termination_by s => s.length
decreasing_by all_goals simp only [List.length_drop, List.length_cons]; omega

/-- The white space of JSON. -/
def isSpace (c : Char) : Bool :=
  c == ' ' || c == '\t' || c == '\n' || c == '\r'

/-- The token at the head of the text `c :: s`, and what follows it. -/
def firstToken? (c : Char) (s : Text) : Option (Token × Text) :=
  match c with
  | '[' => some (.beginArray, s)
  | ']' => some (.endArray, s)
  | '\x7b' => some (.beginObject, s)
  | '\x7d' => some (.endObject, s)
  | ':' => some (.colon, s)
  | ',' => some (.comma, s)
  | '"' => (readString? s).map fun (text, rest) => (.string text, rest)
  | 'n' => (Text.stripStart? "ull".toList s).map (Token.scalar null, ·)
  | 't' => (Text.stripStart? "rue".toList s).map (Token.scalar (bool true), ·)
  | 'f' => (Text.stripStart? "alse".toList s).map (Token.scalar (bool false), ·)
  | '-' => (dropNumber? s).map (Token.scalar number, ·)
  | c => (dropNumber? (c :: s)).map (Token.scalar number, ·)

def tokens? : Text → Option (List Token)
  | [] => some []
  | c :: s =>
    if isSpace c then tokens? s
    else do
      let (token, rest) ← firstToken? c s
      let tokens ← tokens? (s.drop (s.length - rest.length))
      return token :: tokens
termination_by s => s.length
decreasing_by all_goals simp only [List.length_drop, List.length_cons]; omega

/-! ## Values -/

/-- A container that is still open, with what it holds so far, the last first. -/
inductive Frame where
  | array (items : List Json)
  /-- An object whose member `key` is being read. -/
  | object (members : List (Text × Json)) (key : Text)
deriving Repr

/-- What the machine waits for inside the open containers. -/
inductive State where
  /-- A value. -/
  | value (stack : List Frame)
  /-- The first item of an array, or its end. -/
  | firstItem (stack : List Frame)
  /-- The first key of an object, or its end. -/
  | firstKey (stack : List Frame)
  /-- Another key. -/
  | nextKey (stack : List Frame) (members : List (Text × Json))
  /-- The colon behind a key. -/
  | colon (stack : List Frame) (members : List (Text × Json)) (key : Text)
  /-- A comma or the end of the container behind a value. -/
  | after (stack : List Frame) (value : Json)
deriving Repr

namespace State

def greatestDepth : Nat := 127

/-- Takes the first token of a value. -/
def begin? (stack : List Frame) : Token → Option State
  | .scalar v => some (after stack v)
  | .string s => some (after stack (.string s))
  | .beginArray => if stack.length < greatestDepth then some (firstItem stack) else none
  | .beginObject => if stack.length < greatestDepth then some (firstKey stack) else none
  | _ => none

def step? : State → Token → Option State
  | value stack, token => begin? stack token
  | firstItem stack, .endArray => some (after stack (.array []))
  | firstItem stack, token => begin? (.array [] :: stack) token
  | firstKey stack, .endObject => some (after stack (.object []))
  | firstKey stack, .string key => some (colon stack [] key)
  | nextKey stack members, .string key => some (colon stack members key)
  | colon stack members key, .colon => some (value (.object members key :: stack))
  | after (.array items :: stack) v, .comma => some (value (.array (v :: items) :: stack))
  | after (.array items :: stack) v, .endArray => some (after stack (.array (v :: items).reverse))
  | after (.object members key :: stack) v, .comma =>
    some (nextKey stack ((key, v) :: members))
  | after (.object members key :: stack) v, .endObject =>
    some (after stack (.object ((key, v) :: members).reverse))
  | _, _ => none

def finish? : State → Option Json
  | after [] v => some v
  | _ => none

end State

def read? (s : Text) : Option Json := do
  let tokens ← tokens? s
  let state ← tokens.foldlM State.step? (.value [])
  state.finish?

end Json

end Unmask.Report
