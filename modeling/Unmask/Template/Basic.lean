import Unmask.Text.Numeral

/-!
# Templates

A template is a text cut into pieces.  A piece is literal text or a reference to a variable, and
keeps the token it was read from.  A reference may modify the value that it stands for: by a
slice, by a fallback for a missing value, or by a replacement.
-/

namespace Unmask

/-- Which references a text may hold. -/
inductive Dialect where
  /-- Command lines: `%NAME%`. -/
  | percent
  /-- Command lines with delayed expansion: `!NAME!` as well. -/
  | delayed
  /-- INF files: plain `%KEY%`, and `%%` for a percent sign. -/
  | inf
deriving DecidableEq, Repr

/-- What a reference does with the value of its variable. -/
inductive Modifier where
  /-- The value itself. -/
  | whole
  /-- The characters from `start` on, to the end or as `length` says. -/
  | slice (start : Int) (length : Option Int)
  /-- Another text where the value is missing or empty. -/
  | fallback (text : Text)
  /-- The value with `replacement` for what `search` finds. -/
  | replace (search replacement : Text)
deriving DecidableEq, Repr

structure Reference where
  name : Text
  modifier : Modifier
deriving DecidableEq, Repr

/-- What a piece of a template says. -/
inductive Expr where
  | literal (text : Text)
  | reference (reference : Reference)
deriving DecidableEq, Repr

/-- A piece of a template beside the token it was read from. -/
structure Piece where
  token : Text
  expr : Expr
deriving DecidableEq, Repr

/-- A text cut into pieces. -/
abbrev Template := List Piece

namespace Reference

/-- Writes a reference between percent signs, with its offsets in decimal. -/
def toText (r : Reference) : Text :=
  match r.modifier with
  | .whole => '%' :: r.name ++ ['%']
  | .slice start none => '%' :: r.name ++ ":~".toList ++ Text.ofInt start ++ ['%']
  | .slice start (some length) =>
    '%' :: r.name ++ ":~".toList ++ Text.ofInt start ++ ',' :: Text.ofInt length ++ ['%']
  | .fallback text => '%' :: r.name ++ ":-".toList ++ text ++ ['%']
  | .replace search replacement => '%' :: r.name ++ ':' :: search ++ '=' :: replacement ++ ['%']

end Reference

namespace Expr

/-- Writes literal text as it is and a reference between percent signs. -/
def toText : Expr → Text
  | .literal text => text
  | .reference r => r.toText

def reference? : Expr → Option Reference
  | .literal _ => none
  | .reference r => some r

end Expr

namespace Template

def references (t : Template) : List Reference :=
  t.filterMap fun piece => piece.expr.reference?

/-- A template without references. -/
def isPlain (t : Template) : Bool :=
  t.references.isEmpty

end Template

end Unmask
