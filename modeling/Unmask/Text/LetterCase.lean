import Unmask.Text.Basic
import Unmask.Text.CaseTable

/-!
# Letter case

Two ways to ignore case.  Names are compared by their lower-case form, which maps a whole text:
one character may become two, and a capital sigma at the end of a word becomes a final sigma.
Searches compare character by character, by the simple case folding of each.
-/

namespace Unmask.Text

/-- The lower-case image of a character taken alone. -/
def lowerChar (c : Char) : Text :=
  if c.toNat < 0x80 then [c.toLower]
  else if c = 'İ' then ['i', '\u0307']
  else [(imageIn? lowercaseRuns c).getD c]

/-- Whether the first character that is not case-ignorable is cased. -/
def startsCased (s : Text) : Bool :=
  (s.dropWhile (isIn caseIgnorableRanges)).head?.any (isIn casedRanges)

/-- A capital sigma is final behind a cased letter and not in front of one. -/
def lowerSigma (before after : Text) : Char :=
  if startsCased before && !startsCased after then 'ς' else 'σ'

/-- The lower-case form of a text that follows the characters `before`, nearest first. -/
def lowerFrom : (before s : Text) → Text
  | _, [] => []
  | before, c :: s =>
    (if c = 'Σ' then [lowerSigma before s] else lowerChar c) ++ lowerFrom (c :: before) s

def lowercase (s : Text) : Text :=
  lowerFrom [] s

def foldChar (c : Char) : Char :=
  if c.toNat < 0x80 then c.toLower
  else (imageIn? foldRuns c).getD ((imageIn? lowercaseRuns c).getD c)

def sameFolded (c d : Char) : Bool :=
  foldChar c == foldChar d

end Unmask.Text
