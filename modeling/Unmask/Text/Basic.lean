/-!
# Text

A text is a list of characters.  Every reader of this library walks it from left to right, and
every count or offset is a count of characters unless it says bytes.

This module holds the character classes, trimming, the search for a pattern, and the cutting of
a text into parts, words and lines.  Searches take the first occurrence from the left and go on
behind it, so occurrences never overlap.
-/

namespace Unmask

abbrev Text := List Char

namespace Text

/-! ## Character classes -/

/-- The Unicode property White_Space. -/
def isSpace (c : Char) : Bool :=
  let n := c.toNat
  (9 ≤ n && n ≤ 13) || n == 0x20 || n == 0x85 || n == 0xA0 || n == 0x1680 ||
    (0x2000 ≤ n && n ≤ 0x200A) || n == 0x2028 || n == 0x2029 || n == 0x202F || n == 0x205F ||
    n == 0x3000

/-- A blank is a space or a tab. -/
def isBlank (c : Char) : Bool :=
  c == ' ' || c == '\t'

/-- The characters that end a line. -/
def isBreak (c : Char) : Bool :=
  c == '\n' || c == '\r'

/-- The upper-case letters `A` to `Z` become lower case; all else stays. -/
def asciiLower (s : Text) : Text :=
  s.map Char.toLower

/-! ## Trimming and stripping -/

def trimStart (s : Text) : Text :=
  s.dropWhile isSpace

def trimEnd (s : Text) : Text :=
  (s.reverse.dropWhile isSpace).reverse

def trim (s : Text) : Text :=
  trimEnd (trimStart s)

/-- What follows `start` in a text that begins with it. -/
def stripStart? : (start s : Text) → Option Text
  | [], s => some s
  | _ :: _, [] => none
  | a :: start, c :: s => if a = c then stripStart? start s else none

/-- What precedes the character `c` in a text that ends with it. -/
def stripLast? (c : Char) (s : Text) : Option Text :=
  match s.reverse with
  | [] => none
  | d :: r => if d = c then some r.reverse else none

/-- One pair of `mark`s around a text is taken off. -/
def unquote? (mark : Char) : Text → Option Text
  | [] => none
  | c :: s => if c = mark then stripLast? mark s else none

/-! ## Occurrences of a pattern -/

/-- What follows `pattern` at the head of a text, characters being compared by `same`. -/
def dropMatch? (same : Char → Char → Bool) : (pattern s : Text) → Option Text
  | [], s => some s
  | _ :: _, [] => none
  | p :: pattern, c :: s => if same p c then dropMatch? same pattern s else none

/--
Puts `replacement` in place of each occurrence of `pattern`, found from left to right without
overlap. The first `skip` characters belong to an occurrence already replaced.
-/
def replaceFrom (same : Char → Char → Bool) (pattern replacement : Text) :
    (skip : Nat) → Text → Text
  | _, [] => []
  | skip + 1, _ :: s => replaceFrom same pattern replacement skip s
  | 0, c :: s =>
    match dropMatch? same pattern (c :: s) with
    | some _ => replacement ++ replaceFrom same pattern replacement (pattern.length - 1) s
    | none => c :: replaceFrom same pattern replacement 0 s

/-- Puts `replacement` in place of each occurrence of a non-empty `pattern`. -/
def replaceAll (same : Char → Char → Bool) (pattern replacement s : Text) : Text :=
  replaceFrom same pattern replacement 0 s

/-- What follows the first occurrence of a non-empty `pattern`. -/
def afterFirst? (same : Char → Char → Bool) (pattern : Text) : Text → Option Text
  | [] => none
  | c :: s =>
    match dropMatch? same pattern (c :: s) with
    | some rest => some rest
    | none => afterFirst? same pattern s

/-! ## Cutting into parts

What is put together from parts and cut at single elements may be a text or a sequence of bytes.
-/

section
variable {α : Type}

/-- Puts an element in front of the first part. -/
def consFirst (c : α) : List (List α) → List (List α)
  | [] => [[c]]
  | part :: parts => (c :: part) :: parts

/-- The parts in order with `sep` between neighbours. -/
def join (sep : List α) : List (List α) → List α
  | [] => []
  | [part] => part
  | part :: next :: parts => part ++ sep ++ join sep (next :: parts)

/-- The parts between the elements of a class. -/
def fields (stop : α → Bool) : List α → List (List α)
  | [] => [[]]
  | c :: s => if stop c then [] :: fields stop s else consFirst c (fields stop s)

end

/--
The parts of a text between the occurrences of a non-empty `sep`.  The first `skip` characters
belong to an occurrence already found.
-/
def splitFrom (sep : Text) : (skip : Nat) → Text → List Text
  | _, [] => [[]]
  | skip + 1, _ :: s => splitFrom sep skip s
  | 0, c :: s =>
    match stripStart? sep (c :: s) with
    | some _ => [] :: splitFrom sep (sep.length - 1) s
    | none => consFirst c (splitFrom sep 0 s)

/-- The parts of a text between the occurrences of a non-empty `sep`. -/
def splitOn (sep s : Text) : List Text :=
  splitFrom sep 0 s

/-- The words of a text: its maximal runs without white space. -/
def words (s : Text) : List Text :=
  (fields isSpace s).filter (!·.isEmpty)

/--
The lines of a text, cut at LF, CR and CR LF; a break at the end is followed by an empty line.
-/
def lines : Text → List Text
  | [] => [[]]
  | '\r' :: '\n' :: s => [] :: lines s
  | c :: s => if isBreak c then [] :: lines s else consFirst c (lines s)

theorem stripStart?_eq_some {start s rest : Text} :
    stripStart? start s = some rest ↔ s = start ++ rest := by
  induction start generalizing s with
  | nil =>
    rw [stripStart?, Option.some.injEq]
    rfl
  | cons a start ih =>
    cases s with
    | nil => simp [stripStart?]
    | cons c s =>
      rw [stripStart?]
      by_cases hac : a = c
      · rw [if_pos hac, ih, hac, List.cons_append, List.cons.injEq]
        exact (and_iff_right rfl).symm
      · rw [if_neg hac, List.cons_append, List.cons.injEq]
        exact ⟨(by cases ·), fun h => absurd h.1.symm hac⟩

theorem drop_pred_length {c : Char} {s part rest : Text} (hne : part ≠ [])
    (h : part ++ rest = c :: s) : s.drop (part.length - 1) = rest := by
  cases part with
  | nil => exact absurd rfl hne
  | cons a part =>
    rw [List.cons_append, List.cons.injEq] at h
    rw [← h.2, List.length_cons, Nat.add_sub_cancel, List.drop_left]

/-- What stands in front of a character is all of a start that does not hold that character. -/
theorem isPrefix_of_notMem {start s rest : Text} {c : Char} (h : start <+: s ++ c :: rest)
    (hc : c ∉ start) : start <+: s := by
  rcases List.prefix_or_prefix_of_prefix h (List.prefix_append s (c :: rest)) with hs | ⟨t, rfl⟩
  · exact hs
  · cases t with
    | nil => simp
    | cons d t =>
      obtain ⟨rfl, -⟩ := List.cons_prefix_cons.1 ((List.prefix_append_right_inj s).1 h)
      exact absurd (List.mem_append_right s List.mem_cons_self) hc

end Text

end Unmask
