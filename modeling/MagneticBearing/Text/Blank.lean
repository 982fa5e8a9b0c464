/-
  MagneticBearing.Text.Blank — blanks, words and lines.

  A blank is a character with Unicode's White_Space property. Words are the longest runs of
  other characters. A line ends at a line feed, and a carriage return right before that
  belongs to the end; text after the last line feed is a line of its own if there is any.
-/

namespace MagneticBearing.Text

/-- The ranges of White_Space, first and last. -/
def blankRanges : List (Nat × Nat) :=
  [(0x9, 0xD), (0x20, 0x20), (0x85, 0x85), (0xA0, 0xA0), (0x1680, 0x1680), (0x2000, 0x200A),
    (0x2028, 0x2029), (0x202F, 0x202F), (0x205F, 0x205F), (0x3000, 0x3000)]

def isBlank (c : Char) : Bool := blankRanges.any fun r => r.1 ≤ c.toNat && c.toNat ≤ r.2

/-- The pieces between the characters at which `cut` holds, empty ones included. -/
def split (cut : Char → Bool) : List Char → List (List Char)
  | [] => [[]]
  | c :: cs =>
    if cut c then [] :: split cut cs
    else
      match split cut cs with
      | [] => [[c]]
      | piece :: pieces => (c :: piece) :: pieces

def wordLists (cs : List Char) : List (List Char) := (split isBlank cs).filter fun w => !w.isEmpty

def words (s : String) : List String := (wordLists s.toList).map String.ofList

def dropEnd (drop : Char → Bool) (cs : List Char) : List Char := (cs.reverse.dropWhile drop).reverse

def trim (s : String) : String := String.ofList (dropEnd isBlank (s.toList.dropWhile isBlank))

/-- Without the carriage returns and line feeds at its end. -/
def chomp (s : String) : String := String.ofList (dropEnd (fun c => c == '\r' || c == '\n') s.toList)

@[simp] theorem chomp_empty : chomp "" = "" := rfl

/-- Does `needle` stand somewhere in the text? -/
def holds (needle : List Char) : List Char → Bool
  | [] => needle.isEmpty
  | c :: cs => needle.isPrefixOf (c :: cs) || holds needle cs

def dropReturn (line : List Char) : List Char := if line.getLast? = some '\r' then line.dropLast else line

/-- The lines of a text; the last piece is a line only if it is not empty. -/
def lineLists : List (List Char) → List (List Char)
  | [] => []
  | [last] => if last.isEmpty then [] else [last]
  | line :: rest => dropReturn line :: lineLists rest

def lines (s : String) : List String := (lineLists (split (· == '\n') s.toList)).map String.ofList

end MagneticBearing.Text
