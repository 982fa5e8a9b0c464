/-
  MagneticBearing.Text.Layout — text set in a column of a given width.

  Widths count characters. A text that is too long stays whole; the odd blank of a centred text
  goes to its right.
-/

namespace MagneticBearing.Text

def fill (c : Char) (n : Nat) : String := String.ofList (List.replicate n c)

def padRight (width : Nat) (s : String) (c : Char) : String := s ++ fill c (width - s.length)

def leftIn (width : Nat) (s : String) : String := padRight width s ' '

def centredWith (c : Char) (width : Nat) (s : String) : String :=
  let pad := width - s.length
  fill c (pad / 2) ++ s ++ fill c (pad - pad / 2)

def centredIn (width : Nat) (s : String) : String := centredWith ' ' width s

end MagneticBearing.Text
