/-
# Hexadecimal — numbers in base sixteen, padded with zeros
-/

namespace PixelPipeline

/-- Hexadecimal digits of a number, lower case, at least `width` of them. -/
def lowerHex (width n : Nat) : String :=
  let digits := Nat.toDigits 16 n
  String.ofList (List.replicate (width - digits.length) '0' ++ digits)

/-- Hexadecimal digits of a number, upper case, at least `width` of them. -/
def upperHex (width n : Nat) : String := (lowerHex width n).map Char.toUpper

end PixelPipeline
