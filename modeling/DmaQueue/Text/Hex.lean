/-
  DmaQueue.Text.Hex

  Hexadecimal text of numbers, as error messages and trace lines show it:
  lower case, with the `0x` mark, or padded with zeros to a fixed width.
-/

namespace DmaQueue.Hex

/-- The hexadecimal digits of `n`, lower case, with no leading zero; `0` has the one digit `0`. -/
def digits (n : Nat) : String :=
  String.ofList (Nat.toDigits 16 n)

/-- The digits of `n` after the mark `0x`. -/
def marked (n : Nat) : String :=
  "0x" ++ digits n

/-- The digits of `n`, filled up on the left with zeros to at least `width` of them. -/
def padded (width n : Nat) : String :=
  let shown := Nat.toDigits 16 n
  String.ofList (List.replicate (width - shown.length) '0' ++ shown)

end DmaQueue.Hex
