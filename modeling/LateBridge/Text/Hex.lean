/-!
# Text/Hex — hexadecimal digits of a 16-bit number
-/

namespace LateBridge.Text

/-- The last four hexadecimal digits of a number, in small letters. -/
def fourHex (n : Nat) : String :=
  String.ofList [Nat.digitChar (n / 4096 % 16), Nat.digitChar (n / 256 % 16),
    Nat.digitChar (n / 16 % 16), Nat.digitChar (n % 16)]

/-- The last four hexadecimal digits of a number, in capitals. -/
def fourHexCapitals (n : Nat) : String := (fourHex n).map Char.toUpper

end LateBridge.Text
