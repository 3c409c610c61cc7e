import LobEngine.Lib.Double

/-!
# JSON values

What a parser makes of a JSON text. A number is kept as it is written: digits alone are an integer of any size, and
with a fraction or an exponent it is the double that it denotes. The fields of an object stand in the order of the
text, and a name can stand there twice.
-/

namespace Lob

inductive JsonNumber where
  /-- Digits, and a minus before them. -/
  | int (n : Int)
  /-- With a fraction or an exponent, as `1.0` or `1e0`. -/
  | float (n : Num)

inductive Json where
  | null
  | bool (b : Bool)
  | num (n : JsonNumber)
  | str (s : String)
  | arr (items : List Json)
  | obj (fields : List (String × Json))

end Lob
