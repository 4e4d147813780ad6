import HttpEcho.Entries
import HttpEcho.Text.Basic

/-!
# JSON values
-/

namespace HttpEcho

/-- A JSON value. Members stand in order, and the reader gives no key twice. -/
inductive Json
  | null
  | bool (b : Bool)
  | int (n : Int)
  | float (x : Float)
  | str (s : Text)
  | arr (items : List Json)
  | obj (members : List (Text × Json))

namespace Json

/-- Whole numbers are kept exactly from `-2 ^ 63` to `2 ^ 64 - 1`. -/
def IntInRange (n : Int) : Prop := -9223372036854775808 ≤ n ∧ n ≤ 18446744073709551615

instance (n : Int) : Decidable (IntInRange n) := inferInstanceAs (Decidable (_ ∧ _))

def maxDepth : Nat := 127

end Json

end HttpEcho
