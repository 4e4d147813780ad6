import HttpEcho.Text.Basic

/-!
# Comparing names without regard to ASCII case
-/

namespace HttpEcho.Text

/-- Only `A` to `Z` have a lower-case partner here: `É` and `é` stay different. -/
def lowerAscii (t : Text) : Text := t.map Char.toLower

def SameName (a b : Text) : Prop := lowerAscii a = lowerAscii b

instance (a b : Text) : Decidable (SameName a b) := inferInstanceAs (Decidable (_ = _))

@[refl] theorem SameName.refl (a : Text) : SameName a a := Eq.refl (lowerAscii a)

theorem SameName.symm {a b : Text} (h : SameName a b) : SameName b a := Eq.symm h

theorem SameName.trans {a b c : Text} (hab : SameName a b) (hbc : SameName b c) : SameName a c :=
  Eq.trans hab hbc

end HttpEcho.Text
