import HttpEcho.Json.Number

/-!
# Lexemes

A document is cut into marks, quoted strings and words. A word is a maximal run of anything else, so
two scalars without a mark between them are one word, which no scalar is written as.
-/

namespace HttpEcho.Json

inductive Lexeme
  /-- One of the six structural characters. -/
  | mark (c : Char)
  /-- What stands between two quotes, escapes not yet read. -/
  | quoted (raw : Text)
  | word (t : Text)
  deriving DecidableEq, Repr

def isSpace (c : Char) : Bool := c = ' ' || c = '\t' || c = '\n' || c = '\r'

def isMark (c : Char) : Bool :=
  c = '[' || c = ']' || c = '\x7b' || c = '\x7d' || c = ',' || c = ':'

def isWordChar (c : Char) : Bool := !isSpace c && !isMark c && c ≠ '"'

/-- The text up to the closing quote, and what follows the quote. A character after a backslash does
not close. -/
def quotedPart? : Text → Option (Text × Text)
  | [] => none
  | '"' :: rest => some ([], rest)
  | '\\' :: c :: rest => (quotedPart? rest).map fun (raw, rest) => ('\\' :: c :: raw, rest)
  | c :: rest => (quotedPart? rest).map fun (raw, rest) => (c :: raw, rest)

theorem length_of_quotedPart? {t raw rest : Text} (h : quotedPart? t = some (raw, rest)) :
    rest.length < t.length := by
  fun_induction quotedPart? t generalizing raw rest with
  | case1 => simp at h
  | case2 => simp_all
  | case3 c t ih =>
    obtain ⟨⟨r, s⟩, hcut, heq⟩ := Option.map_eq_some_iff.1 h
    simp only [Prod.mk.injEq] at heq
    have := ih hcut
    simp only [List.length_cons, ← heq.2]
    omega
  | case4 c t _ _ ih =>
    obtain ⟨⟨r, s⟩, hcut, heq⟩ := Option.map_eq_some_iff.1 h
    simp only [Prod.mk.injEq] at heq
    have := ih hcut
    simp only [List.length_cons, ← heq.2]
    omega

def lexemes? : Text → Option (List Lexeme)
  | [] => some []
  | c :: rest =>
    if isSpace c then lexemes? rest
    else if isMark c then (lexemes? rest).map (.mark c :: ·)
    else if c = '"' then
      match _h : quotedPart? rest with
      | none => none
      | some (raw, after) => (lexemes? after).map (.quoted raw :: ·)
    else
      (lexemes? (rest.dropWhile isWordChar)).map (.word (c :: rest.takeWhile isWordChar) :: ·)
termination_by t => t.length
decreasing_by
  · simp
  · simp
  · have := length_of_quotedPart? _h
    simp only [List.length_cons]
    omega
  · have := (List.dropWhile_suffix (l := rest) isWordChar).length_le
    simp only [List.length_cons]
    omega

def ofWord? (t : Text) : Option Json :=
  if t = "null".toList then some .null
  else if t = "true".toList then some (.bool true)
  else if t = "false".toList then some (.bool false)
  else (Numeral.ofText? t).bind Numeral.value?

end HttpEcho.Json
