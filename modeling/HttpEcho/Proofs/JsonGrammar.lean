import HttpEcho.Json.Number
import HttpEcho.Json.Quoted

/-!
# The grammar of documents

Which text is a document, and for which value, without regard to how it is read. A number is split into its
parts and a string into the characters that are written in it. A document holds its parts with white space
around each.
-/

namespace HttpEcho.Json

def IsSpacing (t : Text) : Prop := ∀ c ∈ t, c ∈ [' ', '\t', '\n', '\r']

theorem isSpacing_nil : IsSpacing [] := fun c hc => by cases hc

theorem isSpacing_cons {c : Char} {space : Text} (hc : c ∈ [' ', '\t', '\n', '\r'])
    (hspace : IsSpacing space) : IsSpacing (c :: space) :=
  List.forall_mem_cons.mpr ⟨hc, hspace⟩

/-! ### Strings -/

/-- The letters behind a backslash, with the characters that they stand for. -/
def escapeLetters : List (Char × Char) :=
  [('"', '"'), ('\\', '\\'), ('/', '/'), ('b', '\x08'), ('f', '\x0C'), ('n', '\n'), ('r', '\r'),
    ('t', '\t')]

/-- A character as it stands between quotes. Its number may be written in hexadecimal digits, and above
U+FFFF as two numbers that are kept for this. -/
inductive WrittenChar : Text → Char → Prop
  | plain {c : Char} (hlow : 0x20 ≤ c.toNat) (hquote : c ≠ '"') (hslash : c ≠ '\\') :
    WrittenChar [c] c
  | letter {l c : Char} (h : (l, c) ∈ escapeLetters) : WrittenChar ['\\', l] c
  | number {a b c d : Char} {n : Nat} (h : unit? a b c d = some n) (hn : n < 0xD800 ∨ 0xE000 ≤ n) :
    WrittenChar ['\\', 'u', a, b, c, d] (Char.ofNat n)
  | pair {a b c d a' b' c' d' : Char} {high low : Nat} (h : unit? a b c d = some high)
    (hhigh : 0xD800 ≤ high ∧ high < 0xDC00) (h' : unit? a' b' c' d' = some low)
    (hlow : 0xDC00 ≤ low ∧ low < 0xE000) :
    WrittenChar ['\\', 'u', a, b, c, d, '\\', 'u', a', b', c', d']
      (Char.ofNat (0x10000 + (high - 0xD800) * 0x400 + (low - 0xDC00)))

inductive WrittenString : Text → Text → Prop
  | nil : WrittenString [] []
  | cons {part raw s : Text} {c : Char} (hpart : WrittenChar part c) (h : WrittenString raw s) :
    WrittenString (part ++ raw) (c :: s)

/-! ### Numbers -/

def digitText (ds : List Nat) : Text := ds.map Nat.digitChar

inductive WrittenExponent : Text → Option (Bool × List Nat) → Prop
  | none : WrittenExponent [] none
  | power {mark : Char} {sign : Text} {negative : Bool} {ds : List Nat} (hmark : mark = 'e' ∨ mark = 'E')
    (hsign : (sign, negative) ∈ [([], false), (['+'], false), (['-'], true)]) (hne : ds ≠ [])
    (hds : ∀ d ∈ ds, d < 10) :
    WrittenExponent (mark :: sign ++ digitText ds) (some (negative, ds))

structure WrittenNumber (t : Text) (n : Numeral) : Prop where
  whole_ne_nil : n.whole ≠ []
  no_leading_zero : n.whole.head? = some 0 → n.whole = [0]
  whole_lt : ∀ d ∈ n.whole, d < 10
  fraction_lt : ∀ d ∈ n.fraction, d < 10
  text_eq : ∃ exponent, WrittenExponent exponent n.exponent ∧
    t = (if n.negative then ['-'] else []) ++ digitText n.whole ++
      (if n.fraction = [] then [] else '.' :: digitText n.fraction) ++ exponent

/-! ### Values -/

inductive WrittenWord : Text → Json → Prop
  | null : WrittenWord "null".toList .null
  | true : WrittenWord "true".toList (.bool true)
  | false : WrittenWord "false".toList (.bool false)
  | number {t : Text} {n : Numeral} {v : Json} (h : WrittenNumber t n) (hv : n.value? = some v) :
    WrittenWord t v

/-- A key with the white space around it. -/
def WrittenKey (t key : Text) : Prop :=
  ∃ before raw after, t = before ++ '"' :: raw ++ '"' :: after ∧ IsSpacing before ∧
    WrittenString raw key ∧ IsSpacing after

/-- A key and a value, each with its text. -/
structure Member where
  keyText : Text
  key : Text
  valueText : Text
  value : Json

def Member.text (m : Member) : Text := m.keyText ++ ':' :: m.valueText

def Member.entry (m : Member) : Text × Json := (m.key, m.value)

/-- The text is a document for the value, and its containers nest at most so deep. -/
inductive IsDocument : Nat → Text → Json → Prop
  | word (depth : Nat) {t : Text} {v : Json} (h : WrittenWord t v) : IsDocument depth t v
  | string (depth : Nat) {raw s : Text} (h : WrittenString raw s) :
    IsDocument depth ('"' :: raw ++ ['"']) (.str s)
  | emptyArray (depth : Nat) {space : Text} (hspace : IsSpacing space) :
    IsDocument (depth + 1) ('[' :: space ++ [']']) (.arr [])
  | array {depth : Nat} {first : Text × Json} {more : List (Text × Json)}
    (hfirst : IsDocument depth first.1 first.2) (hmore : ∀ item ∈ more, IsDocument depth item.1 item.2) :
    IsDocument (depth + 1) ('[' :: first.1 ++ more.flatMap (fun item => ',' :: item.1) ++ [']'])
      (.arr (first.2 :: more.map Prod.snd))
  | emptyObject (depth : Nat) {space : Text} (hspace : IsSpacing space) :
    IsDocument (depth + 1) ('\x7b' :: space ++ ['\x7d']) (.obj [])
  | object {depth : Nat} {first : Member} {more : List Member} (hkey : WrittenKey first.keyText first.key)
    (hfirst : IsDocument depth first.valueText first.value)
    (hkeys : ∀ m ∈ more, WrittenKey m.keyText m.key)
    (hmore : ∀ m ∈ more, IsDocument depth m.valueText m.value) :
    IsDocument (depth + 1) ('\x7b' :: first.text ++ more.flatMap (fun m => ',' :: m.text) ++ ['\x7d'])
      (.obj (Entries.ofList (first.entry :: more.map Member.entry)))
  | spaced {depth : Nat} {before t after : Text} {v : Json} (hbefore : IsSpacing before)
    (h : IsDocument depth t v) (hafter : IsSpacing after) : IsDocument depth (before ++ t ++ after) v

namespace IsDocument

variable {depth : Nat} {t : Text} {v : Json}

theorem prepend_spacing {space : Text} (h : IsDocument depth t v) (hspace : IsSpacing space) :
    IsDocument depth (space ++ t) v := by
  have hspaced := spaced hspace h isSpacing_nil
  rwa [List.append_nil] at hspaced

theorem append_spacing {space : Text} (h : IsDocument depth t v) (hspace : IsSpacing space) :
    IsDocument depth (t ++ space) v :=
  .spaced isSpacing_nil h hspace

end IsDocument

end HttpEcho.Json
