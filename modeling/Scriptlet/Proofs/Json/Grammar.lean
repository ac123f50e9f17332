import Scriptlet.Proofs.Text.Pieces
import Scriptlet.Proofs.Text.Reading

/-!
# Documents

A document writes one value: null, a truth value, a number, a string, an array of values or an
object, whose members are values under names. The grammar is that of JSON. Blanks may stand
around every value and every name; the characters of a string are written as themselves or behind
a backslash. What a document says is read off its derivation, a string as the UTF-8 text of its
characters, and a number as it is spelt.
-/

namespace Scriptlet

/-- What a document says. -/
inductive Json where
  | null
  | bool (b : Bool)
  /-- A number under one of its spellings. -/
  | number (text : Bytes)
  | string (text : Bytes)
  | array (items : List Json)
  /-- Names and values in the order in which they are written. -/
  | object (members : List (Bytes × Json))

namespace Json

section Numbers

/-- One digit or several. -/
def Digits (t : Bytes) : Prop := t ≠ [] ∧ ∀ c ∈ t, Bytes.isDigit c = true

/-- The spellings of numbers: a sign, digits of which the first is zero only if it is the last,
then perhaps a fraction, and perhaps an exponent. -/
inductive Number : Bytes → Prop where
  | mk {sign whole fraction exponent : Bytes} (sign_mem : sign ∈ ([[], "-"] : List Bytes))
      (digits : Digits whole) (unpadded : whole.head? = some 0x30 → whole = [0x30])
      (fractional : fraction = [] ∨ ∃ d, Digits d ∧ fraction = "." ++ d)
      (exponential : exponent = [] ∨ ∃ mark ∈ (["e", "E"] : List Bytes),
        ∃ sign ∈ ([[], "+", "-"] : List Bytes), ∃ d, Digits d ∧ exponent = mark ++ sign ++ d) :
      Number (sign ++ whole ++ fraction ++ exponent)

end Numbers

section Strings

/-- The character that a letter behind a backslash stands for. -/
def shortEscape? (mark : UInt8) : Option Char :=
  if mark = 0x22 then some '"'
  else if mark = 0x5C then some '\\'
  else if mark = 0x2F then some '/'
  else if mark = 0x62 then some (Char.ofNat 0x08)
  else if mark = 0x66 then some (Char.ofNat 0x0C)
  else if mark = 0x6E then some '\n'
  else if mark = 0x72 then some '\r'
  else if mark = 0x74 then some '\t'
  else none

/-- The number of a hexadecimal digit. -/
def hexDigit? (c : UInt8) : Option Nat :=
  if 0x30 ≤ c && c ≤ 0x39 then some (c.toNat - 0x30)
  else if 0x41 ≤ c && c ≤ 0x46 then some (c.toNat - 0x37)
  else if 0x61 ≤ c && c ≤ 0x66 then some (c.toNat - 0x57)
  else none

/-- The number in four hexadecimal digits. -/
def codeUnit? : Bytes → Option Nat
  | [a, b, c, d] => do
    return (((← hexDigit? a) * 16 + (← hexDigit? b)) * 16 + (← hexDigit? c)) * 16 + (← hexDigit? d)
  | _ => none

/-- What stands behind a backslash: a letter for the character, its number in hexadecimal digits,
or, for a number that these do not reach, its two surrogates. -/
inductive Escape : Bytes → Char → Prop where
  | named {mark : UInt8} {c : Char} (name : shortEscape? mark = some c) : Escape [mark] c
  | numbered {digits : Bytes} {c : Char} (number : codeUnit? digits = some c.toNat) :
      Escape ("u" ++ digits) c
  | paired {high low : Bytes} {m n : Nat} {c : Char} (first : codeUnit? high = some (0xD800 + m))
      (second : codeUnit? low = some (0xDC00 + n)) (hm : m < 0x400) (hn : n < 0x400)
      (number : c.toNat = 0x10000 + 0x400 * m + n) : Escape ("u" ++ high ++ "\\u" ++ low) c

/-- The spellings of a character in a string. -/
inductive Spelling : Bytes → Char → Prop where
  | plain {c : Char} (printable : 0x20 ≤ c.toNat) (quote : c ≠ '"') (backslash : c ≠ '\\') :
      Spelling (String.utf8EncodeChar c) c
  | escaped {t : Bytes} {c : Char} (h : Escape t c) : Spelling ("\\" ++ t) c

/-- Spellings of characters one behind the other. -/
inductive Spellings : Bytes → List Char → Prop where
  | nil : Spellings [] []
  | cons {t ts : Bytes} {c : Char} {cs : List Char} (first : Spelling t c)
      (rest : Spellings ts cs) : Spellings (t ++ ts) (c :: cs)

/-- A string between quotes. -/
inductive Quoted : Bytes → Bytes → Prop where
  | mk {t : Bytes} {cs : List Char} (spelt : Spellings t cs) :
      Quoted ("\"" ++ t ++ "\"") (Utf8.encode cs)

end Strings

section Values

/-- Whether a byte is a blank: a space, a tab, or one of those that end a line. -/
def isBlank (c : UInt8) : Bool := c == 0x20 || c == 0x09 || c == 0x0A || c == 0x0D

/-- Blanks only, if anything. -/
def Blanks (t : Bytes) : Prop := ∀ c ∈ t, isBlank c = true

instance (t : Bytes) : Decidable (Blanks t) :=
  decidable_of_iff (t.all isBlank = true) List.all_eq_true

/-- Parts with commas between them; where there is no part, blanks. -/
inductive Listed {α : Type} (Part : Bytes → α → Prop) : Bytes → List α → Prop where
  | none {w : Bytes} (h : Blanks w) : Listed Part w []
  | last {t : Bytes} {a : α} (h : Part t a) : Listed Part t [a]
  | cons {t ts : Bytes} {a : α} {as : List α} (first : Part t a) (rest : Listed Part ts as)
      (more : as ≠ []) : Listed Part (t ++ "," ++ ts) (a :: as)

mutual

/-- The texts of a value. -/
inductive Value : Bytes → Json → Prop where
  | null : Value "null" null
  | bool (b : Bool) : Value (Bytes.ofBool b) (bool b)
  | number {t : Bytes} (h : Number t) : Value t (number t)
  | string {t s : Bytes} (h : Quoted t s) : Value t (string s)
  | array {t : Bytes} {vs : List Json} (h : Listed Element t vs) :
      Value ("[" ++ t ++ "]") (array vs)
  | object {t : Bytes} {ms : List (Bytes × Json)} (h : Listed Member t ms) :
      Value ("\x7b" ++ t ++ "\x7d") (object ms)

/-- A value with blanks around it. -/
inductive Element : Bytes → Json → Prop where
  | mk {w t w' : Bytes} {v : Json} (before : Blanks w) (value : Value t v) (after : Blanks w') :
      Element (w ++ t ++ w') v

/-- A value under a name. -/
inductive Member : Bytes → Bytes × Json → Prop where
  | mk {w k w' t name : Bytes} {v : Json} (before : Blanks w) (named : Quoted k name)
      (after : Blanks w') (value : Element t v) : Member (w ++ k ++ w' ++ ":" ++ t) (name, v)

end

end Values

end Json
end Scriptlet
