import Scriptlet.Proofs.Text.Pieces
import Scriptlet.Proofs.Text.Reading
import Scriptlet.Syntax.Text

/-!
# Printable programs

The text of a node is made of words of the program and of signs between them. The words are the
names and operators, the strings, and the names of files. Where they are valid UTF-8 and have no
control characters but newlines, so has every text made of them.
-/

namespace Scriptlet

/-- Valid UTF-8 without any control character but the newline. -/
structure Bytes.Printable (t : Bytes) : Prop where
  valid : t.toByteArray.IsValidUTF8
  clear : ∀ c ∈ t, c < 0x20 → c = 0x0A

section Words

/-- The names that a loop binds. -/
def LoopVars.words : LoopVars → List Bytes
  | single name => [name]
  | pair key value => [key, value]

mutual

/-- The words of an expression: its names, its operators and its strings. -/
def Expr.words : Expr → List Bytes
  | absent | int .. | bool .. | .none _ | bare _ => []
  | str _ s => [s]
  | ident _ name => [name]
  | unary _ op operand => op :: operand.words
  | binary _ op left right => op :: (left.words ++ right.words)
  | index _ object key => object.words ++ key.words
  | array _ elements => listWords elements
  | dict _ entries => entryWords entries
  | call _ receiver callee arguments => callee :: (receiver.words ++ listWords arguments)

/-- The words of expressions. -/
def Expr.listWords : List Expr → List Bytes
  | [] => []
  | e :: es => e.words ++ listWords es

/-- The words of dictionary entries. -/
def Expr.entryWords : List (Expr × Expr) → List Bytes
  | [] => []
  | (key, value) :: entries => key.words ++ value.words ++ entryWords entries

end

mutual

/-- The words of a statement and of its bodies, with the names of their files. -/
def Stmt.words : Stmt → List Bytes
  | absent => []
  | declare l name value => l.file :: name :: value.words
  | assign l target op value => l.file :: op :: (target.words ++ value.words)
  | print l arguments => l.file :: Expr.listWords arguments
  | evaluate l expression => l.file :: expression.words
  | ifThen l condition body => l.file :: (condition.words ++ bodyWords body)
  | ifElse l condition body otherwise =>
    l.file :: (condition.words ++ bodyWords body ++ bodyWords otherwise)
  | whileLoop l condition body => l.file :: (condition.words ++ bodyWords body)
  | forEach l vars iterable body => l.file :: (vars.words ++ iterable.words ++ bodyWords body)
  | breakLoop l | continueLoop l | bare l => [l.file]
  | returnValue l value => l.file :: value.words
  | function l name parameters body => l.file :: name :: (parameters ++ bodyWords body)

/-- The words of a body. -/
def Stmt.bodyWords : List Stmt → List Bytes
  | [] => []
  | s :: ss => s.words ++ bodyWords ss

end

/-- The words of a program. -/
def Program.words (p : Program) : List Bytes := p.location.file :: Stmt.bodyWords p.body

end Words

namespace Bytes

/-- Whether a byte is a sign: a character of its own that is no control character. -/
def isSign (c : UInt8) : Bool := 0x20 ≤ c && c < 0x80

section Printing

variable {s t : Bytes}

private theorem Printable.append (hs : s.Printable) (ht : t.Printable) : (s ++ t).Printable where
  valid := by
    obtain ⟨cs, rfl⟩ := (Utf8.isValidUTF8_iff s).mp hs.valid
    obtain ⟨ds, rfl⟩ := (Utf8.isValidUTF8_iff t).mp ht.valid
    exact (Utf8.isValidUTF8_iff _).mpr ⟨cs ++ ds, List.flatMap_append.symm⟩
  clear := List.forall_mem_append.mpr ⟨hs.clear, ht.clear⟩

private theorem utf8EncodeChar_ofNat_toNat {c : UInt8} (h : c < 0x80) :
    String.utf8EncodeChar (Char.ofNat c.toNat) = [c] := by
  have low : c.toNat < 0x80 := UInt8.lt_iff_toNat_lt.mp h
  have same : (Char.ofNat c.toNat).toNat = c.toNat := by
    rw [Char.ofNat, dif_pos (Or.inl (by omega))]
    rfl
  rw [Utf8.utf8EncodeChar_of_lt (same.symm ▸ low), same, UInt8.ofNat_toNat]

/-- Signs make a printable text. -/
theorem printable_of_signs (h : t.all isSign = true) : t.Printable where
  valid := by
    refine (Utf8.isValidUTF8_iff t).mpr ⟨t.map fun c ↦ Char.ofNat c.toNat, ?_⟩
    induction t with
    | nil => rfl
    | cons c t ih =>
      simp only [List.all_cons, isSign, Bool.and_eq_true, decide_eq_true_eq] at h
      rw [List.map_cons, Utf8.encode, List.flatMap_cons, utf8EncodeChar_ofNat_toNat h.1.2]
      exact congrArg (c :: ·) (ih h.2)
  clear c hc low := by
    have sign := List.all_eq_true.mp h c hc
    simp only [isSign, Bool.and_eq_true, decide_eq_true_eq] at sign
    exact absurd low (UInt8.not_lt.mpr sign.1)

private theorem Printable.behind {sign : Bytes} (ht : t.Printable) (h : sign.all isSign = true) :
    (sign ++ t).Printable := (printable_of_signs h).append ht

private theorem Printable.before {sign : Bytes} (ht : t.Printable) (h : sign.all isSign = true) :
    (t ++ sign).Printable := ht.append (printable_of_signs h)

private theorem printable_commaSeparated {parts : List Bytes} (h : ∀ t ∈ parts, t.Printable) :
    (commaSeparated parts).Printable := by
  induction parts with
  | nil => exact printable_of_signs rfl
  | cons part parts ih =>
    obtain ⟨first, rest⟩ := List.forall_mem_cons.mp h
    cases parts with
    | nil =>
      rw [commaSeparated_singleton]
      exact first
    | cons next parts =>
      rw [commaSeparated_cons_cons]
      exact (first.before (by decide)).append (ih rest)

/-- Decimal text is printable. -/
theorem printable_ofInt (n : Int) : (ofInt n).Printable := by
  have digits (m : Nat) : (ofNat m).Printable := by
    refine printable_of_signs (List.all_eq_true.mpr fun c hc ↦ ?_)
    have digit := isDigit_of_mem_ofNat hc
    simp only [isDigit, isSign, Bool.and_eq_true, decide_eq_true_eq] at digit ⊢
    exact ⟨UInt8.le_trans (by decide) digit.1, UInt8.lt_of_le_of_lt digit.2 (by decide)⟩
  cases n with
  | ofNat n => exact digits n
  | negSucc n => exact (digits (n + 1)).behind (by decide)

end Printing

end Bytes

section Texts

/-- The text of a place is printable if the name of its file is. -/
theorem Location.printable_text {l : Location} (h : l.file.Printable) : l.text.Printable := by
  have name : l.fileName.Printable := by
    rw [Location.fileName]
    split
    · exact Bytes.printable_of_signs (by decide)
    · exact h
  exact (((name.before (by decide)).append (Bytes.printable_ofInt _)).before (by decide)).append
    (Bytes.printable_ofInt _)

open Bytes (printable_of_signs printable_commaSeparated)

namespace Expr

mutual

/-- The text of an expression is printable if its words are. -/
theorem printable_text (e : Expr) (h : ∀ t ∈ e.words, t.Printable) : e.text.Printable := by
  match e with
  | absent => exact printable_of_signs (t := "<null>") (by decide)
  | int _ n => exact Bytes.printable_ofInt n.toInt
  | str _ s => exact ((List.forall_mem_singleton.mp h).behind (by decide)).before (by decide)
  | bool _ true => exact printable_of_signs (t := "true") (by decide)
  | bool _ false => exact printable_of_signs (t := "false") (by decide)
  | .none _ => exact printable_of_signs (t := "none") (by decide)
  | ident _ name => exact List.forall_mem_singleton.mp h
  | unary _ op operand =>
    obtain ⟨hop, hoperand⟩ := List.forall_mem_cons.mp h
    have text := printable_text operand hoperand
    exact ((hop.behind (by decide)).append text).before (by decide)
  | binary _ op left right =>
    obtain ⟨hop, hparts⟩ := List.forall_mem_cons.mp h
    obtain ⟨hleft, hright⟩ := List.forall_mem_append.mp hparts
    have text := printable_text left hleft
    have text' := printable_text right hright
    exact (((((text.behind (by decide)).before (by decide)).append hop).before (by decide)).append
      text').before (by decide)
  | index _ object key =>
    obtain ⟨hobject, hkey⟩ := List.forall_mem_append.mp h
    have text := printable_text object hobject
    have text' := printable_text key hkey
    exact ((text.before (by decide)).append text').before (by decide)
  | array _ elements =>
    have texts := printable_commaSeparated (printable_texts elements h)
    exact (texts.behind (by decide)).before (by decide)
  | dict _ entries =>
    have texts := printable_commaSeparated (printable_entryTexts entries h)
    exact (texts.behind (by decide)).before (by decide)
  | call _ receiver callee arguments =>
    obtain ⟨hcallee, hparts⟩ := List.forall_mem_cons.mp h
    obtain ⟨hreceiver, harguments⟩ := List.forall_mem_append.mp hparts
    have text := printable_text receiver hreceiver
    have texts := printable_commaSeparated (printable_texts arguments harguments)
    cases receiver with
    | absent => exact ((hcallee.before (by decide)).append texts).before (by decide)
    | _ =>
      exact ((((text.before (by decide)).append hcallee).before (by decide)).append texts).before
        (by decide)
  | bare _ => exact printable_of_signs (t := "<node>") (by decide)

private theorem printable_texts (es : List Expr) (h : ∀ t ∈ listWords es, t.Printable) :
    ∀ t ∈ texts es, t.Printable := by
  match es with
  | [] => exact fun _ ↦ nofun
  | e :: es =>
    obtain ⟨first, rest⟩ := List.forall_mem_append.mp h
    exact List.forall_mem_cons.mpr ⟨printable_text e first, printable_texts es rest⟩

/-- The texts of dictionary entries are printable if their words are. -/
theorem printable_entryTexts (entries : List (Expr × Expr))
    (h : ∀ t ∈ entryWords entries, t.Printable) : ∀ t ∈ entryTexts entries, t.Printable := by
  match entries with
  | [] => exact fun _ ↦ nofun
  | (key, value) :: entries =>
    simp only [entryWords, List.forall_mem_append] at h
    obtain ⟨⟨hkey, hvalue⟩, hrest⟩ := h
    have text := printable_text key hkey
    have text' := printable_text value hvalue
    exact List.forall_mem_cons.mpr
      ⟨(text.before (by decide)).append text', printable_entryTexts entries hrest⟩

end

private theorem printable_textOr (e : Expr) (h : ∀ t ∈ e.words, t.Printable) (ifAbsent : Bytes)
    (habsent : ifAbsent.all Bytes.isSign = true) : (e.textOr ifAbsent).Printable := by
  have text := printable_text e h
  cases e with
  | absent => exact printable_of_signs habsent
  | _ => exact text

end Expr

/-- The names of a loop make a printable text if they are printable. -/
theorem LoopVars.printable_text {vars : LoopVars} (h : ∀ t ∈ vars.words, t.Printable) :
    vars.text.Printable := by
  cases vars with
  | single name => exact List.forall_mem_singleton.mp h
  | pair key value =>
    obtain ⟨hkey, hvalue⟩ := List.forall_mem_cons.mp h
    exact (hkey.before (by decide)).append (List.forall_mem_singleton.mp hvalue)

namespace Stmt

/-- So is the text of a statement. -/
theorem printable_text (s : Stmt) (h : ∀ t ∈ s.words, t.Printable) : s.text.Printable := by
  match s with
  | absent => exact printable_of_signs (t := []) rfl
  | declare _ name value =>
    simp only [words, List.forall_mem_cons] at h
    obtain ⟨-, hname, hvalue⟩ := h
    have text := value.printable_text hvalue
    cases value with
    | absent => exact hname.behind (by decide)
    | _ => exact ((hname.behind (by decide)).before (by decide)).append text
  | assign _ target op value =>
    simp only [words, List.forall_mem_cons, List.forall_mem_append] at h
    obtain ⟨-, hop, htarget, hvalue⟩ := h
    have text := target.printable_text htarget
    have text' := value.printable_text hvalue
    exact (((text.before (by decide)).append hop).before (by decide)).append text'
  | print _ arguments =>
    simp only [words, List.forall_mem_cons] at h
    have texts := printable_commaSeparated (Expr.printable_texts arguments h.2)
    rw [Expr.texts_eq_map] at texts
    exact (texts.behind (by decide)).before (by decide)
  | evaluate _ expression =>
    simp only [words, List.forall_mem_cons] at h
    exact expression.printable_text h.2
  | ifThen _ condition _ | whileLoop _ condition _ =>
    simp only [words, List.forall_mem_cons, List.forall_mem_append] at h
    have text := condition.printable_textOr h.2.1 "<cond>" (by decide)
    exact (text.behind (by decide)).before (by decide)
  | ifElse _ condition _ _ =>
    simp only [words, List.forall_mem_cons, List.forall_mem_append] at h
    have text := condition.printable_textOr h.2.1.1 "<cond>" (by decide)
    exact (((text.behind (by decide)).before (by decide)).before (by decide)).before (by decide)
  | forEach _ vars iterable _ =>
    simp only [words, List.forall_mem_cons, List.forall_mem_append] at h
    obtain ⟨-, ⟨hvars, hiterable⟩, -⟩ := h
    have names := LoopVars.printable_text hvars
    have text := iterable.printable_textOr hiterable "<iterable>" (by decide)
    exact (((names.behind (by decide)).before (by decide)).append text).before (by decide)
  | breakLoop _ => exact printable_of_signs (t := "break") (by decide)
  | continueLoop _ => exact printable_of_signs (t := "continue") (by decide)
  | returnValue _ value =>
    simp only [words, List.forall_mem_cons] at h
    have text := value.printable_text h.2
    cases value with
    | absent => exact printable_of_signs (t := "return") (by decide)
    | _ => exact text.behind (by decide)
  | function _ name parameters _ =>
    simp only [words, List.forall_mem_cons, List.forall_mem_append] at h
    obtain ⟨-, hname, hparameters, -⟩ := h
    have names := printable_commaSeparated hparameters
    exact ((((hname.behind (by decide)).before (by decide)).append names).before
      (by decide)).before (by decide)
  | bare _ => exact printable_of_signs (t := "<node>") (by decide)

end Stmt

end Texts

end Scriptlet
