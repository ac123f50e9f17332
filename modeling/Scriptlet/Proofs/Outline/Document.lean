import Scriptlet.Proofs.Json.Unambiguity
import Scriptlet.Proofs.Outline.Printable
import Scriptlet.Syntax.Outline

/-!
# Outlines are documents

The outline of a printable program is a document, whatever it is indented by, and says what the
program looks like: of every statement its kind, its place and its text, and its bodies, statement
by statement, with a null for each that was left out. It says nothing else.
-/

namespace Scriptlet

section Shapes

/-- The object that shows a statement: its kind, its place and its text, and then its bodies. -/
def Stmt.shown (s : Stmt) (bodies : List (Bytes × Json)) : Json :=
  .object (("nodeType", .string s.kindName) :: ("loc", .string s.location.text) ::
    ("source", .string s.text) :: bodies)

mutual

/-- What the outline of a statement says. -/
def Stmt.outline : Stmt → Json
  | absent => .null
  | ifThen l condition body =>
    (ifThen l condition body).shown [("then", .array (bodyOutline body))]
  | ifElse l condition body otherwise =>
    (ifElse l condition body otherwise).shown
      [("then", .array (bodyOutline body)), ("else", .array (bodyOutline otherwise))]
  | whileLoop l condition body =>
    (whileLoop l condition body).shown [("body", .array (bodyOutline body))]
  | forEach l vars iterable body =>
    (forEach l vars iterable body).shown [("body", .array (bodyOutline body))]
  | function l name parameters body =>
    (function l name parameters body).shown [("body", .array (bodyOutline body))]
  | s => s.shown []

/-- What the outlines of a body say. -/
def Stmt.bodyOutline : List Stmt → List Json
  | [] => []
  | s :: ss => s.outline :: bodyOutline ss

end

/-- What the outline of a program says. -/
def Program.outline (p : Program) : Json :=
  .object [("type", .string "Program"), ("loc", .string p.location.text),
    ("body", .array (Stmt.bodyOutline p.body))]

end Shapes

section Quoting

open Json (Spelling Spellings Quoted)

private theorem Outline.flatMap_escapeByte {t : Bytes}
    (h : ∀ b ∈ t, b ≠ 0x0A ∧ b ≠ 0x22 ∧ b ≠ 0x5C) : t.flatMap escapeByte = t := by
  have own : ∀ b ∈ t, escapeByte b = [b] := fun b hb ↦ by
    obtain ⟨newline, quote, backslash⟩ := h b hb
    rw [escapeByte, if_neg newline, if_neg quote, if_neg backslash]
  rw [List.flatMap_congr own, List.flatMap_singleton']

private theorem Outline.spelling_escape {c : Char} (h : c = '\n' ∨ 0x20 ≤ c.toNat) :
    Spelling ((String.utf8EncodeChar c).flatMap escapeByte) c := by
  by_cases newline : c = '\n'
  · subst newline
    exact .escaped (@Json.Escape.named 0x6E '\n' rfl)
  by_cases quote : c = '"'
  · subst quote
    exact .escaped (.named rfl)
  by_cases backslash : c = '\\'
  · subst backslash
    exact .escaped (.named rfl)
  -- No other character has one of the escaped bytes.
  rw [flatMap_escapeByte]
  · exact .plain (h.resolve_left newline) quote backslash
  · intro b hb
    refine ⟨?_, ?_, ?_⟩
    · rintro rfl
      exact newline (Utf8.eq_of_mem_utf8EncodeChar hb (by decide))
    · rintro rfl
      exact quote (Utf8.eq_of_mem_utf8EncodeChar hb (by decide))
    · rintro rfl
      exact backslash (Utf8.eq_of_mem_utf8EncodeChar hb (by decide))

private theorem Bytes.Printable.character {cs : List Char} (h : Printable (Utf8.encode cs)) :
    ∀ c ∈ cs, c = '\n' ∨ 0x20 ≤ c.toNat := by
  intro c hc
  by_cases low : c.toNat < 0x20
  · have encoded := Utf8.utf8EncodeChar_of_lt (Nat.lt_trans low (by decide))
    have hb : UInt8.ofNat c.toNat ∈ String.utf8EncodeChar c := encoded ▸ List.mem_singleton_self _
    have control : UInt8.ofNat c.toNat < 0x20 := by
      rwa [UInt8.lt_iff_toNat_lt, UInt8.toNat_ofNat', Nat.mod_eq_of_lt (by omega)]
    have newline := h.clear _ (List.mem_flatMap.mpr ⟨c, hc, hb⟩) control
    rw [newline] at hb
    exact .inl (Utf8.eq_of_mem_utf8EncodeChar hb (by decide))
  · exact .inr (Nat.le_of_not_lt low)

private theorem Outline.quoted_quoted {s : Bytes} (h : s.Printable) : Quoted (quoted s) s := by
  obtain ⟨cs, rfl⟩ := (Utf8.isValidUTF8_iff s).mp h.valid
  have spelt (cs : List Char) (known : ∀ c ∈ cs, c = '\n' ∨ 0x20 ≤ c.toNat) :
      Spellings ((Utf8.encode cs).flatMap escapeByte) cs := by
    induction cs with
    | nil => exact .nil
    | cons c cs ih =>
      obtain ⟨first, rest⟩ := List.forall_mem_cons.mp known
      rw [Utf8.encode, List.flatMap_cons, List.flatMap_append]
      exact .cons (spelling_escape first) (ih rest)
  exact .mk (spelt cs h.character)

/-- Whether a word is one of signs that need no escape. -/
def Outline.isPlain (name : Bytes) : Bool :=
  name.all fun c ↦ Bytes.isSign c && escapeByte c == [c]

private theorem Outline.quoted_plain {name : Bytes} (h : isPlain name = true) :
    Quoted ("\"" ++ name ++ "\"") name := by
  have plain := List.all_eq_true.mp h
  simp only [Bool.and_eq_true, beq_iff_eq] at plain
  have quoted := quoted_quoted
    (Bytes.printable_of_signs (List.all_eq_true.mpr fun c hc ↦ (plain c hc).1))
  rwa [Outline.quoted, List.flatMap_congr fun c hc ↦ (plain c hc).2, List.flatMap_singleton']
    at quoted

end Quoting

section Lists

open Json

variable {α : Type}

/-- A text is a part of a kind with any blanks around it. -/
def Json.Padded (Part : Bytes → α → Prop) (t : Bytes) (a : α) : Prop :=
  ∀ w w', Blanks w → Blanks w' → Part (w ++ t ++ w') a

private theorem Json.blanks_spaces (n : Nat) : Blanks (Bytes.spaces n) := by
  intro c hc
  rw [List.eq_of_mem_replicate hc]
  rfl

private theorem Json.Blanks.append {w w' : Bytes} (h : Blanks w) (h' : Blanks w') :
    Blanks (w ++ w') :=
  List.forall_mem_append.mpr ⟨h, h'⟩

private theorem Json.Padded.pad {Part : Bytes → α → Prop} {w t w' : Bytes} {a : α}
    (h : Padded Part t a) (before : Blanks w) (after : Blanks w') :
    Padded Part (w ++ t ++ w') a := by
  intro x x' hx hx'
  have padded := h (x ++ w) (w' ++ x') (hx.append before) (after.append hx')
  simpa only [List.append_assoc] using padded

private theorem Json.Value.padded {t : Bytes} {v : Json} (h : Value t v) : Padded Element t v :=
  fun _ _ before after ↦ .mk before h after

private theorem Json.padded_listed {Part : Bytes → α → Prop} {t : Bytes} {a : α} {ts : List Bytes}
    {as : List α} (first : Padded Part t a) (rest : List.Forall₂ (Padded Part) ts as) :
    Padded (Listed Part) (t ++ ts.flatMap fun t ↦ (",\n" ++ t : Bytes)) (a :: as) := by
  intro w w' before after
  induction rest generalizing w t a with
  | nil =>
    rw [List.flatMap_nil, List.append_nil]
    exact .last (first w w' before after)
  | @cons u b us bs next rest ih =>
    -- The newline behind the comma is a blank before the next part.
    have part := first w [] before (by decide)
    have parts := ih next (w := "\n") (by decide)
    have listed := Listed.cons part parts (List.cons_ne_nil b bs)
    rw [List.append_nil] at listed
    rw [List.flatMap_cons]
    simp only [List.append_assoc] at listed ⊢
    exact listed

end Lists

section Dumping

open Json Outline

/-- A member that is written as a text shows a member of an object. -/
structure Outline.Shows (part : Bytes × Bytes) (m : Bytes × Json) : Prop where
  name : Quoted ("\"" ++ part.1 ++ "\"") m.1
  value : Json.Value part.2 m.2

private theorem Outline.Shows.padded {part : Bytes × Bytes} {m : Bytes × Json} (h : Shows part m)
    (indent : Nat) : Padded Member (member indent part.1 part.2) m := by
  obtain ⟨name, value⟩ := part
  intro w w' before after
  have blanks : Blanks (w ++ (Bytes.spaces indent ++ "  ")) :=
    before.append ((blanks_spaces indent).append (by decide))
  have element : Element (" " ++ value ++ w') m.2 := .mk (by decide) h.value after
  have nothing : Blanks [] := by decide
  have shown := Member.mk blanks h.name nothing element
  rw [List.append_nil] at shown
  rw [member]
  simp only [List.append_assoc] at shown ⊢
  exact shown

private theorem Outline.padded_object {part : Bytes × Bytes} {parts : List (Bytes × Bytes)}
    {m : Bytes × Json} {ms : List (Bytes × Json)} (first : Shows part m)
    (rest : List.Forall₂ Shows parts ms) (indent : Nat) :
    Padded Element (Bytes.spaces indent ++ "\x7b\n" ++ member indent part.1 part.2 ++
      members indent parts ++ "\n" ++ Bytes.spaces indent ++ "\x7d") (.object (m :: ms)) := by
  have others : List.Forall₂ (Padded Member) (parts.map fun p ↦ member indent p.1 p.2) ms :=
    List.forall₂_map_left_iff.mpr (rest.imp fun _ _ h ↦ h.padded indent)
  have after : Blanks ("\n" ++ Bytes.spaces indent) := .append (by decide) (blanks_spaces indent)
  have listed := padded_listed (first.padded indent) others "\n" _ (by decide) after
  have nothing : Blanks [] := by decide
  have value := (Json.Value.object listed).padded.pad (blanks_spaces indent) nothing
  rw [List.flatMap_map, List.append_nil] at value
  rw [members]
  simp only [List.append_assoc] at value ⊢
  exact value

/-- A plain word names what a value says. -/
theorem Outline.shows (name : Bytes) (plain : isPlain name = true) {t : Bytes} {v : Json}
    (h : Json.Value t v) : Shows (name, t) (name, v) :=
  ⟨quoted_plain plain, h⟩

private theorem Outline.shows_loc {l : Location} (h : l.file.Printable) :
    Shows ("loc", quoted l.text) ("loc", .string l.text) :=
  shows "loc" (by decide) (.string (quoted_quoted (Location.printable_text h)))

private theorem Outline.plain_kindName (s : Stmt) : isPlain s.kindName = true := by
  cases s <;> rfl

private theorem Outline.padded_record {s : Stmt} (hfile : s.location.file.Printable)
    (htext : s.text.Printable) {bodies : List (Bytes × Bytes)} {ms : List (Bytes × Json)}
    (h : List.Forall₂ Shows bodies ms) (indent : Nat) :
    Padded Element (record indent s bodies) (s.shown ms) := by
  have kind : Shows ("nodeType", "\"" ++ s.kindName ++ "\"") ("nodeType", .string s.kindName) :=
    shows "nodeType" (by decide) (.string (quoted_plain (plain_kindName s)))
  have source : Shows ("source", quoted s.text) ("source", .string s.text) :=
    shows "source" (by decide) (.string (quoted_quoted htext))
  have shown := padded_object kind (.cons (shows_loc hfile) (.cons source h)) indent
  rw [members, List.flatMap_cons, List.flatMap_cons, ← members] at shown
  rw [record]
  simp only [List.append_assoc] at shown ⊢
  exact shown

end Dumping

namespace Stmt

open Json Outline

private theorem printable_file (s : Stmt) (h : ∀ t ∈ s.words, t.Printable) :
    s.location.file.Printable := by
  cases s with
  | absent => exact Bytes.printable_of_signs (t := []) rfl
  | _ => exact h _ List.mem_cons_self

private theorem dumpRest_eq_flatMap (indent : Nat) (ss : List Stmt) :
    dumpRest indent ss = (ss.map (dump indent)).flatMap fun t ↦ (",\n" ++ t : Bytes) := by
  induction ss with
  | nil => rfl
  | cons s ss ih => rw [dumpRest, ih, List.map_cons, List.flatMap_cons]

mutual

/-- The outline of a printable statement shows it. -/
theorem padded_dump (s : Stmt) (h : ∀ t ∈ s.words, t.Printable) (indent : Nat) :
    Padded Element (s.dump indent) s.outline := by
  have file := s.printable_file h
  have text := s.printable_text h
  match s with
  | absent =>
    have nothing : Blanks [] := by decide
    have value := Json.Value.null.padded.pad (blanks_spaces indent) nothing
    rwa [List.append_nil] at value
  | ifThen _ _ body =>
    simp only [words, List.forall_mem_cons, List.forall_mem_append] at h
    have shown := shows "then" (by decide) (value_dumpBody body h.2.2 (indent + 2))
    exact padded_record file text (.cons shown .nil) indent
  | ifElse _ _ body otherwise =>
    simp only [words, List.forall_mem_cons, List.forall_mem_append] at h
    have shown := shows "then" (by decide) (value_dumpBody body h.2.1.2 (indent + 2))
    have shown' := shows "else" (by decide) (value_dumpBody otherwise h.2.2 (indent + 2))
    exact padded_record file text (.cons shown (.cons shown' .nil)) indent
  | whileLoop _ _ body | forEach _ _ _ body =>
    simp only [words, List.forall_mem_cons, List.forall_mem_append] at h
    have shown := shows "body" (by decide) (value_dumpBody body h.2.2 (indent + 2))
    exact padded_record file text (.cons shown .nil) indent
  | function _ _ _ body =>
    simp only [words, List.forall_mem_cons, List.forall_mem_append] at h
    have shown := shows "body" (by decide) (value_dumpBody body h.2.2.2 (indent + 2))
    exact padded_record file text (.cons shown .nil) indent
  | declare .. | assign .. | print .. | evaluate .. | breakLoop .. | continueLoop ..
  | returnValue .. | bare .. =>
    exact padded_record file text .nil indent

/-- So does the outline of a body. -/
theorem value_dumpBody (ss : List Stmt) (h : ∀ t ∈ bodyWords ss, t.Printable) (indent : Nat) :
    Json.Value (dumpBody indent ss) (.array (bodyOutline ss)) := by
  match ss with
  | [] => exact .array (.none (w := []) (by decide))
  | s :: ss =>
    obtain ⟨first, rest⟩ := List.forall_mem_append.mp h
    have after : Blanks ("\n" ++ Bytes.spaces indent) := .append (by decide) (blanks_spaces indent)
    have listed := padded_listed (padded_dump s first (indent + 2))
      (padded_dumps ss rest (indent + 2)) "\n" _ (by decide) after
    rw [← dumpRest_eq_flatMap] at listed
    have value := Json.Value.array listed
    rw [dumpBody]
    simp only [List.append_assoc] at value ⊢
    exact value

/-- Statement by statement. -/
theorem padded_dumps (ss : List Stmt) (h : ∀ t ∈ bodyWords ss, t.Printable) (indent : Nat) :
    List.Forall₂ (Padded Element) (ss.map (dump indent)) (bodyOutline ss) := by
  match ss with
  | [] => exact .nil
  | s :: ss =>
    obtain ⟨first, rest⟩ := List.forall_mem_append.mp h
    exact .cons (padded_dump s first indent) (padded_dumps ss rest indent)

end

end Stmt

end Scriptlet
