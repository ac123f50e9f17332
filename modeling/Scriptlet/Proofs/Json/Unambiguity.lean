import Scriptlet.Proofs.Json.Grammar

/-!
# Documents say one thing

No text is a document in two ways. Reading from the left, the first byte of a value decides what
it is, and whatever may follow a value does not belong to it: a number ends before the first byte
that no number has, a string at its quote, an array and an object at their brackets. So each part
of the grammar is found again at the beginning of a longer text.
-/

namespace Scriptlet.Json

section Strings

variable {t t' r r' : Bytes} {c c' : Char}

private theorem length_of_codeUnit? {n : Nat} (h : codeUnit? t = some n) : t.length = 4 := by
  unfold codeUnit? at h
  split at h
  · rfl
  · cases h

private theorem codeUnit?_append_inj {m n : Nat} (h : codeUnit? t = some m)
    (h' : codeUnit? t' = some n) (text : t ++ r = t' ++ r') : t = t' ∧ m = n ∧ r = r' := by
  obtain ⟨rfl, rest⟩ := List.append_inj text
    ((length_of_codeUnit? h).trans (length_of_codeUnit? h').symm)
  exact ⟨rfl, Option.some.inj (h.symm.trans h'), rest⟩

private theorem utf8EncodeChar_append_ne_cons {lead : UInt8} {tail : Bytes} (low : lead < 0x80)
    (other : c ≠ Char.ofNat lead.toNat) : String.utf8EncodeChar c ++ r ≠ lead :: tail := by
  intro h
  obtain ⟨first, rest, encoded, -⟩ := Utf8.exists_utf8EncodeChar_eq_cons c
  rw [encoded] at h
  obtain ⟨rfl, -⟩ := List.cons.inj h
  exact other (Utf8.eq_of_mem_utf8EncodeChar (encoded ▸ List.mem_cons_self) low)

private theorem toNat_ne_surrogate (c : Char) {m : Nat} (hm : m < 0x400) :
    c.toNat ≠ 0xD800 + m := by
  have valid : c.toNat < 0xD800 ∨ 0xDFFF < c.toNat ∧ c.toNat < 0x110000 := c.valid
  omega

private theorem Escape.append_inj (h : Escape t c) (h' : Escape t' c') (text : t ++ r = t' ++ r') :
    t = t' ∧ c = c' := by
  -- The letter before a number names no character of its own.
  have nameless : shortEscape? 0x75 = none := by decide
  cases h with
  | named name =>
    cases h' with
    | named name' =>
      obtain ⟨rfl, -⟩ := List.cons.inj text
      exact ⟨rfl, Option.some.inj (name.symm.trans name')⟩
    | numbered | paired =>
      obtain ⟨rfl, -⟩ := List.cons.inj text
      cases nameless.symm.trans name
  | numbered number =>
    cases h' with
    | named name' =>
      obtain ⟨rfl, -⟩ := List.cons.inj text
      cases nameless.symm.trans name'
    | numbered number' =>
      obtain ⟨rfl, same, -⟩ := codeUnit?_append_inj number number' (List.cons.inj text).2
      exact ⟨rfl, Char.toNat_inj.mp same⟩
    | paired first' second' hm' =>
      simp only [List.append_assoc] at text
      obtain ⟨-, same, -⟩ := codeUnit?_append_inj number first' (List.cons.inj text).2
      exact absurd same (toNat_ne_surrogate c hm')
  | paired first second hm hn number =>
    simp only [List.append_assoc] at text
    cases h' with
    | named name' =>
      obtain ⟨rfl, -⟩ := List.cons.inj text
      cases nameless.symm.trans name'
    | numbered number' =>
      obtain ⟨-, same, -⟩ := codeUnit?_append_inj first number' (List.cons.inj text).2
      exact absurd same.symm (toNat_ne_surrogate c' hm)
    | paired first' second' hm' hn' number' =>
      simp only [List.append_assoc] at text
      obtain ⟨rfl, samem, text⟩ := codeUnit?_append_inj first first' (List.cons.inj text).2
      obtain ⟨rfl, samen, -⟩ := codeUnit?_append_inj second second' (List.append_cancel_left text)
      exact ⟨rfl, Char.toNat_inj.mp (by omega)⟩

private theorem Spelling.append_inj (h : Spelling t c) (h' : Spelling t' c')
    (text : t ++ r = t' ++ r') : t = t' ∧ c = c' := by
  cases h with
  | plain _ _ backslash =>
    cases h' with
    | plain =>
      obtain ⟨rfl, -⟩ := Utf8.utf8EncodeChar_append_inj text
      exact ⟨rfl, rfl⟩
    | escaped => exact absurd text (utf8EncodeChar_append_ne_cons (by decide) backslash)
  | escaped h =>
    cases h' with
    | plain _ _ backslash =>
      exact absurd text.symm (utf8EncodeChar_append_ne_cons (by decide) backslash)
    | escaped h' =>
      obtain ⟨rfl, same⟩ := h.append_inj h' (List.cons.inj text).2
      exact ⟨rfl, same⟩

private theorem Spelling.append_ne_quote (h : Spelling t c) : t ++ r ≠ 0x22 :: r' := by
  cases h with
  | plain _ quote _ => exact utf8EncodeChar_append_ne_cons (by decide) quote
  | escaped =>
    intro text
    cases (List.cons.inj text).1

private theorem Spellings.append_inj {cs cs' : List Char} (h : Spellings t cs)
    (h' : Spellings t' cs') (text : t ++ 0x22 :: r = t' ++ 0x22 :: r') : t = t' ∧ cs = cs' := by
  induction h generalizing t' cs' with
  | nil =>
    cases h' with
    | nil => exact ⟨rfl, rfl⟩
    | cons first' _ =>
      rw [List.append_assoc] at text
      exact absurd text.symm first'.append_ne_quote
  | cons first _ ih =>
    rw [List.append_assoc] at text
    cases h' with
    | nil => exact absurd text first.append_ne_quote
    | cons first' rest' =>
      rw [List.append_assoc] at text
      obtain ⟨rfl, rfl⟩ := first.append_inj first' text
      obtain ⟨rfl, rfl⟩ := ih rest' (List.append_cancel_left text)
      exact ⟨rfl, rfl⟩

private theorem Quoted.append_inj {s s' : Bytes} (h : Quoted t s) (h' : Quoted t' s')
    (text : t ++ r = t' ++ r') : t = t' ∧ s = s' := by
  cases h with | mk spelt =>
  cases h' with | mk spelt' =>
  simp only [List.append_assoc] at text
  obtain ⟨rfl, rfl⟩ := spelt.append_inj spelt' (List.cons.inj text).2
  exact ⟨rfl, rfl⟩

private theorem Quoted.exists_eq_cons {s : Bytes} (h : Quoted t s) : ∃ rest, t = 0x22 :: rest := by
  cases h
  exact ⟨_, rfl⟩

end Strings

section Numbers

/-- Whether a byte may stand in a number. -/
def isNumeric (c : UInt8) : Bool :=
  Bytes.isDigit c || c == 0x2D || c == 0x2B || c == 0x2E || c == 0x65 || c == 0x45

private theorem Digits.isNumeric {t : Bytes} (h : Digits t) : ∀ c ∈ t, isNumeric c = true := by
  intro c hc
  simp only [Json.isNumeric, h.2 c hc, Bool.true_or]

private theorem Number.isNumeric {t : Bytes} (h : Number t) : ∀ c ∈ t, isNumeric c = true := by
  cases h with
  | @mk sign whole fraction exponent sign_mem digits _ fractional exponential =>
  have hsign : ∀ sign ∈ ([[], "+", "-"] : List Bytes), sign.all Json.isNumeric = true := by decide
  have listed : ([[], "-"] : List Bytes) ⊆ [[], "+", "-"] := by decide
  have hmark : ∀ mark ∈ (["e", "E"] : List Bytes), mark.all Json.isNumeric = true := by decide
  have hfraction : ∀ c ∈ fraction, Json.isNumeric c = true := by
    rcases fractional with rfl | ⟨d, hd, rfl⟩
    · exact fun _ ↦ nofun
    · exact List.forall_mem_cons.mpr ⟨by decide, hd.isNumeric⟩
  have hexponent : ∀ c ∈ exponent, Json.isNumeric c = true := by
    rcases exponential with rfl | ⟨mark, mark_mem, sign, sign_mem, d, hd, rfl⟩
    · exact fun _ ↦ nofun
    · simp only [List.forall_mem_append]
      exact ⟨⟨List.all_eq_true.mp (hmark mark mark_mem), List.all_eq_true.mp (hsign sign sign_mem)⟩,
        hd.isNumeric⟩
  simp only [List.forall_mem_append]
  exact ⟨⟨⟨List.all_eq_true.mp (hsign sign (listed sign_mem)), digits.isNumeric⟩, hfraction⟩,
    hexponent⟩

private theorem Number.exists_eq_cons {t : Bytes} (h : Number t) :
    ∃ c rest, t = c :: rest ∧ (c = 0x2D ∨ Bytes.isDigit c = true) := by
  cases h with
  | @mk sign whole fraction exponent sign_mem digits =>
  rcases List.mem_pair.mp sign_mem with rfl | rfl
  · obtain ⟨c, rest, rfl⟩ := List.exists_cons_of_ne_nil digits.1
    exact ⟨c, rest ++ fraction ++ exponent, rfl, .inr (digits.2 c List.mem_cons_self)⟩
  · exact ⟨0x2D, whole ++ fraction ++ exponent, rfl, .inl rfl⟩

end Numbers

section Values

/-- What kind of value a text has, as far as its first byte tells. -/
inductive Shape where
  | null
  | bool (b : Bool)
  | number
  | string
  | array
  | object

/-- The shape of a value. -/
def shape : Json → Shape
  | null => .null
  | bool b => .bool b
  | number _ => .number
  | string _ => .string
  | array _ => .array
  | object _ => .object

/-- The shape of the values that begin with a byte. -/
def shapeOf? (c : UInt8) : Option Shape :=
  if c = 0x2D ∨ Bytes.isDigit c = true then some .number
  else if c = 0x6E then some .null
  else if c = 0x74 then some (.bool true)
  else if c = 0x66 then some (.bool false)
  else if c = 0x22 then some .string
  else if c = 0x5B then some .array
  else if c = 0x7B then some .object
  else none

/-- Whether a byte may follow an element or a member: a comma or a closing bracket. -/
def isClosing (c : UInt8) : Bool := c == 0x2C || c == 0x5D || c == 0x7D

/-- A text that may follow an element or a member. -/
def Closes (r : Bytes) : Prop := ∀ c tail, r = c :: tail → isClosing c = true

/-- A text whose first byte behind the blanks begins a part. -/
inductive Opens : Bytes → Prop where
  | mk {w rest : Bytes} {c : UInt8} (blanks : Blanks w) (notBlank : isBlank c = false)
      (notClosing : isClosing c = false) : Opens (w ++ c :: rest)

section Kinds

variable {c : UInt8}

private theorem isBlank_lawful (h : isBlank c = true) :
    shapeOf? c = none ∧ isNumeric c = false := by
  simp only [isBlank, Bool.or_eq_true, beq_iff_eq] at h
  rcases h with ((rfl | rfl) | rfl) | rfl <;> decide

private theorem isClosing_lawful (h : isClosing c = true) :
    shapeOf? c = none ∧ isNumeric c = false ∧ isBlank c = false := by
  simp only [isClosing, Bool.or_eq_true, beq_iff_eq] at h
  rcases h with (rfl | rfl) | rfl <;> decide

end Kinds

private theorem closes_cons {c : UInt8} (h : isClosing c = true) (r : Bytes) : Closes (c :: r) := by
  intro d tail text
  obtain ⟨rfl, -⟩ := List.cons.inj text
  exact h

private theorem Closes.stops_isBlank {r : Bytes} (h : Closes r) : Bytes.Stops isBlank r :=
  fun c tail text ↦ (isClosing_lawful (h c tail text)).2.2

private theorem Closes.stops_isNumeric {w r : Bytes} (h : Closes r) (blanks : Blanks w) :
    Bytes.Stops isNumeric (w ++ r) := by
  intro c tail text
  cases w with
  | nil => exact (isClosing_lawful (h c tail text)).2.1
  | cons d w =>
    obtain ⟨rfl, -⟩ := List.cons.inj text
    exact (isBlank_lawful (blanks d List.mem_cons_self)).2

private theorem Opens.append {t : Bytes} (h : Opens t) (r : Bytes) : Opens (t ++ r) := by
  cases h with | mk blanks notBlank notClosing =>
  rw [List.append_assoc, List.cons_append]
  exact .mk blanks notBlank notClosing

private theorem Opens.append_ne {t w r r' : Bytes} {c : UInt8} (h : Opens t) (blanks : Blanks w)
    (closing : isClosing c = true) : t ++ r ≠ w ++ c :: r' := by
  intro text
  cases h with | @mk w' rest d blanks' notBlank notClosing =>
  rw [List.append_assoc] at text
  have stops : Bytes.Stops isBlank (d :: rest ++ r) := by
    rintro _ _ ⟨⟩
    exact notBlank
  have same := (Bytes.run_append_inj blanks' blanks stops
    (closes_cons closing r').stops_isBlank text).2
  obtain ⟨rfl, -⟩ := List.cons.inj same
  rw [closing] at notClosing
  cases notClosing

private theorem Value.exists_eq_cons {t : Bytes} {v : Json} (h : Value t v) :
    ∃ c rest, t = c :: rest ∧ shapeOf? c = some v.shape := by
  cases h with
  | number h =>
    obtain ⟨c, rest, rfl, hc⟩ := h.exists_eq_cons
    exact ⟨c, rest, rfl, if_pos hc⟩
  | string h =>
    obtain ⟨rest, rfl⟩ := h.exists_eq_cons
    exact ⟨0x22, rest, rfl, rfl⟩
  | bool b => cases b <;> exact ⟨_, _, rfl, rfl⟩
  | _ => exact ⟨_, _, rfl, rfl⟩

private theorem Value.stops_isBlank {t : Bytes} {v : Json} (h : Value t v) (r : Bytes) :
    Bytes.Stops isBlank (t ++ r) := by
  obtain ⟨c, rest, rfl, hc⟩ := h.exists_eq_cons
  rintro _ _ ⟨⟩
  cases blank : isBlank c with
  | false => rfl
  | true => cases (isBlank_lawful blank).1.symm.trans hc

private theorem Element.opens {t : Bytes} {v : Json} (h : Element t v) : Opens t := by
  cases h with | @mk w u w' _ before value after =>
  obtain ⟨c, rest, rfl, hc⟩ := value.exists_eq_cons
  rw [List.append_assoc, List.cons_append]
  refine .mk before (value.stops_isBlank [] c rest (List.append_nil _)) ?_
  cases closing : isClosing c with
  | false => rfl
  | true => cases (isClosing_lawful closing).1.symm.trans hc

private theorem Member.opens {t : Bytes} {m : Bytes × Json} (h : Member t m) : Opens t := by
  cases h with | mk before named after value =>
  obtain ⟨rest, rfl⟩ := named.exists_eq_cons
  simp only [List.append_assoc, List.cons_append]
  exact .mk before (by decide) (by decide)

end Values

section Found

variable {α : Type} {n : Nat}

/-- The texts of a kind that are shorter than `n` are found again, and so is what they say, before
anything that may follow them. -/
def Found (n : Nat) (Part : Bytes → α → Prop) (Follows : Bytes → Prop) : Prop :=
  ∀ ⦃t t' r r' : Bytes⦄ ⦃a a' : α⦄, t.length < n → Part t a → Part t' a' → Follows r →
    Follows r' → t ++ r = t' ++ r' → t = t' ∧ a = a'

private theorem Element.found (values : Found n Value (Bytes.Stops isNumeric)) :
    Found n Element Closes := by
  intro t t' r r' v v' short h h' follows follows' text
  cases h with | @mk w u x _ before value after =>
  cases h' with | mk before' value' after' =>
  simp only [List.append_assoc] at text
  have short' : u.length < n := by
    simp only [List.length_append] at short
    omega
  obtain ⟨rfl, inner⟩ := Bytes.run_append_inj before before' (value.stops_isBlank _)
    (value'.stops_isBlank _) text
  obtain ⟨rfl, rfl⟩ := values short' value value' (follows.stops_isNumeric after)
    (follows'.stops_isNumeric after') inner
  obtain ⟨rfl, -⟩ := Bytes.run_append_inj after after' follows.stops_isBlank
    follows'.stops_isBlank (List.append_cancel_left inner)
  exact ⟨rfl, rfl⟩

private theorem Member.found (elements : Found n Element Closes) : Found n Member Closes := by
  intro t t' r r' m m' short h h' follows follows' text
  cases h with | @mk w k x u _ _ before named after element =>
  cases h' with | mk before' named' after' element' =>
  have short' : u.length < n := by
    simp only [List.length_append] at short
    omega
  have stops {k name : Bytes} (named : Quoted k name) (r : Bytes) :
      Bytes.Stops isBlank (k ++ r) := by
    obtain ⟨_, rfl⟩ := named.exists_eq_cons
    rintro _ _ ⟨⟩
    rfl
  have stops' (r : Bytes) : Bytes.Stops isBlank (":" ++ r) := by
    rintro _ _ ⟨⟩
    rfl
  simp only [List.append_assoc] at text
  obtain ⟨rfl, inner⟩ := Bytes.run_append_inj before before' (stops named _) (stops named' _) text
  obtain ⟨rfl, rfl⟩ := named.append_inj named' inner
  obtain ⟨rfl, behind⟩ := Bytes.run_append_inj after after' (stops' _) (stops' _)
    (List.append_cancel_left inner)
  obtain ⟨rfl, rfl⟩ := elements short' element element' follows follows'
    (List.append_cancel_left behind)
  exact ⟨rfl, rfl⟩

private theorem Listed.opens {Part : Bytes → α → Prop} (opens : ∀ ⦃t a⦄, Part t a → Opens t)
    {t : Bytes} {as : List α} (h : Listed Part t as) (more : as ≠ []) : Opens t := by
  cases h with
  | none => exact absurd rfl more
  | last part => exact opens part
  | cons part =>
    rw [List.append_assoc]
    exact (opens part).append _

private theorem Listed.found {Part : Bytes → α → Prop} (parts : Found n Part Closes)
    (opens : ∀ ⦃t a⦄, Part t a → Opens t) {close : UInt8} (closing : isClosing close = true)
    (comma : close ≠ 0x2C) : Found n (Listed Part) (fun r ↦ ∃ tail, r = close :: tail) := by
  intro t t' r r' as as' short h h' follows follows' text
  obtain ⟨tail, rfl⟩ := follows
  obtain ⟨tail', rfl⟩ := follows'
  have closes (r : Bytes) : Closes (close :: r) := closes_cons closing r
  have continues (r : Bytes) : Closes ("," ++ r) := closes_cons rfl r
  -- What follows the first part decides: a comma if there are more, the bracket if not.
  induction h generalizing t' as' with
  | none blanks =>
    by_cases more : as' = []
    · subst more
      cases h' with | none blanks' =>
      obtain ⟨rfl, -⟩ := Bytes.run_append_inj blanks blanks' (closes _).stops_isBlank
        (closes _).stops_isBlank text
      exact ⟨rfl, rfl⟩
    · exact absurd text.symm ((h'.opens opens more).append_ne blanks closing)
  | last part =>
    cases h' with
    | none blanks' => exact absurd text ((opens part).append_ne blanks' closing)
    | last part' =>
      obtain ⟨rfl, rfl⟩ := parts short part part' (closes _) (closes _) text
      exact ⟨rfl, rfl⟩
    | cons part' =>
      simp only [List.append_assoc] at text
      obtain ⟨rfl, -⟩ := parts short part part' (closes _) (continues _) text
      exact absurd (List.cons.inj (List.append_cancel_left text)).1 comma
  | cons part rest more ih =>
    simp only [List.length_append] at short
    simp only [List.append_assoc] at text
    cases h' with
    | none blanks' => exact absurd text ((opens part).append_ne blanks' closing)
    | last part' =>
      obtain ⟨rfl, -⟩ := parts (by omega) part part' (continues _) (closes _) text
      exact absurd (List.cons.inj (List.append_cancel_left text)).1.symm comma
    | cons part' rest' =>
      simp only [List.append_assoc] at text
      obtain ⟨rfl, rfl⟩ := parts (by omega) part part' (continues _) (continues _) text
      obtain ⟨rfl, rfl⟩ := ih (by omega) rest' (List.cons.inj (List.append_cancel_left text)).2
      exact ⟨rfl, rfl⟩

private theorem length_lt_of_bracketed {left t right : Bytes} (bracket : left.length = 1)
    (short : (left ++ t ++ right).length < n + 1) : t.length < n := by
  simp only [List.length_append] at short
  omega

private theorem Value.found_succ (values : Found n Value (Bytes.Stops isNumeric)) :
    Found (n + 1) Value (Bytes.Stops isNumeric) := by
  intro t t' r r' v v' short h h' follows follows' text
  -- Both texts begin with the same byte, so the values have one shape.
  have same : v.shape = v'.shape := by
    obtain ⟨c, rest, rfl, hc⟩ := h.exists_eq_cons
    obtain ⟨c', rest', rfl, hc'⟩ := h'.exists_eq_cons
    obtain ⟨rfl, -⟩ := List.cons.inj text
    exact Option.some.inj (hc.symm.trans hc')
  have elements : Found n Element Closes := Element.found values
  cases h with
  | null =>
    cases h' with
    | null => exact ⟨rfl, rfl⟩
    | _ => cases same
  | bool b =>
    cases h' with
    | bool b' =>
      cases same
      exact ⟨rfl, rfl⟩
    | _ => cases same
  | number number =>
    cases h' with
    | number number' =>
      obtain ⟨rfl, -⟩ :=
        Bytes.run_append_inj number.isNumeric number'.isNumeric follows follows' text
      exact ⟨rfl, rfl⟩
    | _ => cases same
  | string string =>
    cases h' with
    | string string' =>
      obtain ⟨rfl, rfl⟩ := string.append_inj string' text
      exact ⟨rfl, rfl⟩
    | _ => cases same
  | array listed =>
    simp only [List.append_assoc] at text
    cases h' with
    | array listed' =>
      simp only [List.append_assoc] at text
      obtain ⟨rfl, rfl⟩ := Listed.found elements (fun _ _ ↦ Element.opens) (by decide) (by decide)
        (length_lt_of_bracketed rfl short) listed listed' ⟨_, rfl⟩ ⟨_, rfl⟩ (List.cons.inj text).2
      exact ⟨rfl, rfl⟩
    | _ => cases same
  | object listed =>
    simp only [List.append_assoc] at text
    cases h' with
    | object listed' =>
      simp only [List.append_assoc] at text
      obtain ⟨rfl, rfl⟩ := Listed.found (Member.found elements) (fun _ _ ↦ Member.opens)
        (by decide) (by decide) (length_lt_of_bracketed rfl short) listed listed' ⟨_, rfl⟩
        ⟨_, rfl⟩ (List.cons.inj text).2
      exact ⟨rfl, rfl⟩
    | _ => cases same

/-- Values of any length are found again. -/
theorem Value.found (n : Nat) : Found n Value (Bytes.Stops isNumeric) := by
  induction n with
  | zero => exact fun _ _ _ _ _ _ short ↦ absurd short (Nat.not_lt_zero _)
  | succ n ih => exact Value.found_succ ih

end Found

end Scriptlet.Json
