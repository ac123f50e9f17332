import Mathlib.Data.List.Forall2
import Scriptlet.Text.Quoted

/-!
# Reading text back

A number is read back from its decimal text wherever no digit follows it, and a string from
its quoted text wherever that stands: both are found again at the beginning of a longer text,
and what comes behind them is found with them. So are the parts of a closed list, if each of
them is.
-/

namespace Scriptlet.Bytes

section Decimal

/-- A text that does not begin with a byte of a kind, so that a run of that kind may stand before
it. -/
def Stops (p : UInt8 → Bool) (rest : Bytes) : Prop := ∀ c tail, rest = c :: tail → p c = false

/-- The end of a text stops a run of any kind. -/
theorem stops_nil (p : UInt8 → Bool) : Stops p [] := by
  intro _ _ h
  cases h

/-- A byte of another kind stops a run. -/
theorem stops_cons {p : UInt8 → Bool} {c : UInt8} (hc : p c = false) (tail : Bytes) :
    Stops p (c :: tail) := by
  intro _ _ h
  cases h
  exact hc

private theorem toNat_toUInt8 {c : Char} (h : c.isDigit = true) :
    c.toUInt8.toNat = c.toNat ∧ 0x30 ≤ c.toNat ∧ c.toNat ≤ 0x39 := by
  simp only [Char.isDigit, Bool.and_eq_true, decide_eq_true_eq] at h
  have hlow : 0x30 ≤ c.toNat := UInt32.le_iff_toNat_le.mp h.1
  have hhigh : c.toNat ≤ 0x39 := UInt32.le_iff_toNat_le.mp h.2
  refine ⟨?_, hlow, hhigh⟩
  change c.toNat % 2 ^ 8 = c.toNat
  omega

/-- Decimal text consists of digits. -/
theorem isDigit_of_mem_ofNat {n : Nat} {c : UInt8} (h : c ∈ ofNat n) : isDigit c = true := by
  obtain ⟨d, hd, rfl⟩ := List.mem_map.mp h
  obtain ⟨he, hlow, hhigh⟩ :=
    toNat_toUInt8 (Nat.isDigit_of_mem_toDigits (by decide) (by decide) hd)
  simp only [isDigit, Bool.and_eq_true, decide_eq_true_eq, UInt8.le_iff_toNat_le, he]
  exact ⟨hlow, hhigh⟩

private theorem ofNat_ne_nil (n : Nat) : ofNat n ≠ [] := by
  intro h
  exact Nat.toDigits_ne_nil (List.map_eq_nil_iff.mp h)

private theorem map_ofNat (n : Nat) :
    (ofNat n).map (fun c ↦ Char.ofNat c.toNat) = Nat.toDigits 10 n := by
  have hid : ∀ c ∈ Nat.toDigits 10 n, Char.ofNat c.toUInt8.toNat = id c := by
    intro c hc
    rw [(toNat_toUInt8 (Nat.isDigit_of_mem_toDigits (by decide) (by decide) hc)).1,
      Char.ofNat_toNat, id]
  rw [ofNat, List.map_map]
  exact (List.map_congr_left hid).trans (List.map_id _)

/-- Different numbers have different texts. -/
theorem ofNat_inj {m n : Nat} (h : ofNat m = ofNat n) : m = n := by
  rw [← Nat.ofDigitChars_ten_toDigits (n := m), ← map_ofNat, h, map_ofNat,
    Nat.ofDigitChars_ten_toDigits]

/-- A run of bytes of one kind is found again before anything that does not begin with one. -/
theorem run_append_inj {p : UInt8 → Bool} {a b rest rest' : Bytes} (ha : ∀ c ∈ a, p c = true)
    (hb : ∀ c ∈ b, p c = true) (hr : Stops p rest) (hr' : Stops p rest')
    (h : a ++ rest = b ++ rest') : a = b ∧ rest = rest' := by
  induction a generalizing b with
  | nil =>
    cases b with
    | nil => exact ⟨rfl, h⟩
    | cons c b =>
      have hc := hb c List.mem_cons_self
      rw [hr c (b ++ rest') h] at hc
      cases hc
  | cons c a ih =>
    cases b with
    | nil =>
      have hc := ha c List.mem_cons_self
      rw [hr' c (a ++ rest) h.symm] at hc
      cases hc
    | cons d b =>
      obtain ⟨rfl, ht⟩ := List.cons.inj h
      obtain ⟨rfl, he⟩ := ih (fun c hc ↦ ha c (List.mem_cons_of_mem _ hc))
        (fun c hc ↦ hb c (List.mem_cons_of_mem _ hc)) ht
      exact ⟨rfl, he⟩

private theorem digits_append_inj {a b rest rest' : Bytes} (ha : ∀ c ∈ a, isDigit c = true)
    (hb : ∀ c ∈ b, isDigit c = true) (hr : Stops isDigit rest) (hr' : Stops isDigit rest')
    (h : a ++ rest = b ++ rest') : a = b ∧ rest = rest' := run_append_inj ha hb hr hr' h

/-- Natural numbers are read back. -/
theorem ofNat_append_inj {m n : Nat} {rest rest' : Bytes} (hr : Stops isDigit rest)
    (hr' : Stops isDigit rest') (h : ofNat m ++ rest = ofNat n ++ rest') :
    m = n ∧ rest = rest' := by
  obtain ⟨hd, he⟩ := digits_append_inj (fun _ ↦ isDigit_of_mem_ofNat)
    (fun _ ↦ isDigit_of_mem_ofNat) hr hr' h
  exact ⟨ofNat_inj hd, he⟩

private theorem exists_ofNat_eq_cons (n : Nat) :
    ∃ c tail, ofNat n = c :: tail ∧ isDigit c = true := by
  obtain ⟨c, tail, h⟩ := List.exists_cons_of_ne_nil (ofNat_ne_nil n)
  exact ⟨c, tail, h, isDigit_of_mem_ofNat (h ▸ List.mem_cons_self)⟩

/-- The text of an integer begins with a minus sign or a digit. -/
theorem exists_ofInt_eq_cons (n : Int) :
    ∃ c tail, ofInt n = c :: tail ∧ (c = 0x2D ∨ isDigit c = true) := by
  cases n with
  | ofNat n =>
    obtain ⟨c, tail, h, hc⟩ := exists_ofNat_eq_cons n
    exact ⟨c, tail, h, Or.inr hc⟩
  | negSucc n => exact ⟨0x2D, ofNat (n + 1), rfl, Or.inl rfl⟩

/-- Integers are read back. -/
theorem ofInt_append_inj {m n : Int} {rest rest' : Bytes} (hr : Stops isDigit rest)
    (hr' : Stops isDigit rest')
    (h : ofInt m ++ rest = ofInt n ++ rest') : m = n ∧ rest = rest' := by
  -- A minus sign is no digit, so both integers have the same sign.
  have hsign (m n : Nat) (s t : Bytes) : ofNat m ++ s ≠ 0x2D :: (ofNat n ++ t) := by
    obtain ⟨c, tail, hm, hc⟩ := exists_ofNat_eq_cons m
    rw [hm]
    intro he
    rw [(List.cons.inj he).1] at hc
    cases hc
  cases m with
  | ofNat m =>
    cases n with
    | ofNat n =>
      obtain ⟨rfl, he⟩ := ofNat_append_inj hr hr' h
      exact ⟨rfl, he⟩
    | negSucc n => exact absurd h (hsign m (n + 1) rest rest')
  | negSucc m =>
    cases n with
    | ofNat n => exact absurd h.symm (hsign n (m + 1) rest' rest)
    | negSucc n =>
      obtain ⟨hm, he⟩ := ofNat_append_inj hr hr' (List.cons.inj h).2
      cases hm
      exact ⟨rfl, he⟩

/-- Words of 64 bits are read back. -/
theorem ofInt64_append_inj {m n : Int64} {rest rest' : Bytes} (hr : Stops isDigit rest)
    (hr' : Stops isDigit rest') (h : ofInt64 m ++ rest = ofInt64 n ++ rest') :
    m = n ∧ rest = rest' := by
  obtain ⟨hm, he⟩ := ofInt_append_inj hr hr' h
  exact ⟨Int64.toInt.inj hm, he⟩

end Decimal

section Words

/-- Truth values are read back. -/
theorem ofBool_append_inj {b b' : Bool} {s t : Bytes} (h : ofBool b ++ s = ofBool b' ++ t) :
    b = b' ∧ s = t := by
  cases b with
  | false =>
    cases b' with
    | false => exact ⟨rfl, List.append_cancel_left h⟩
    | true => exact absurd (List.cons.inj h).1 (by decide)
  | true =>
    cases b' with
    | false => exact absurd (List.cons.inj h).1 (by decide)
    | true => exact ⟨rfl, List.append_cancel_left h⟩

/-- The byte that a backslash and a letter stand for. -/
def unescapeByte (e : UInt8) : UInt8 :=
  if e = 0x6E then 0x0A
  else if e = 0x74 then 0x09
  else e

private theorem escapeByte_cases (c : UInt8) :
    escapeByte c = [c] ∧ c ≠ 0x5C ∧ c ≠ 0x22 ∨
      ∃ e, escapeByte c = [0x5C, e] ∧ unescapeByte e = c := by
  unfold escapeByte
  split
  · next h => exact Or.inr ⟨0x5C, rfl, h.symm⟩
  split
  · next h => exact Or.inr ⟨0x22, rfl, h.symm⟩
  split
  · next h => exact Or.inr ⟨0x6E, rfl, h.symm⟩
  split
  · next h => exact Or.inr ⟨0x74, rfl, h.symm⟩
  · next hb hq _ _ => exact Or.inl ⟨rfl, hb, hq⟩

/-- What a byte is written as is found again at the beginning of a text. -/
theorem escapeByte_append_inj {c d : UInt8} {s t : Bytes}
    (h : escapeByte c ++ s = escapeByte d ++ t) : c = d ∧ s = t := by
  rcases escapeByte_cases c with ⟨hc, hb, -⟩ | ⟨e, hc, rfl⟩
  · rcases escapeByte_cases d with ⟨hd, -, -⟩ | ⟨e, hd, -⟩
    · rw [hc, hd] at h
      exact List.cons.inj h
    · rw [hc, hd] at h
      exact absurd (List.cons.inj h).1 hb
  · rcases escapeByte_cases d with ⟨hd, hb, -⟩ | ⟨e', hd, rfl⟩
    · rw [hc, hd] at h
      exact absurd (List.cons.inj h).1.symm hb
    · rw [hc, hd] at h
      obtain ⟨rfl, ht⟩ := List.cons.inj (List.cons.inj h).2
      exact ⟨rfl, ht⟩

private theorem escapeByte_append_ne_quote (c : UInt8) (s t : Bytes) :
    escapeByte c ++ s ≠ 0x22 :: t := by
  intro h
  rcases escapeByte_cases c with ⟨hc, -, hq⟩ | ⟨e, hc, -⟩
  · rw [hc] at h
    exact hq (List.cons.inj h).1
  · rw [hc] at h
    exact absurd (List.cons.inj h).1 (by decide)

/-- A quoted text begins and ends with a quote. -/
theorem quoted_append (s rest : Bytes) :
    quoted s ++ rest = 0x22 :: (s.flatMap escapeByte ++ 0x22 :: rest) := by
  have hq : Bytes.ofString "\"" = [0x22] := rfl
  rw [quoted, hq]
  simp only [List.cons_append, List.nil_append, List.append_assoc]

/-- Strings are read back, whatever bytes they hold. -/
theorem quoted_append_inj {s t rest rest' : Bytes}
    (h : quoted s ++ rest = quoted t ++ rest') : s = t ∧ rest = rest' := by
  have hinner (s t : Bytes) (h : s.flatMap escapeByte ++ 0x22 :: rest =
      t.flatMap escapeByte ++ 0x22 :: rest') : s = t ∧ rest = rest' := by
    induction s generalizing t with
    | nil =>
      cases t with
      | nil => exact ⟨rfl, (List.cons.inj h).2⟩
      | cons d t =>
        rw [List.flatMap_cons, List.append_assoc] at h
        exact absurd h.symm (escapeByte_append_ne_quote d _ _)
    | cons c s ih =>
      rw [List.flatMap_cons, List.append_assoc] at h
      cases t with
      | nil => exact absurd h (escapeByte_append_ne_quote c _ _)
      | cons d t =>
        rw [List.flatMap_cons, List.append_assoc] at h
        obtain ⟨rfl, hs⟩ := escapeByte_append_inj h
        obtain ⟨rfl, he⟩ := ih t hs
        exact ⟨rfl, he⟩
  rw [quoted_append, quoted_append] at h
  exact hinner s t (List.cons.inj h).2

end Words

section Lists

variable {α β : Type} {f : α → Bytes} {g : β → Bytes} {close : UInt8}

/-- What follows the first part of a closed list. -/
private def following (f : α → Bytes) (close : UInt8) (xs : List α) (rest : Bytes) : Bytes :=
  match xs with
  | [] => close :: rest
  | xs => 0x2C :: 0x20 :: (commaSeparated (xs.map f) ++ close :: rest)

private theorem commaSeparated_append (x : α) (xs : List α) (rest : Bytes) :
    commaSeparated ((x :: xs).map f) ++ close :: rest = f x ++ following f close xs rest := by
  have hcomma : Bytes.ofString ", " = [0x2C, 0x20] := rfl
  cases xs with
  | nil => simp only [List.map_cons, List.map_nil, commaSeparated_singleton, following]
  | cons y xs =>
    simp only [List.map_cons, commaSeparated_cons_cons, hcomma, following, List.append_assoc,
      List.cons_append, List.nil_append]

private theorem stops_following (hclose : isDigit close = false) (xs : List α) (rest : Bytes) :
    Stops isDigit (following f close xs rest) := by
  cases xs with
  | nil => exact stops_cons hclose _
  | cons x xs => exact stops_cons (by decide) _

/-- The parts of two closed lists are related in order if each part is read back so, and none
begins like the end of the list. -/
theorem commaSeparated_append_inj {R : α → β → Prop} (hcomma : close ≠ 0x2C)
    (hdigit : isDigit close = false) {xs : List α} {ys : List β}
    (hf : ∀ x ∈ xs, ∀ s t, f x ++ s ≠ close :: t) (hg : ∀ y ∈ ys, ∀ s t, g y ++ s ≠ close :: t)
    (hread : ∀ x ∈ xs, ∀ y ∈ ys, ∀ s t, Stops isDigit s → Stops isDigit t →
      f x ++ s = g y ++ t → R x y ∧ s = t)
    {rest rest' : Bytes} (h : commaSeparated (xs.map f) ++ close :: rest =
      commaSeparated (ys.map g) ++ close :: rest') :
    List.Forall₂ R xs ys ∧ rest = rest' := by
  induction xs generalizing ys with
  | nil =>
    cases ys with
    | nil => exact ⟨.nil, (List.cons.inj h).2⟩
    | cons y ys =>
      rw [commaSeparated_append] at h
      exact absurd h.symm (hg y List.mem_cons_self _ _)
  | cons x xs ih =>
    rw [commaSeparated_append] at h
    cases ys with
    | nil => exact absurd h (hf x List.mem_cons_self _ _)
    | cons y ys =>
      rw [commaSeparated_append] at h
      obtain ⟨hxy, ht⟩ := hread x List.mem_cons_self y List.mem_cons_self _ _
        (stops_following hdigit xs rest) (stops_following hdigit ys rest') h
      cases xs with
      | nil =>
        cases ys with
        | nil => exact ⟨.cons hxy .nil, (List.cons.inj ht).2⟩
        | cons y' ys => exact absurd (List.cons.inj ht).1 hcomma
      | cons x' xs =>
        cases ys with
        | nil => exact absurd (List.cons.inj ht).1.symm hcomma
        | cons y' ys =>
          obtain ⟨hrest, he⟩ := ih (fun x hx ↦ hf x (List.mem_cons_of_mem _ hx))
            (fun y hy ↦ hg y (List.mem_cons_of_mem _ hy))
            (fun x hx y hy ↦ hread x (List.mem_cons_of_mem _ hx) y (List.mem_cons_of_mem _ hy))
            (List.cons.inj (List.cons.inj ht).2).2
          exact ⟨.cons hxy hrest, he⟩

end Lists

end Scriptlet.Bytes
