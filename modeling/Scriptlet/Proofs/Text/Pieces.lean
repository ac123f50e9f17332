import Scriptlet.Text.Utf8

/-!
# Texts in pieces

Read one character after the other, a text falls into pieces: none is empty or longer than four
bytes, and together they are the text. Of valid UTF-8 the pieces are the characters, whatever comes
behind it. Elsewhere a piece has as many bytes as its first byte announces, whatever they are, so a
sequence that is broken off takes in what follows it. This happens exactly in the texts in which
some lead byte is not followed by the continuation bytes that it announces, up to the text's end.
-/

namespace Scriptlet.Utf8

/-- The pieces that a text is read in. -/
def pieces : Bytes → List Bytes
  | [] => []
  | lead :: tail => firstPiece lead tail :: pieces (afterFirst lead tail)
termination_by s => s.length
decreasing_by exact length_afterFirst_lt lead tail

/-- The text of some characters. -/
def encode (cs : List Char) : Bytes := cs.flatMap String.utf8EncodeChar

/-- A byte that a character of more than one byte may start with. -/
def IsLead (b : UInt8) : Prop := 0xC0 ≤ b ∧ b < 0xF8

/-- A byte that continues a character. -/
def IsContinuation (b : UInt8) : Prop := 0x80 ≤ b ∧ b ≤ 0xBF

/-- A lead byte and continuation bytes. -/
inductive IsSequence : Bytes → Prop where
  | mk {lead : UInt8} {tail : Bytes} (isLead : IsLead lead)
      (continued : ∀ b ∈ tail, IsContinuation b) : IsSequence (lead :: tail)

/-- Wherever a byte announces others, continuation bytes follow, as many as it announces or up to
the end of the text. -/
def Unbroken (s : Bytes) : Prop :=
  ∀ before lead tail, s = before ++ lead :: tail →
    ∀ b ∈ tail.take (sequenceLength lead - 1), IsContinuation b

section Partition

/-- No byte is lost. -/
@[simp]
theorem flatten_pieces (s : Bytes) : (pieces s).flatten = s := by
  induction s using pieces.induct with
  | case1 => rw [pieces, List.flatten_nil]
  | case2 lead tail ih => rw [pieces, List.flatten_cons, ih, firstPiece_append_afterFirst]

/-- A piece is a byte and at most three others. -/
theorem length_le_of_mem_pieces {s p : Bytes} (hp : p ∈ pieces s) : p ≠ [] ∧ p.length ≤ 4 := by
  induction s using pieces.induct with
  | case1 =>
    rw [pieces] at hp
    cases hp
  | case2 lead tail ih =>
    rw [pieces] at hp
    rcases List.mem_cons.mp hp with rfl | hp
    · have hn := (sequenceLength_bounds lead).2
      refine ⟨List.cons_ne_nil _ _, ?_⟩
      rw [firstPiece, List.length_cons, List.length_take]
      omega
    · exact ih hp

end Partition

section Characters

private theorem one_lt_sequenceLength_iff (b : UInt8) : 1 < sequenceLength b ↔ IsLead b := by
  simp only [sequenceLength, IsLead, UInt8.lt_iff_toNat_lt, UInt8.le_iff_toNat_le,
    UInt8.toNat_ofNat]
  repeat' split
  all_goals omega

/-- A character is as long as its first byte announces. -/
theorem exists_utf8EncodeChar_eq_cons (c : Char) : ∃ lead tail,
    String.utf8EncodeChar c = lead :: tail ∧ sequenceLength lead = tail.length + 1 := by
  simp only [String.utf8EncodeChar]
  repeat' split
  all_goals
    refine ⟨_, _, rfl, ?_⟩
    simp only [sequenceLength, UInt8.lt_iff_toNat_lt, UInt8.toNat_ofNat, UInt8.toNat_ofNat',
      List.length_cons, List.length_nil]
    repeat' split
    all_goals omega

/-- A character at the beginning of a text is a piece. -/
theorem pieces_utf8EncodeChar_append (c : Char) (t : Bytes) :
    pieces (String.utf8EncodeChar c ++ t) = String.utf8EncodeChar c :: pieces t := by
  obtain ⟨lead, tail, hc, hlength⟩ := exists_utf8EncodeChar_eq_cons c
  have hn : sequenceLength lead - 1 = tail.length := by omega
  rw [hc, List.cons_append, pieces, firstPiece, afterFirst, hn, List.take_left, List.drop_left]

/-- The characters at the beginning of a text are pieces. -/
theorem pieces_encode_append (cs : List Char) (t : Bytes) :
    pieces (encode cs ++ t) = cs.map String.utf8EncodeChar ++ pieces t := by
  induction cs with
  | nil => rfl
  | cons c cs ih =>
    rw [encode, List.flatMap_cons, List.append_assoc, pieces_utf8EncodeChar_append, ← encode, ih]
    rfl

/-- A character at the beginning of a text is found again. -/
theorem utf8EncodeChar_append_inj {c d : Char} {t t' : Bytes}
    (h : String.utf8EncodeChar c ++ t = String.utf8EncodeChar d ++ t') : c = d ∧ t = t' := by
  have decoded := congrArg (fun s : Bytes ↦ s.toByteArray.utf8DecodeChar? 0) h
  simp only [List.toByteArray_append, ByteArray.utf8DecodeChar?_utf8EncodeChar_append,
    Option.some.injEq] at decoded
  subst decoded
  exact ⟨rfl, List.append_cancel_left h⟩

/-- A character with a number below 128 is the byte with this number. -/
theorem utf8EncodeChar_of_lt {c : Char} (h : c.toNat < 0x80) :
    String.utf8EncodeChar c = [UInt8.ofNat c.toNat] :=
  if_pos (Nat.le_of_lt_succ h)

private theorem le_of_mem_utf8EncodeChar {c : Char} (h : 0x80 ≤ c.toNat) :
    ∀ b ∈ String.utf8EncodeChar c, 0x80 ≤ b := by
  have hc : ¬ c.val.toNat ≤ 0x7F := Nat.not_le_of_lt h
  simp only [String.utf8EncodeChar, hc, if_false, UInt8.le_iff_toNat_le]
  repeat' split
  all_goals
    simp only [List.forall_mem_cons, List.not_mem_nil, false_implies, implies_true, and_true,
      UInt8.toNat_ofNat, UInt8.toNat_ofNat']
    omega

/-- A byte below 128 stands in one character only. -/
theorem eq_of_mem_utf8EncodeChar {c : Char} {b : UInt8} (hb : b ∈ String.utf8EncodeChar c)
    (low : b < 0x80) : c = Char.ofNat b.toNat := by
  by_cases h : c.toNat < 0x80
  · rw [utf8EncodeChar_of_lt h, List.mem_singleton] at hb
    rw [hb, UInt8.toNat_ofNat', Nat.mod_eq_of_lt (by omega), Char.ofNat_toNat]
  · exact absurd low (UInt8.not_lt.mpr (le_of_mem_utf8EncodeChar (Nat.le_of_not_lt h) b hb))

/-- The pieces of some characters are the characters. -/
theorem pieces_encode (cs : List Char) : pieces (encode cs) = cs.map String.utf8EncodeChar := by
  have h := pieces_encode_append cs []
  rwa [List.append_nil, pieces, List.append_nil] at h

/-- Valid UTF-8 is the text of some characters. -/
theorem isValidUTF8_iff (s : Bytes) : s.toByteArray.IsValidUTF8 ↔ ∃ cs, s = encode cs := by
  constructor
  · rintro ⟨cs, hcs⟩
    exact ⟨cs, List.toByteArray_inj.mp hcs⟩
  · rintro ⟨cs, rfl⟩
    exact ⟨cs, rfl⟩

end Characters

section Announcement

/-- A piece of more than one byte starts with a lead byte. -/
theorem exists_isLead_of_mem_pieces {s p : Bytes} (hp : p ∈ pieces s) (hl : 1 < p.length) :
    ∃ lead tail, p = lead :: tail ∧ IsLead lead := by
  induction s using pieces.induct with
  | case1 =>
    rw [pieces] at hp
    cases hp
  | case2 lead tail ih =>
    rw [pieces] at hp
    rcases List.mem_cons.mp hp with rfl | hp
    · rw [firstPiece, List.length_cons, List.length_take] at hl
      exact ⟨lead, _, rfl, (one_lt_sequenceLength_iff lead).mp (by omega)⟩
    · exact ih hp

/-- Every piece but the last is as long as its first byte announces. -/
theorem length_of_mem_dropLast_pieces {s p : Bytes} (hp : p ∈ (pieces s).dropLast) :
    ∃ lead tail, p = lead :: tail ∧ p.length = sequenceLength lead := by
  induction s using pieces.induct with
  | case1 =>
    rw [pieces] at hp
    cases hp
  | case2 lead tail ih =>
    rw [pieces] at hp
    by_cases hlast : pieces (afterFirst lead tail) = []
    · rw [hlast] at hp
      cases hp
    · rw [List.dropLast_cons_of_ne_nil hlast] at hp
      rcases List.mem_cons.mp hp with rfl | hp
      · -- The text goes on behind this piece, so its end did not cut the piece short.
        have hlong : sequenceLength lead - 1 < tail.length := by
          apply Nat.lt_of_not_le
          intro hle
          rw [afterFirst, List.drop_of_length_le hle, pieces] at hlast
          exact hlast rfl
        have hpos := (sequenceLength_bounds lead).1
        refine ⟨lead, _, rfl, ?_⟩
        rw [firstPiece, List.length_cons, List.length_take]
        omega
      · exact ih hp

private theorem sequenceLength_of_isContinuation {b : UInt8} (hb : IsContinuation b) :
    sequenceLength b = 1 := by
  have hn : ¬ 1 < sequenceLength b := by
    rw [one_lt_sequenceLength_iff, IsLead]
    simp only [IsContinuation, UInt8.lt_iff_toNat_lt, UInt8.le_iff_toNat_le,
      UInt8.toNat_ofNat] at hb ⊢
    omega
  have hpos := (sequenceLength_bounds b).1
  omega

private theorem Unbroken.afterFirst {lead : UInt8} {tail : Bytes} (h : Unbroken (lead :: tail)) :
    Unbroken (afterFirst lead tail) := by
  intro before lead' tail' hs
  refine h (firstPiece lead tail ++ before) lead' tail' ?_
  rw [List.append_assoc, ← hs, firstPiece_append_afterFirst]

/-- The first piece of an unbroken text is a single byte or a sequence. -/
theorem Unbroken.firstPiece {lead : UInt8} {tail : Bytes} (h : Unbroken (lead :: tail))
    (hl : 1 < (firstPiece lead tail).length) : IsSequence (firstPiece lead tail) := by
  rw [Utf8.firstPiece, List.length_cons, List.length_take] at hl
  exact .mk ((one_lt_sequenceLength_iff lead).mp (by omega)) (h [] lead tail rfl)

private theorem continued_of_firstPiece {lead : UInt8} {tail : Bytes}
    (h : 1 < (firstPiece lead tail).length → IsSequence (firstPiece lead tail)) :
    ∀ b ∈ tail.take (sequenceLength lead - 1), IsContinuation b := by
  intro b hb
  have hl : 1 < (firstPiece lead tail).length := by
    have hpos := List.length_pos_of_mem hb
    rw [firstPiece, List.length_cons]
    omega
  cases h hl with
  | mk _ continued => exact continued b hb

private theorem Unbroken.cons {lead : UInt8} {tail : Bytes}
    (hfirst : 1 < (Utf8.firstPiece lead tail).length → IsSequence (Utf8.firstPiece lead tail))
    (hrest : Unbroken (Utf8.afterFirst lead tail)) : Unbroken (lead :: tail) := by
  have hcontinued := continued_of_firstPiece hfirst
  intro before lead' tail' hs
  cases before with
  | nil =>
    obtain ⟨rfl, rfl⟩ := List.cons.inj hs
    exact hcontinued
  | cons _ before =>
    rw [List.cons_append, List.cons.injEq] at hs
    obtain ⟨-, rfl⟩ := hs
    rw [Utf8.afterFirst] at hrest
    by_cases hin : before.length < sequenceLength lead - 1
    · -- The byte stands in the first piece, where it continues the sequence.
      have hmem : lead' ∈ (before ++ lead' :: tail').take (sequenceLength lead - 1) := by
        rw [List.take_append]
        apply List.mem_append_right
        obtain ⟨k, hk⟩ : ∃ k, sequenceLength lead - 1 - before.length = k + 1 :=
          ⟨sequenceLength lead - 1 - before.length - 1, by omega⟩
        rw [hk, List.take_succ_cons]
        exact List.mem_cons_self
      rw [sequenceLength_of_isContinuation (hcontinued lead' hmem)]
      intro b hb
      cases hb
    · refine hrest (before.drop (sequenceLength lead - 1)) lead' tail' ?_
      rw [List.drop_append_of_le_length (Nat.le_of_not_lt hin)]

/-- The pieces of more than one byte are sequences exactly if the text is unbroken. -/
theorem forall_pieces_isSequence_iff (s : Bytes) :
    (∀ p ∈ pieces s, 1 < p.length → IsSequence p) ↔ Unbroken s := by
  induction s using pieces.induct with
  | case1 =>
    rw [pieces]
    constructor
    · rintro - before lead tail hs
      exact absurd hs.symm (List.append_ne_nil_of_right_ne_nil _ (List.cons_ne_nil _ _))
    · rintro - p hp
      cases hp
  | case2 lead tail ih =>
    rw [pieces, List.forall_mem_cons, ih]
    constructor
    · rintro ⟨hfirst, hrest⟩
      exact Unbroken.cons hfirst hrest
    · intro h
      exact ⟨h.firstPiece, h.afterFirst⟩

end Announcement

end Scriptlet.Utf8
