import Scriptlet.Proofs.Text.Pieces
import Scriptlet.Proofs.Walk.Course

/-!
# Walks over texts

A walk over a text visits its pieces under the keys 0, 1, 2 and so on, and is then over; no heap
plays a part in it. So a walk divides its text without loss, visits the characters of valid UTF-8
one by one, and goes on behind them as if the rest were a text of its own. Where a text breaks a
sequence off, a walk visits a piece that takes in bytes of other characters.
-/

namespace Scriptlet.Walk

open Utf8

/-- The entries that pieces make under the ordinals from `n` on. -/
def numbered (n : Nat) (ps : List Bytes) : List (Value × Value) :=
  (ps.zipIdx n).map fun x ↦ (.int (Int64.ofNat x.2), .str x.1)

/-- What some number of calls give that visit the entries in turn, each with whether the walk is
over after it. -/
def replies : List (Value × Value) → Nat → List (Visit × Bool)
  | _, 0 => []
  | [], n + 1 => (.finished, true) :: replies [] n
  | e :: es, n + 1 => (.entry e.1 e.2, false) :: replies es n

/-- A walk over the text `s` visits the pieces `ps` under the keys 0, 1, 2 and so on and then is
over, whether it is run to its end at once or asked for its visits one by one. -/
def Yields (s : Bytes) (ps : List Bytes) : Prop :=
  ∀ (h : Heap) (location : Location), ∃ w, Walk.start h (.str s) location = .ok w ∧
    w.toList h = .ok (numbered 0 ps) ∧
    ∀ number hs, (w.calls number hs).map (fun c ↦ (c.visit, c.ended)) =
      replies (numbered 0 ps) hs.length

private theorem numbered_inj {n : Nat} {ps qs : List Bytes} (h : numbered n ps = numbered n qs) :
    ps = qs := by
  induction ps generalizing n qs with
  | nil =>
    cases qs with
    | nil => rfl
    | cons q qs => cases h
  | cons p ps ih =>
    cases qs with
    | nil => cases h
    | cons q qs =>
      obtain ⟨hentry, hrest⟩ := List.cons.inj h
      have hp : p = q := Value.str.inj (Prod.mk.inj hentry).2
      rw [hp, ih hrest]

private theorem go_text (h : Heap) (w : Walk) (s : Bytes) (n : Nat) :
    toList.go h w (.text s n) = .ok (numbered n (pieces s)) := by
  induction s using pieces.induct generalizing n with
  | case1 =>
    rw [toList.go, pieces]
    rfl
  | case2 lead tail ih =>
    rw [toList.go, pieces]
    simp only [Cursor.advance, ih]
    rfl

private theorem map_calls_of_exhausted (number : Nat) (w : Walk) (hw : w.exhausted = true)
    (hs : List Heap) :
    (w.calls number hs).map (fun c ↦ (c.visit, c.ended)) = replies [] hs.length := by
  induction hs with
  | nil => rfl
  | cons h hs ih =>
    rw [calls, next_of_exhausted h w hw, List.map_cons, ih, hw]
    rfl

private theorem map_calls_text (number : Nat) (location : Location) (s : Bytes) (n : Nat)
    (hs : List Heap) :
    (calls number { cursor := .text s n, location } hs).map (fun c ↦ (c.visit, c.ended)) =
      replies (numbered n (pieces s)) hs.length := by
  -- The induction is on the calls: there may be fewer of them than pieces, or more.
  induction hs generalizing s n with
  | nil =>
    rw [List.length_nil, replies]
    rfl
  | cons h hs ih =>
    cases s with
    | nil =>
      have hover := map_calls_of_exhausted number
        { cursor := .text [] n, location, exhausted := true } rfl hs
      rw [calls, pieces, List.map_cons]
      exact congrArg _ hover
    | cons lead tail =>
      rw [calls, pieces, List.map_cons]
      exact congrArg _ (ih (afterFirst lead tail) (n + 1))

private theorem yields_iff (s : Bytes) (ps : List Bytes) : Yields s ps ↔ ps = pieces s := by
  constructor
  · intro hy
    obtain ⟨w, hstart, hrun, -⟩ := hy {} {}
    cases hstart
    rw [toList] at hrun
    have hpieces := go_text {} { cursor := .text s 0, location := {} } s 0
    exact numbered_inj (Except.ok.inj (hrun.symm.trans hpieces))
  · rintro rfl h location
    refine ⟨{ cursor := .text s 0, location }, rfl, ?_, ?_⟩
    · rw [toList]
      exact go_text h _ s 0
    · intro number hs
      exact map_calls_text number location s 0 hs

/-- A walk divides its text into one to four bytes each, without loss. It visits the characters of
valid UTF-8 one by one, and then what a walk over the rest alone would visit. -/
theorem yields_partition (s : Bytes) :
    ∃ ps, Yields s ps ∧ (∀ p ∈ ps, p ≠ [] ∧ p.length ≤ 4) ∧ ps.flatten = s ∧
      (s.toByteArray.IsValidUTF8 →
        (∃ cs : List Char, s = encode cs ∧ ps = cs.map String.utf8EncodeChar) ∧
          ∀ t qs, Yields t qs → Yields (s ++ t) (ps ++ qs)) := by
  refine ⟨pieces s, (yields_iff s _).mpr rfl, fun _ ↦ length_le_of_mem_pieces, flatten_pieces s,
    ?_⟩
  intro hvalid
  obtain ⟨cs, rfl⟩ := (isValidUTF8_iff s).mp hvalid
  refine ⟨⟨cs, rfl, pieces_encode cs⟩, ?_⟩
  intro t qs hqs
  rw [yields_iff] at hqs ⊢
  rw [hqs, pieces_encode_append, pieces_encode]

/-- A walk visits pieces that start with a lead byte and have as many bytes as it announces; only
the last may be cut short, by the end of the text. They are sequences of a lead byte and
continuation bytes exactly if the text breaks none off. -/
theorem yields_announced (s : Bytes) :
    ∃ ps, Yields s ps ∧
      (∀ p ∈ ps, 1 < p.length → ∃ lead tail, p = lead :: tail ∧ IsLead lead) ∧
      (∀ p ∈ ps.dropLast, ∃ lead tail, p = lead :: tail ∧ p.length = sequenceLength lead) ∧
      ((∀ p ∈ ps, 1 < p.length → IsSequence p) ↔ Unbroken s) :=
  ⟨pieces s, (yields_iff s _).mpr rfl, fun _ ↦ exists_isLead_of_mem_pieces,
    fun _ ↦ length_of_mem_dropLast_pieces, forall_pieces_isSequence_iff s⟩

/-- A lead byte of three takes in two letters that follow it. -/
theorem not_yields_sequences :
    ¬ ∀ s, ∃ ps, Yields s ps ∧ ∀ p ∈ ps, 1 < p.length → IsSequence p := by
  intro h
  obtain ⟨ps, hps, hsequences⟩ := h [0xE2, 0x41, 0x42]
  rw [(yields_iff _ ps).mp hps, forall_pieces_isSequence_iff] at hsequences
  have hletter := hsequences [] 0xE2 [0x41, 0x42] rfl 0x41 (by decide)
  exact absurd hletter.1 (by decide)

end Scriptlet.Walk
