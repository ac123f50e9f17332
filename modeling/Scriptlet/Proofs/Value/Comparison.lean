import Scriptlet.Proofs.Dictionary.Listing
import Scriptlet.Proofs.Value.Exactness

/-!
# Comparisons

The integers and the texts are each in a total order, which the six comparisons agree on: integers
in that of arithmetic, texts in that of their bytes as unsigned numbers, a beginning before what it
begins. No other two values are in any order. Equality is asked of all values and never fails; of
two integers or texts it says whether they are one key.
-/

namespace Scriptlet

/-- One text comes before another if it is a proper beginning of it, or has the lesser byte where
they first differ. -/
inductive Bytes.Precedes (s t : Bytes) : Prop where
  | beginning {rest : Bytes} (more : rest ≠ []) (split : t = s ++ rest) : Precedes s t
  | differing {shared after after' : Bytes} {b c : UInt8} (lesser : b.toNat < c.toNat)
      (left : s = shared ++ b :: after) (right : t = shared ++ c :: after') : Precedes s t

namespace Bytes

private theorem precedes_nil_iff (t : Bytes) : Precedes [] t ↔ t ≠ [] := by
  constructor
  · rintro (⟨more, rfl⟩ | ⟨_, left, _⟩)
    · exact more
    · exact absurd left.symm (List.append_ne_nil_of_right_ne_nil _ (List.cons_ne_nil _ _))
  · exact fun h ↦ .beginning h rfl

private theorem not_precedes_nil (s : Bytes) : ¬ Precedes s [] := by
  rintro (⟨more, split⟩ | ⟨_, _, right⟩)
  · exact more (List.append_eq_nil_iff.mp split.symm).2
  · exact absurd right.symm (List.append_ne_nil_of_right_ne_nil _ (List.cons_ne_nil _ _))

private theorem precedes_cons_iff (b c : UInt8) (s t : Bytes) :
    Precedes (b :: s) (c :: t) ↔ b < c ∨ b = c ∧ Precedes s t := by
  constructor
  · rintro (⟨more, split⟩ | ⟨lesser, left, right⟩)
    · obtain ⟨rfl, rfl⟩ := List.cons.inj split
      exact .inr ⟨rfl, .beginning more rfl⟩
    · next shared _ _ _ _ =>
      cases shared with
      | nil =>
        obtain ⟨rfl, -⟩ := List.cons.inj left
        obtain ⟨rfl, -⟩ := List.cons.inj right
        exact .inl (UInt8.lt_iff_toNat_lt.mpr lesser)
      | cons d shared =>
        obtain ⟨rfl, rfl⟩ := List.cons.inj left
        obtain ⟨rfl, rfl⟩ := List.cons.inj right
        exact .inr ⟨rfl, .differing lesser rfl rfl⟩
  · rintro (lesser | ⟨rfl, ⟨more, rfl⟩ | ⟨lesser, rfl, rfl⟩⟩)
    · exact .differing (UInt8.lt_iff_toNat_lt.mp lesser) (List.nil_append _).symm
        (List.nil_append _).symm
    · exact .beginning more rfl
    · exact .differing lesser List.cons_append.symm List.cons_append.symm

/-- The order of texts is the order of their bytes. -/
theorem lt_iff_precedes (s t : Bytes) : s < t ↔ Precedes s t := by
  induction s generalizing t with
  | nil =>
    rw [precedes_nil_iff]
    cases t with
    | nil => exact iff_of_false (List.lt_irrefl []) (fun h ↦ h rfl)
    | cons c t => exact iff_of_true (List.nil_lt_cons c t) (List.cons_ne_nil c t)
  | cons b s ih =>
    cases t with
    | nil => exact iff_of_false (List.not_lt_nil (b :: s)) (not_precedes_nil (b :: s))
    | cons c t => rw [List.cons_lt_cons_iff, precedes_cons_iff, ih]

end Bytes

/-- Two integers or two texts. -/
def Value.Comparable (a b : Value) : Prop :=
  a.type = b.type ∧ (a.type = .int ∨ a.type = .string)

namespace Heap

/-- Two values address the same entry of a dictionary: what is written under one of them is read
under the other. -/
def SameEntry (h : Heap) (r : DictRef) (a b : Value) : Prop :=
  ∀ v, ∃ h', h.write (.dict r) a v = .ok h' ∧ h'.read (.dict r) b = .ok v

/-- A comparison of two values is true. -/
def Holds (h : Heap) (op : Bytes) (a b : Value) : Prop := h.binary op a b = .ok (.bool true)

/-- The comparisons put some of the values into a total order, and agree on it. -/
structure Ordered {α : Type} (h : Heap) (value : α → Value) : Prop where
  answers : ∀ op ∈ (["<", "<=", ">", ">=", "==", "!="] : List Bytes), ∀ a b,
    ∃ t, h.binary op (value a) (value b) = .ok (.bool t)
  exactly_one : ∀ a b, ∃! op, op ∈ (["<", "==", ">"] : List Bytes) ∧
    h.Holds op (value a) (value b)
  less_trans : ∀ a b c, h.Holds "<" (value a) (value b) → h.Holds "<" (value b) (value c) →
    h.Holds "<" (value a) (value c)
  lessEq_iff : ∀ a b, h.Holds "<=" (value a) (value b) ↔
    h.Holds "<" (value a) (value b) ∨ h.Holds "==" (value a) (value b)
  greaterEq_iff : ∀ a b, h.Holds ">=" (value a) (value b) ↔ h.Holds "<=" (value b) (value a)
  notEqual_iff : ∀ a b, h.Holds "!=" (value a) (value b) ↔ ¬ h.Holds "==" (value a) (value b)

/-- What the comparisons say of all pairs of values. -/
structure Comparisons (h : Heap) : Prop where
  ints : h.Ordered Value.int
  texts : h.Ordered Value.str
  /-- The order of the integers is that of arithmetic. -/
  int_less_iff : ∀ a b : Int64, h.Holds "<" (.int a) (.int b) ↔ a.toInt < b.toInt
  text_less_iff : ∀ s t : Bytes, h.Holds "<" (.str s) (.str t) ↔ s.Precedes t
  others : ∀ a b : Value, ¬ a.Comparable b → ∀ op ∈ (["<", "<=", ">", ">="] : List Bytes),
    ∃ cause, h.binary op a b = .error cause ∧ cause.kind = .typeMismatch
  equality : ∀ a b : Value, ∃ t, h.binary "==" a b = .ok (.bool t) ∧
    h.binary "!=" a b = .ok (.bool !t)
  equivalence : Equivalence (h.Holds "==")
  /-- Integers and texts are equal if they are one key of any dictionary. -/
  keys : ∀ a b : Value, a.type = .int ∨ a.type = .string → b.type = .int ∨ b.type = .string →
    ∀ (g : Heap) (r : DictRef), g.WF → g.Has (.dict r) →
      (h.Holds "==" a b ↔ g.SameEntry r a b)

section Truth

variable (h : Heap)

private theorem holds_iff {op : Bytes} {a b : Value} {p : Prop} [Decidable p]
    (answer : h.binary op a b = .ok (.bool (decide p))) : h.Holds op a b ↔ p := by
  rw [Holds, answer, Except.ok.injEq, Value.bool.injEq, decide_eq_true_iff]

private theorem holds_equal_iff (a b : Value) : h.Holds "==" a b ↔ a = b := h.holds_iff rfl

private theorem holds_notEqual_iff (a b : Value) : h.Holds "!=" a b ↔ a ≠ b := by
  have answer : h.binary "!=" a b = .ok (.bool !a.equals b) := rfl
  rw [Holds, answer, Except.ok.injEq, Value.bool.injEq, Bool.not_eq_true', Value.equals,
    decide_eq_false_iff_not]

end Truth

section Orders

variable {α : Type} [LT α] [LE α] [DecidableLT α] [DecidableLE α] [Std.IsLinearOrder α]
  [Std.LawfulOrderLT α] {h : Heap} {value : α → Value}

/-- Values are ordered as a type is if the four comparisons ask for its order. -/
theorem Ordered.of_order (injective : ∀ a b, value a = value b ↔ a = b)
    (less : ∀ a b, h.binary "<" (value a) (value b) = .ok (.bool (decide (a < b))))
    (lessEq : ∀ a b, h.binary "<=" (value a) (value b) = .ok (.bool (decide (a ≤ b))))
    (greater : ∀ a b, h.binary ">" (value a) (value b) = .ok (.bool (decide (b < a))))
    (greaterEq : ∀ a b, h.binary ">=" (value a) (value b) = .ok (.bool (decide (b ≤ a)))) :
    h.Ordered value := by
  have hequal (a b : α) : h.Holds "==" (value a) (value b) ↔ a = b :=
    (h.holds_equal_iff _ _).trans (injective a b)
  have hless (a b : α) := h.holds_iff (less a b)
  have hgreater (a b : α) := h.holds_iff (greater a b)
  refine ⟨fun op hop a b ↦ ?_, fun a b ↦ ?_, fun a b c ↦ ?_, fun a b ↦ ?_, fun a b ↦ ?_,
    fun a b ↦ ?_⟩
  · simp only [List.mem_cons, List.not_mem_nil, or_false] at hop
    rcases hop with rfl | rfl | rfl | rfl | rfl | rfl
    · exact ⟨_, less a b⟩
    · exact ⟨_, lessEq a b⟩
    · exact ⟨_, greater a b⟩
    · exact ⟨_, greaterEq a b⟩
    · exact ⟨_, rfl⟩
    · exact ⟨_, rfl⟩
  · simp only [List.mem_cons, List.not_mem_nil, or_false]
    rcases Std.lt_trichotomy a b with hab | rfl | hba
    · refine ⟨"<", ⟨.inl rfl, (hless a b).mpr hab⟩, ?_⟩
      rintro _ ⟨rfl | rfl | rfl, hop⟩
      · rfl
      · exact absurd ((hequal a b).mp hop ▸ hab) Std.lt_irrefl
      · exact absurd (Std.lt_trans hab ((hgreater a b).mp hop)) Std.lt_irrefl
    · refine ⟨"==", ⟨.inr (.inl rfl), (hequal a a).mpr rfl⟩, ?_⟩
      rintro _ ⟨rfl | rfl | rfl, hop⟩
      · exact absurd ((hless a a).mp hop) Std.lt_irrefl
      · rfl
      · exact absurd ((hgreater a a).mp hop) Std.lt_irrefl
    · refine ⟨">", ⟨.inr (.inr rfl), (hgreater a b).mpr hba⟩, ?_⟩
      rintro _ ⟨rfl | rfl | rfl, hop⟩
      · exact absurd (Std.lt_trans ((hless a b).mp hop) hba) Std.lt_irrefl
      · exact absurd ((hequal a b).mp hop ▸ hba) Std.lt_irrefl
      · rfl
  · rw [hless, hless, hless]
    exact Std.lt_trans
  · rw [h.holds_iff (lessEq a b), hless, hequal, Std.le_iff_lt_or_eq]
  · rw [h.holds_iff (greaterEq a b), h.holds_iff (lessEq b a)]
  · rw [hequal, h.holds_notEqual_iff, ne_eq, injective]

/-- The integers are in the order of arithmetic. -/
theorem ordered_ints (h : Heap) : h.Ordered Value.int :=
  .of_order (fun _ _ ↦ Value.int.injEq _ _ ▸ Iff.rfl) (h.binary_text .less) (h.binary_text .lessEq)
    (h.binary_text .greater) (h.binary_text .greaterEq)

/-- The texts are in the order of their bytes. -/
theorem ordered_texts (h : Heap) : h.Ordered Value.str :=
  .of_order (fun _ _ ↦ Value.str.injEq _ _ ▸ Iff.rfl) (fun _ _ ↦ rfl) (fun _ _ ↦ rfl)
    (fun _ _ ↦ rfl) (fun _ _ ↦ rfl)

end Orders

private theorem binary_of_not_comparable (h : Heap) {a b : Value} (hab : ¬ a.Comparable b)
    {op : Bytes} (hop : op ∈ (["<", "<=", ">", ">="] : List Bytes)) :
    h.binary op a b = .error (.operandTypes op a.type b.type) := by
  simp only [List.mem_cons, List.not_mem_nil, or_false] at hop
  cases a <;> cases b
  case int.int => exact absurd ⟨rfl, .inl rfl⟩ hab
  case str.str => exact absurd ⟨rfl, .inr rfl⟩ hab
  all_goals rcases hop with rfl | rfl | rfl | rfl <;> rfl

private theorem read_of_sameEntry {h : Heap} (wf : h.WF) {r : DictRef} (has : h.Has (.dict r))
    {a b : Value} (same : h.SameEntry r a b) (hne : b ≠ a) (v : Value) :
    h.read (.dict r) b = .ok v := by
  obtain ⟨h', written, read⟩ := same v
  have elsewhere := (stores_dict wf has written).elsewhere (.dict r) b rfl hne
  rw [read] at elsewhere
  cases hb : h.read (.dict r) b with
  | ok w =>
    rw [hb] at elsewhere
    exact congrArg Except.ok (Except.ok.inj elsewhere).symm
  | error cause =>
    rw [hb] at elsewhere
    cases elsewhere

/-- An integer or a text addresses no entry but its own. -/
theorem sameEntry_iff {h : Heap} (wf : h.WF) {r : DictRef} (has : h.Has (.dict r)) {a : Value}
    (ha : a.type = .int ∨ a.type = .string) (b : Value) : h.SameEntry r a b ↔ a = b := by
  constructor
  · intro same
    by_contra hne
    -- Whatever is written under `a`, nothing changes under `b`, so no two values can be read there.
    have hnone := read_of_sameEntry wf has same (Ne.symm hne) .none
    have htrue := read_of_sameEntry wf has same (Ne.symm hne) (.bool true)
    rw [hnone] at htrue
    cases htrue
  · rintro rfl v
    obtain ⟨h', written⟩ := (h.write_eq_ok_iff (.dict r) a v).mpr ha
    exact ⟨h', written, (stores_dict wf has written).reads (.dict r) rfl⟩

/-- Integers and texts are each in one total order, which all six comparisons agree on, and other
values in none. Equality is one relation on all values, and it keeps the same integers and texts
apart as dictionaries do. -/
theorem comparisons_lawful (h : Heap) : h.Comparisons where
  ints := ordered_ints h
  texts := ordered_texts h
  int_less_iff a b := (h.holds_iff (h.binary_text .less a b)).trans Int64.lt_iff_toInt_lt
  text_less_iff s t := (h.holds_iff rfl).trans (Bytes.lt_iff_precedes s t)
  others _ _ hab _ hop := ⟨_, h.binary_of_not_comparable hab hop, rfl⟩
  equality _ _ := ⟨_, rfl, rfl⟩
  equivalence := by
    have hequal : h.Holds "==" = Eq := by
      ext a b
      exact h.holds_equal_iff a b
    rw [hequal]
    exact eq_equivalence
  keys a b ha _ _ _ wf has := (h.holds_equal_iff a b).trans (sameEntry_iff wf has ha b).symm

end Heap
end Scriptlet
