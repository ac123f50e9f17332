import Scriptlet.Proofs.Text.Reading
import Scriptlet.Source.Location

/-!
# Quoted lines

The lines of a source are the pieces of its text between the newlines, carriage returns left out and
a last empty piece dropped, and they have the numbers from one on. A report that speaks of columns
of a line shows the line behind its number and has carets under these columns and nowhere else,
however long the number is. Of a line that is not there it shows nothing but the number.
-/

namespace Scriptlet

/-- A list of pieces without a last empty one. -/
def dropEmptyEnd (ps : List Bytes) : List Bytes := if ps.getLast? = some [] then ps.dropLast else ps

private theorem dropEmptyEnd_cons (p : Bytes) {ps : List Bytes} (h : ps ≠ []) :
    dropEmptyEnd (p :: ps) = p :: dropEmptyEnd ps := by
  rw [dropEmptyEnd, dropEmptyEnd, List.getLast?_cons_of_ne_nil h, List.dropLast_cons_of_ne_nil h]
  split <;> rfl

private theorem mem_of_mem_dropEmptyEnd {p : Bytes} {ps : List Bytes} (h : p ∈ dropEmptyEnd ps) :
    p ∈ ps := by
  rw [dropEmptyEnd] at h
  split at h
  · exact List.dropLast_subset ps h
  · exact h

private theorem intercalate_append_nil (sep : Bytes) {ps : List Bytes} (h : ps ≠ []) :
    sep.intercalate (ps ++ [[]]) = sep.intercalate ps ++ sep := by
  induction ps with
  | nil => exact absurd rfl h
  | cons p ps ih =>
    cases ps with
    | nil =>
      rw [List.singleton_append, List.intercalate_cons_cons, List.intercalate_singleton,
        List.intercalate_singleton, List.append_nil]
    | cons q ps =>
      rw [List.cons_append, List.cons_append, List.intercalate_cons_cons, ← List.cons_append,
        ih (List.cons_ne_nil q ps), List.intercalate_cons_cons]
      simp only [List.append_assoc]

private theorem intercalate_dropEmptyEnd (sep : Bytes) (ps : List Bytes) :
    sep.intercalate (dropEmptyEnd ps) = sep.intercalate ps ∨
      sep.intercalate (dropEmptyEnd ps) ++ sep = sep.intercalate ps := by
  rw [dropEmptyEnd]
  split
  · next hlast =>
    obtain ⟨qs, rfl⟩ := List.getLast?_eq_some_iff.mp hlast
    rw [List.dropLast_concat]
    by_cases hqs : qs = []
    · rw [hqs]
      exact .inl rfl
    · exact .inr (intercalate_append_nil sep hqs).symm
  · exact .inl rfl

/-- Lines with their numbers, which count from one. -/
def numbered (ls : List Bytes) : List (Int × Bytes) := ls.zipIdx.map fun (l, i) ↦ ((i : Int) + 1, l)

private theorem numbered_append_singleton (ls : List Bytes) (l : Bytes) :
    numbered (ls ++ [l]) = numbered ls ++ [((ls.length : Int) + 1, l)] := by
  simp [numbered, List.zipIdx_append]

private theorem mem_numbered_iff (ls : List Bytes) (n : Int) (l : Bytes) :
    (n, l) ∈ numbered ls ↔ ∃ i : Nat, n = i + 1 ∧ ls[i]? = some l := by
  simp only [numbered, List.mem_map, Prod.exists, List.mk_mem_zipIdx_iff_getElem?, Prod.mk.injEq]
  constructor
  · rintro ⟨_, i, hi, rfl, rfl⟩
    exact ⟨i, rfl, hi⟩
  · rintro ⟨i, rfl, hi⟩
    exact ⟨l, i, hi, rfl, rfl⟩

namespace LineMap

private theorem toList_insert_of_lt {m : LineMap} {n : Int} (h : ∀ p ∈ m.toList, p.1 < n)
    (l : Bytes) : (m.insert n l).toList = m.toList ++ [(n, l)] := by
  have hsorted (m : LineMap) : m.toList.Pairwise fun p q ↦ p.1 < q.1 :=
    m.ordered_keys_toList.imp Int.compare_eq_lt.mp
  have hperm : (m.insert n l).toList.Perm (m.toList ++ [(n, l)]) := by
    have hfilter : m.toList.filter (fun p ↦ decide (¬ (n == p.1) = true)) = m.toList := by
      rw [List.filter_eq_self]
      intro p hp
      have := h p hp
      simp only [beq_iff_eq, decide_eq_true_eq]
      omega
    have hinsert := m.toList_insert_perm (k := n) (v := l)
    rw [hfilter] at hinsert
    exact hinsert.trans (List.perm_append_singleton _ _).symm
  refine hperm.eq_of_pairwise ?_ (hsorted _) ?_
  · intro p q _ _ hpq hqp
    exact absurd hpq (Int.lt_asymm hqp)
  · rw [List.pairwise_append]
    refine ⟨hsorted m, List.pairwise_singleton _ _, fun p hp q hq ↦ ?_⟩
    rw [List.mem_singleton.mp hq]
    exact h p hp

private theorem toList_insert_next {m : LineMap} {ls : List Bytes} (h : m.toList = numbered ls)
    (l : Bytes) : (m.insert (ls.length + 1) l).toList = numbered (ls ++ [l]) := by
  rw [toList_insert_of_lt, h, numbered_append_singleton]
  rintro ⟨n, l⟩ hp
  rw [h, mem_numbered_iff] at hp
  obtain ⟨i, rfl, hi⟩ := hp
  have hlt := (List.getElem?_eq_some_iff.mp hi).1
  change (i : Int) + 1 < ls.length + 1
  omega

private theorem toList_read (text : Bytes) {done : LineMap} {ls : List Bytes}
    (h : done.toList = numbered ls) (line : Array UInt8) :
    (done.read (ls.length + 1) line text).toList = numbered (ls ++ dropEmptyEnd
      (((text.filter (· != 0x0D)).splitOn 0x0A).modifyHead (line.toList ++ ·))) := by
  induction text generalizing done ls line with
  | nil =>
    rw [read, List.filter_nil, List.splitOn_nil, List.modifyHead_cons, List.append_nil,
      dropEmptyEnd, List.getLast?_singleton]
    by_cases hline : line.isEmpty
    · have hnil : line.toList = [] := by simpa using hline
      rw [if_pos hline, if_pos (congrArg some hnil), List.dropLast_singleton, List.append_nil, h]
    · have hnil : ¬ some line.toList = some [] := by simpa using hline
      rw [if_neg hline, if_neg hnil, toList_insert_next h]
  | cons c text ih =>
    rw [read]
    split
    · next hc =>
      have hnext := ih (toList_insert_next h line.toList) #[]
      rw [List.length_append, List.length_singleton] at hnext
      subst hc
      rw [List.filter_cons_of_pos (by decide), List.splitOn_cons_eq_if_modifyHead,
        if_pos (by decide), List.modifyHead_cons, List.append_nil,
        dropEmptyEnd_cons _ (List.splitOn_ne_nil _ _)]
      have hid : (fun t : Bytes ↦ (#[] : Array UInt8).toList ++ t) = id := rfl
      rw [hid, List.modifyHead_id, List.append_assoc, List.singleton_append] at hnext
      exact hnext
    · next hc =>
      split
      · next hr =>
        subst hr
        rw [ih h, List.filter_cons_of_neg (by decide)]
      · next hr =>
        rw [ih h, List.filter_cons_of_pos (by simpa using hr), List.splitOn_cons_eq_if_modifyHead,
          if_neg (by simpa using hc), List.modifyHead_modifyHead]
        have hpush :
            (fun t ↦ (line.push c).toList ++ t) = (fun t ↦ line.toList ++ t) ∘ (c :: ·) := by
          funext t
          rw [Array.toList_push, List.append_assoc, List.singleton_append, Function.comp_apply]
        rw [hpush]

end LineMap

private theorem notMem_of_mem_splitOn {x : UInt8} {t p : Bytes} (hp : p ∈ t.splitOn x) : x ∉ p := by
  induction t generalizing p with
  | nil =>
    rw [List.splitOn_nil, List.mem_singleton] at hp
    rw [hp]
    exact List.not_mem_nil
  | cons c t ih =>
    rw [List.splitOn_cons_eq_if_modifyHead] at hp
    split at hp
    · rcases List.mem_cons.mp hp with rfl | hp
      · exact List.not_mem_nil
      · exact ih hp
    · next hc =>
      obtain ⟨q, qs, hq⟩ := List.exists_cons_of_ne_nil (List.splitOn_ne_nil x t)
      rw [hq, List.modifyHead_cons] at hp
      rw [hq] at ih
      rcases List.mem_cons.mp hp with rfl | hp
      · rw [List.mem_cons, not_or]
        exact ⟨fun hx ↦ hc (beq_iff_eq.mpr hx.symm), ih List.mem_cons_self⟩
      · exact ih (List.mem_cons_of_mem q hp)

private theorem Bytes.le_of_mem_ofInt {n : Int} {c : UInt8} (h : c ∈ ofInt n) : 0x2D ≤ c := by
  have hdigit {m : Nat} (h : c ∈ ofNat m) : 0x2D ≤ c := by
    have hd := isDigit_of_mem_ofNat h
    simp only [isDigit, Bool.and_eq_true, decide_eq_true_eq] at hd
    exact UInt8.le_trans (by decide) hd.1
  cases n with
  | ofNat m => exact hdigit h
  | negSucc m =>
    rcases List.mem_append.mp h with h | h
    · rw [List.mem_singleton.mp h]
      decide
    · exact hdigit h

namespace Source

variable (s : Source)

/-- The pieces of the text between its newlines, carriage returns left out and a last empty piece
dropped. -/
def pieces : List Bytes := dropEmptyEnd ((s.text.filter (· != 0x0D)).splitOn 0x0A)

/-- The lines are the pieces, numbered from one on. -/
theorem toList_lineMap : s.lineMap.toList = numbered s.pieces := by
  have nothing : ({} : LineMap).toList = numbered [] := rfl
  have h := LineMap.toList_read s.text nothing #[]
  have hid : (fun t : Bytes ↦ (#[] : Array UInt8).toList ++ t) = id := rfl
  rw [hid, List.modifyHead_id] at h
  exact h

/-- In order they are the pieces. -/
theorem lines_eq : s.lines = s.pieces := by
  rw [lines, toList_lineMap, numbered, List.map_map]
  exact List.zipIdx_map_fst _ _

/-- There are as many lines as pieces. -/
theorem lineCount_eq : s.lineCount = s.pieces.length := by
  rw [lineCount, ← Std.TreeMap.length_toList, toList_lineMap, numbered, List.length_map,
    List.length_zipIdx]

/-- A line has the number of its piece. -/
theorem line?_eq_some_iff (n : Int) (l : Bytes) :
    s.line? n = some l ↔ ∃ i : Nat, n = i + 1 ∧ s.pieces[i]? = some l := by
  rw [line?, ← Std.TreeMap.mem_toList_iff_getElem?_eq_some, toList_lineMap, mem_numbered_iff]

/-- A line behind a margin and marks below it: carets at the places of `length` columns of the line
from `col` on, and blanks up to there. -/
structure Underlines (margin line marks : Bytes) (col length : Int) : Prop where
  caret_iff : ∀ i : Nat, marks[i]? = some 0x5E ↔
    ∃ c, col ≤ c ∧ c ≤ col + length - 1 ∧ (i : Int) = margin.length + (c - 1)
  blank : ∀ b ∈ marks, b ≠ 0x5E → b = 0x20
  /-- A caret stands below a byte of the line. -/
  below : ∀ i : Nat, marks[i]? = some 0x5E → ∃ j : Nat, i = margin.length + j ∧ j < line.length
  rows : 0x0A ∉ margin ∧ 0x0A ∉ line ∧ 0x0A ∉ marks

/-- What a source tells of its lines. -/
structure Lawful : Prop where
  /-- The numbers are those from one to the number of lines. -/
  numbers : ∀ n, (∃ line, s.line? n = some line) ↔ 1 ≤ n ∧ n ≤ s.lineCount
  lines : s.lines = dropEmptyEnd ((s.text.filter (· != 0x0D)).splitOn 0x0A)
  ordered : ∀ i : Nat, s.line? (i + 1) = s.lines[i]?
  /-- Joined, the lines are the text up to a last newline. -/
  joined : List.intercalate [0x0A] s.lines = s.text.filter (· != 0x0D) ∨
    List.intercalate [0x0A] s.lines ++ [0x0A] = s.text.filter (· != 0x0D)
  /-- A line that is there is shown, with carets below the columns that are asked for. -/
  quotes : ∀ (n : Int) (line : Bytes) (col length : Int), s.line? n = some line → 1 ≤ col →
    1 ≤ length → col - 1 + length ≤ line.length → ∃ margin marks,
      s.quote n col length = margin ++ line ++ 0x0A :: marks ∧
        Underlines margin line marks col length
  /-- Of a line that is not there only the number is shown. -/
  refuses : ∀ n col length, s.line? n = none →
    s.quote n col length = " * " ++ Bytes.ofInt n ++ " | (line not available)"
  /-- A place in the source is traced by quoting its own line and columns. -/
  traces : ∀ l : Location, l.source = some s → l.trace = s.quote l.line l.col l.length

variable {s}

private theorem newline_notMem_margin (n : Int) : 0x0A ∉ margin n := by
  rw [margin, List.mem_append, List.mem_append]
  rintro ((h | h) | h)
  · exact absurd h (by decide)
  · exact absurd (Bytes.le_of_mem_ofInt h) (by decide)
  · exact absurd h (by decide)

private theorem newline_notMem_of_line? {n : Int} {line : Bytes} (h : s.line? n = some line) :
    0x0A ∉ line := by
  obtain ⟨i, -, hi⟩ := (s.line?_eq_some_iff n line).mp h
  exact notMem_of_mem_splitOn (mem_of_mem_dropEmptyEnd (List.mem_of_getElem? hi))

private theorem getElem?_marks (blanks carets i : Nat) :
    (Bytes.spaces blanks ++ List.replicate carets (0x5E : UInt8))[i]? =
      if i < blanks then some 0x20 else if i < blanks + carets then some 0x5E else none := by
  rw [Bytes.spaces, List.getElem?_append, List.length_replicate, List.getElem?_replicate,
    List.getElem?_replicate]
  split
  · rfl
  · by_cases h : i < blanks + carets
    · rw [if_pos h, if_pos (by omega)]
    · rw [if_neg h, if_neg (by omega)]

/-- The marks of a quotation stand below the columns. -/
theorem underlines (n : Int) {line : Bytes} {col length : Int} (hline : 0x0A ∉ line)
    (hcol : 1 ≤ col) (hlength : 1 ≤ length) (hfits : col - 1 + length ≤ line.length) :
    Underlines (margin n) line
      (Bytes.spaces ((margin n).length + (col - 1).toNat) ++ carets length) col length := by
  have hmarks := getElem?_marks ((margin n).length + (col - 1).toNat) (max 1 length.toNat)
  have hcaret (i : Nat) :
      (Bytes.spaces ((margin n).length + (col - 1).toNat) ++ carets length)[i]? = some 0x5E ↔
        (margin n).length + (col - 1) ≤ i ∧ i < (margin n).length + (col - 1) + length := by
    rw [carets, hmarks]
    split
    · exact iff_of_false (by decide) (by omega)
    · split
      · exact iff_of_true rfl (by omega)
      · exact iff_of_false (by simp) (by omega)
  refine ⟨fun i ↦ (hcaret i).trans ⟨fun h ↦ ?_, ?_⟩, fun b hb hne ↦ ?_, fun i hi ↦ ?_,
    newline_notMem_margin n, hline, fun h ↦ ?_⟩
  · exact ⟨i - (margin n).length + 1, by omega, by omega, by omega⟩
  · rintro ⟨c, hlow, hhigh, hi⟩
    omega
  · rcases List.mem_append.mp hb with hb | hb
    · exact List.eq_of_mem_replicate hb
    · exact absurd (List.eq_of_mem_replicate hb) hne
  · have h := (hcaret i).mp hi
    exact ⟨i - (margin n).length, by omega, by omega⟩
  · rcases List.mem_append.mp h with h | h
    · exact absurd (List.eq_of_mem_replicate h) (by decide)
    · exact absurd (List.eq_of_mem_replicate h) (by decide)

/-- In every source text the lines have the numbers from one on and are the pieces between the
newlines, and a report on columns of a line shows that line with carets below exactly these
columns. -/
theorem quotation_lawful (s : Source) : s.Lawful where
  numbers n := by
    simp only [line?_eq_some_iff, lineCount_eq]
    constructor
    · rintro ⟨line, i, rfl, hi⟩
      have hlt := (List.getElem?_eq_some_iff.mp hi).1
      omega
    · rintro ⟨hlow, hhigh⟩
      have hlt : (n - 1).toNat < s.pieces.length := by omega
      exact ⟨s.pieces[(n - 1).toNat], (n - 1).toNat, by omega, List.getElem?_eq_getElem hlt⟩
  lines := s.lines_eq
  ordered i := by
    apply Option.ext
    intro line
    rw [line?_eq_some_iff, lines_eq]
    constructor
    · rintro ⟨j, hj, h⟩
      obtain rfl : i = j := by omega
      exact h
    · exact fun h ↦ ⟨i, rfl, h⟩
  joined := by
    have h := intercalate_dropEmptyEnd [0x0A] ((s.text.filter (· != 0x0D)).splitOn 0x0A)
    rw [List.intercalate_splitOn] at h
    rw [lines_eq]
    exact h
  quotes n line col length hline hcol hlength hfits := by
    refine ⟨_, _, ?_, underlines n (newline_notMem_of_line? hline) hcol hlength hfits⟩
    have hnewline : Bytes.ofString "\n" = [0x0A] := rfl
    rw [quote, hline, hnewline]
    simp only [List.append_assoc, List.cons_append, List.nil_append]
  refuses n col length hline := by
    rw [quote_of_line?_eq_none s n col length hline, margin, List.append_assoc]
    rfl
  traces l hl := by rw [Location.trace, hl]

end Source
end Scriptlet
