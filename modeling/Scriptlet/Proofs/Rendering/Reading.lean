import Scriptlet.Proofs.Text.Reading
import Scriptlet.Value.Rendering

/-!
# Reading values back

The debug text of a value whose containers are nested without cycles, and not too deep, says
what the value is: which scalar, or which elements and entries in which order, all the way
down. Two such values have the same text exactly if they are the same in structure, even if
they live in different heaps.
-/

namespace Scriptlet

open Bytes

namespace Heap

/-- A chain of nested containers, the outermost first: the value names the first one, and each
holds a handle to the next. -/
inductive Chain (h : Heap) : Value → List Container → Prop where
  | last (c : Container) : h.Chain c.handle [c]
  | cons (c : Container) {w : Value} {cs : List Container} (held : w ∈ h.held c)
      (rest : h.Chain w cs) : h.Chain c.handle (c :: cs)

/-- No container under a value holds itself, not even through others, and no chain of nested
containers is longer than what is written in full. -/
structure Tame (h : Heap) (v : Value) : Prop where
  acyclic : ∀ cs, h.Chain v cs → cs.Nodup
  shallow : ∀ cs, h.Chain v cs → cs.length ≤ maxRenderDepth

private theorem Chain.isContainer {h : Heap} {v : Value} {cs : List Container} (hc : h.Chain v cs) :
    v.isContainer = true := by
  cases hc with
  | last c | cons c held rest => rw [Value.isContainer, Container.container?_handle]; rfl

private theorem chain_handle_cases {h : Heap} {c : Container} {cs : List Container}
    (hc : h.Chain c.handle cs) : cs = [c] ∨ ∃ w ds, w ∈ h.held c ∧ h.Chain w ds ∧ cs = c :: ds := by
  generalize hv : c.handle = v at hc
  have hcontainer : v.container? = some c := by rw [← hv, Container.container?_handle]
  cases hc with
  | last d =>
    rw [Container.container?_handle] at hcontainer
    cases hcontainer
    exact Or.inl rfl
  | cons d held rest =>
    rw [Container.container?_handle] at hcontainer
    cases hcontainer
    exact Or.inr ⟨_, _, held, rest, rfl⟩

/-- Two values are the same in structure: the same scalar, arrays with the same elements, or
dictionaries with the same keys in the same order and the same values under them. -/
inductive Same (h h' : Heap) : Value → Value → Prop where
  | protected none : Same h h' .none .none
  | bool (b : Bool) : Same h h' (.bool b) (.bool b)
  | int (n : Int64) : Same h h' (.int n) (.int n)
  | str (s : Bytes) : Same h h' (.str s) (.str s)
  | array {r r' : ArrayRef}
      (elements : List.Forall₂ (Same h h') (h.array r).toList (h'.array r').toList) :
      Same h h' (.array r) (.array r')
  | dict {r r' : DictRef} (keys : (h.dict r).keys = (h'.dict r').keys)
      (values : List.Forall₂ (Same h h') (h.dict r).values (h'.dict r').values) :
      Same h h' (.dict r) (.dict r')

end Heap

section Leads

/-- The type of value whose text begins with a byte, if there is one. -/
def leadType (c : UInt8) : Option TypeName :=
  if c = 0x6E then some .none
  else if c = 0x74 || c = 0x66 then some .bool
  else if c = 0x2D || isDigit c then some .int
  else if c = 0x22 then some .string
  else if c = 0x5B then some .array
  else if c = 0x7B then some .dictionary
  else none

private theorem leadType_of_isDigit {c : UInt8} (h : isDigit c = true) :
    leadType c = some .int := by
  have hne (d : UInt8) (hd : isDigit d = false) : c ≠ d := by
    rintro rfl
    rw [h] at hd
    cases hd
  simp only [leadType, hne 0x6E (by decide), hne 0x74 (by decide), hne 0x66 (by decide), h,
    if_false, decide_false, Bool.or_false, Bool.or_true, if_true, Bool.false_eq_true]

private theorem Heap.exists_renderNested_eq_cons (h : Heap) (room : Nat) (path : List Container)
    (v : Value) : ∃ c tail, h.renderNested room path v = c :: tail ∧ leadType c = some v.type := by
  cases v with
  | none => cases room <;> exact ⟨_, _, rfl, rfl⟩
  | bool b => cases room <;> cases b <;> exact ⟨_, _, rfl, rfl⟩
  | int n =>
    obtain ⟨c, tail, hn, hc⟩ := exists_ofInt_eq_cons n.toInt
    refine ⟨c, tail, ?_, ?_⟩
    · rw [← hn]
      cases room <;> rfl
    · rcases hc with rfl | hc
      · rfl
      · exact leadType_of_isDigit hc
  | str s => cases room <;> exact ⟨_, _, rfl, rfl⟩
  | array r =>
    cases room with
    | zero => exact ⟨_, _, rfl, rfl⟩
    | succ room =>
      rw [renderNested]
      split <;> exact ⟨_, _, rfl, rfl⟩
  | dict r =>
    cases room with
    | zero => exact ⟨_, _, rfl, rfl⟩
    | succ room =>
      rw [renderNested]
      split <;> exact ⟨_, _, rfl, rfl⟩

private theorem Heap.type_eq_of_append {h h' : Heap} {room room' : Nat}
    {path path' : List Container} {v v' : Value} {s t : Bytes}
    (he : h.renderNested room path v ++ s = h'.renderNested room' path' v' ++ t) :
    v.type = v'.type := by
  obtain ⟨c, tail, hv, hc⟩ := h.exists_renderNested_eq_cons room path v
  obtain ⟨d, tail', hv', hd⟩ := h'.exists_renderNested_eq_cons room' path' v'
  rw [hv, hv'] at he
  rw [(List.cons.inj he).1, hd] at hc
  exact (Option.some.inj hc).symm

private theorem Heap.renderNested_append_ne {h : Heap} {room : Nat} {path : List Container}
    {v : Value} {close : UInt8} (hclose : leadType close = none) (s t : Bytes) :
    h.renderNested room path v ++ s ≠ close :: t := by
  obtain ⟨c, tail, hv, hc⟩ := h.exists_renderNested_eq_cons room path v
  intro he
  rw [hv] at he
  rw [(List.cons.inj he).1, hclose] at hc
  cases hc

end Leads

section Keys

private theorem Key.text_append_inj {k k' : Key} {s t : Bytes} (hs : Stops isDigit s)
    (ht : Stops isDigit t) (he : k.text ++ s = k'.text ++ t) : k = k' ∧ s = t := by
  have htype : k.toValue.type = k'.toValue.type := by
    rw [← Heap.renderNested_toValue {} 0 [] k, ← Heap.renderNested_toValue {} 0 [] k'] at he
    exact Heap.type_eq_of_append he
  cases k with
  | int n =>
    cases k' with
    | int n' =>
      obtain ⟨rfl, hst⟩ := ofInt64_append_inj hs ht he
      exact ⟨rfl, hst⟩
    | str s' => cases htype
  | str s =>
    cases k' with
    | int n' => cases htype
    | str s' =>
      obtain ⟨rfl, hst⟩ := quoted_append_inj he
      exact ⟨rfl, hst⟩

private theorem Key.text_append_ne {k : Key} {close : UInt8} (hclose : leadType close = none)
    (s t : Bytes) : k.text ++ s ≠ close :: t := by
  rw [← Heap.renderNested_toValue {} 0 [] k]
  exact Heap.renderNested_append_ne hclose s t

end Keys

namespace Heap

section Clear

variable {h h' : Heap} {room room' : Nat} {path path' : List Container}

/-- A value is written in full under `path` and with `room` more containers. -/
def Clear (h : Heap) (room : Nat) (path : List Container) (v : Value) : Prop :=
  ∀ cs, h.Chain v cs → cs.length ≤ room ∧ cs.Nodup ∧ ∀ c ∈ cs, c ∉ path

private theorem Tame.clear {v : Value} (hv : h.Tame v) : h.Clear maxRenderDepth [] v :=
  fun cs hcs ↦ ⟨hv.shallow cs hcs, hv.acyclic cs hcs, fun _ _ ↦ List.not_mem_nil⟩

private theorem Clear.inside {c : Container} (hc : h.Clear room path c.handle) :
    ∃ n, room = n + 1 ∧ c ∉ path ∧ ∀ w ∈ h.held c, h.Clear n (c :: path) w := by
  obtain ⟨hlength, -, hpath⟩ := hc [c] (.last c)
  cases room with
  | zero => exact absurd hlength (Nat.not_succ_le_zero 0)
  | succ n =>
    refine ⟨n, rfl, hpath c List.mem_cons_self, fun w hw cs hcs ↦ ?_⟩
    obtain ⟨hlength, hnodup, hpath⟩ := hc (c :: cs) (.cons c hw hcs)
    obtain ⟨hfresh, hnodup⟩ := List.nodup_cons.mp hnodup
    refine ⟨Nat.le_of_succ_le_succ hlength, hnodup, fun d hd hmem ↦ ?_⟩
    rcases List.mem_cons.mp hmem with rfl | hmem
    · exact hfresh hd
    · exact hpath d (List.mem_cons_of_mem c hd) hmem

/-- The text of no value. -/
theorem renderNested_none : h.renderNested room path .none = "none" := by cases room <;> rfl

/-- The text of a truth value. -/
theorem renderNested_bool (b : Bool) : h.renderNested room path (.bool b) = Bytes.ofBool b := by
  cases room <;> rfl

/-- The text of an integer is its decimal text. -/
theorem renderNested_int (n : Int64) :
    h.renderNested room path (.int n) = Bytes.ofInt64 n := by cases room <;> rfl

/-- The text of a string inside a container is quoted. -/
theorem renderNested_str (s : Bytes) :
    h.renderNested room path (.str s) = Bytes.quoted s := by cases room <;> rfl

private theorem renderNested_array {r : ArrayRef} (hr : .array r ∉ path) :
    h.renderNested (room + 1) path (.array r) =
      0x5B :: (commaSeparated ((h.array r).toList.map
        (h.renderNested room (.array r :: path))) ++ [0x5D]) := by
  rw [renderNested, if_neg hr]
  rfl

/-- An entry of a dictionary as it is written. -/
def entryText (h : Heap) (room : Nat) (path : List Container) (e : Key × Value) : Bytes :=
  e.1.text ++ 0x3A :: 0x20 :: h.renderNested room path e.2

private theorem entryText_append_ne {e : Key × Value} {close : UInt8}
    (hclose : leadType close = none) (s t : Bytes) : h.entryText room path e ++ s ≠ close :: t := by
  rw [entryText, List.append_assoc]
  exact Key.text_append_ne hclose _ t

private theorem renderNested_dict {r : DictRef} (hr : .dict r ∉ path) :
    h.renderNested (room + 1) path (.dict r) =
      0x7B :: (commaSeparated ((h.dict r).entries.map
        (h.entryText room (.dict r :: path))) ++ [0x7D]) := by
  have hcolon : Bytes.ofString ": " = [0x3A, 0x20] := rfl
  have hentry : (fun e : Key × Value ↦ e.1.text ++ ": " ++
      h.renderNested room (.dict r :: path) e.2) = h.entryText room (.dict r :: path) := by
    funext e
    simp only [entryText, hcolon, List.append_assoc, List.cons_append, List.nil_append]
  rw [renderNested, if_neg hr, ← hentry]
  rfl

end Clear

section Entries

variable {R : Value → Value → Prop}

private theorem forall₂_entries_iff (l l' : List (Key × Value)) :
    List.Forall₂ (fun e e' ↦ e.1 = e'.1 ∧ R e.2 e'.2) l l' ↔
      l.map (·.1) = l'.map (·.1) ∧ List.Forall₂ R (l.map (·.2)) (l'.map (·.2)) := by
  induction l generalizing l' with
  | nil => cases l' <;> simp
  | cons e l ih =>
    cases l' with
    | nil => simp
    | cons e' l' =>
      simp only [List.forall₂_cons, ih, List.map_cons, List.cons.injEq]
      tauto

end Entries

section Reading

variable {h h' : Heap}

/-- Values that are written in full are read back up to structure, wherever no digit follows. -/
theorem renderNested_append_inj (room : Nat) {room' : Nat} {path path' : List Container}
    {v v' : Value} {s t : Bytes} (hv : h.Clear room path v) (hv' : h'.Clear room' path' v')
    (hs : Stops isDigit s) (ht : Stops isDigit t)
    (he : h.renderNested room path v ++ s = h'.renderNested room' path' v' ++ t) :
    Same h h' v v' ∧ s = t := by
  -- What a container holds is written with less room.
  induction room using Nat.strongRecOn generalizing room' path path' v v' s t with
  | ind room ih =>
  have htype := type_eq_of_append he
  cases v with
  | none =>
    cases v' with
    | none =>
      rw [renderNested_none, renderNested_none] at he
      exact ⟨.none, List.append_cancel_left he⟩
    | _ => cases htype
  | bool b =>
    cases v' with
    | bool b' =>
      rw [renderNested_bool, renderNested_bool] at he
      obtain ⟨rfl, hst⟩ := ofBool_append_inj he
      exact ⟨.bool b, hst⟩
    | _ => cases htype
  | int n =>
    cases v' with
    | int n' =>
      rw [renderNested_int, renderNested_int] at he
      obtain ⟨rfl, hst⟩ := ofInt64_append_inj hs ht he
      exact ⟨.int n, hst⟩
    | _ => cases htype
  | str x =>
    cases v' with
    | str x' =>
      rw [renderNested_str, renderNested_str] at he
      obtain ⟨rfl, hst⟩ := quoted_append_inj he
      exact ⟨.str x, hst⟩
    | _ => cases htype
  | array r =>
    cases v' with
    | array r' =>
      obtain ⟨n, rfl, hr, hin⟩ := Clear.inside (c := .array r) hv
      obtain ⟨n', rfl, hr', hin'⟩ := Clear.inside (c := .array r') hv'
      simp only [renderNested_array hr, renderNested_array hr', List.cons_append,
        List.append_assoc, List.nil_append, List.cons.injEq, true_and] at he
      obtain ⟨helements, hst⟩ := commaSeparated_append_inj (R := Same h h') (by decide) rfl
        (fun _ _ ↦ renderNested_append_ne rfl) (fun _ _ ↦ renderNested_append_ne rfl)
        (fun w hw w' hw' _ _ ↦ ih n (Nat.lt_succ_self n) (hin w hw) (hin' w' hw')) he
      exact ⟨.array helements, hst⟩
    | _ => cases htype
  | dict r =>
    cases v' with
    | dict r' =>
      obtain ⟨n, rfl, hr, hin⟩ := Clear.inside (c := .dict r) hv
      obtain ⟨n', rfl, hr', hin'⟩ := Clear.inside (c := .dict r') hv'
      simp only [renderNested_dict hr, renderNested_dict hr', List.cons_append,
        List.append_assoc, List.nil_append, List.cons.injEq, true_and] at he
      have hentry (e : Key × Value) (he : e ∈ (h.dict r).entries) (e' : Key × Value)
          (he' : e' ∈ (h'.dict r').entries) (s t : Bytes) (hs : Stops isDigit s)
          (ht : Stops isDigit t)
          (htext : h.entryText n (.dict r :: path) e ++ s =
            h'.entryText n' (.dict r' :: path') e' ++ t) :
          (e.1 = e'.1 ∧ Same h h' e.2 e'.2) ∧ s = t := by
        simp only [entryText, List.append_assoc, List.cons_append] at htext
        obtain ⟨hkey, hrest⟩ :=
          Key.text_append_inj (stops_cons (by decide) _) (stops_cons (by decide) _) htext
        obtain ⟨hvalue, hst⟩ := ih n (Nat.lt_succ_self n)
          (hin e.2 (List.mem_map_of_mem he)) (hin' e'.2 (List.mem_map_of_mem he')) hs ht
          (List.cons.inj (List.cons.inj hrest).2).2
        exact ⟨⟨hkey, hvalue⟩, hst⟩
      obtain ⟨hentries, hst⟩ := commaSeparated_append_inj (by decide) rfl
        (fun _ _ ↦ entryText_append_ne rfl) (fun _ _ ↦ entryText_append_ne rfl) hentry he
      obtain ⟨hkeys, hvalues⟩ := (forall₂_entries_iff _ _).mp hentries
      exact ⟨.dict hkeys hvalues, hst⟩
    | _ => cases htype

private theorem map_eq_of_forall₂ {α β : Type} {R : α → β → Prop} {f : α → Bytes} {g : β → Bytes}
    {xs : List α} {ys : List β} (h : List.Forall₂ R xs ys)
    (hfg : ∀ x ∈ xs, ∀ y ∈ ys, R x y → f x = g y) : xs.map f = ys.map g := by
  induction h with
  | nil => rfl
  | cons hxy _ ih =>
    rw [List.map_cons, List.map_cons, hfg _ List.mem_cons_self _ List.mem_cons_self hxy,
      ih fun x hx y hy ↦ hfg x (List.mem_cons_of_mem _ hx) y (List.mem_cons_of_mem _ hy)]

/-- Values that are the same in structure are written alike. -/
theorem Same.renderNested_eq (room : Nat) {room' : Nat} {path path' : List Container}
    {v v' : Value} (hv : h.Clear room path v) (hv' : h'.Clear room' path' v')
    (hsame : Same h h' v v') :
    h.renderNested room path v = h'.renderNested room' path' v' := by
  -- What a container holds is written with less room.
  induction room using Nat.strongRecOn generalizing room' path path' v v' with
  | ind room ih =>
  cases hsame with
  | none => rw [renderNested_none, renderNested_none]
  | bool b => rw [renderNested_bool, renderNested_bool]
  | int n => rw [renderNested_int, renderNested_int]
  | str s => rw [renderNested_str, renderNested_str]
  | array elements =>
    rename_i r r'
    obtain ⟨n, rfl, hr, hin⟩ := Clear.inside (c := .array r) hv
    obtain ⟨n', rfl, hr', hin'⟩ := Clear.inside (c := .array r') hv'
    rw [renderNested_array hr, renderNested_array hr', map_eq_of_forall₂ elements]
    exact fun w hw w' hw' ↦ ih n (Nat.lt_succ_self n) (hin w hw) (hin' w' hw')
  | dict keys values =>
    rename_i r r'
    obtain ⟨n, rfl, hr, hin⟩ := Clear.inside (c := .dict r) hv
    obtain ⟨n', rfl, hr', hin'⟩ := Clear.inside (c := .dict r') hv'
    have hentries := (forall₂_entries_iff _ _).mpr ⟨keys, values⟩
    rw [renderNested_dict hr, renderNested_dict hr', map_eq_of_forall₂ hentries]
    intro e he e' he' hsame
    rw [entryText, entryText, hsame.1, ih n (Nat.lt_succ_self n)
      (hin e.2 (List.mem_map_of_mem he)) (hin' e'.2 (List.mem_map_of_mem he')) hsame.2]

/-- Two values without cycles and without too deep nesting, in whichever heaps, have the same
debug text exactly if they are the same in structure. -/
theorem debugText_eq_iff_same (v v' : Value) (hv : h.Tame v) (hv' : h'.Tame v') :
    h.debugText v = h'.debugText v' ↔ Same h h' v v' := by
  constructor
  · intro he
    have happend : h.renderNested maxRenderDepth [] v ++ [] =
        h'.renderNested maxRenderDepth [] v' ++ [] := congrArg (· ++ []) he
    exact (renderNested_append_inj maxRenderDepth hv.clear hv'.clear (stops_nil _) (stops_nil _)
      happend).1
  · exact Same.renderNested_eq maxRenderDepth hv.clear hv'.clear

/-- A string that looks like the end of a list, inside an array with a dictionary, at other
addresses in two heaps: the texts are equal, and so is the structure. -/
theorem debugText_eq_iff_same_elsewhere :
    let h : Heap :=
      { arrays := #[#[.str "\"], [", .dict ⟨0⟩]]
        dicts := #[Dictionary.set {} (.int 1) (.str "1")] }
    let h' : Heap :=
      { arrays := #[#[], #[.str "\"], [", .dict ⟨1⟩]]
        dicts := #[{}, Dictionary.set {} (.int 1) (.str "1")] }
    h.Tame (.array ⟨0⟩) ∧ h'.Tame (.array ⟨1⟩) ∧
      h.debugText (.array ⟨0⟩) = h'.debugText (.array ⟨1⟩) ∧
      Same h h' (.array ⟨0⟩) (.array ⟨1⟩) := by
  intro h h'
  have htame (k : Heap) (r : ArrayRef) (d : DictRef)
      (ha : k.held (.array r) = [.str "\"], [", .dict d])
      (hd : k.held (.dict d) = [.str "1"]) : k.Tame (.array r) := by
    have hchains (cs : List Container) (hcs : k.Chain (.array r) cs) :
        cs = [.array r] ∨ cs = [.array r, .dict d] := by
      rcases chain_handle_cases (c := .array r) hcs with rfl | ⟨w, ds, hw, hds, rfl⟩
      · exact Or.inl rfl
      rw [ha] at hw
      rcases List.mem_cons.mp hw with rfl | hw
      · cases hds.isContainer
      cases List.mem_singleton.mp hw
      rcases chain_handle_cases (c := .dict d) hds with rfl | ⟨w, ds, hw, hds, rfl⟩
      · exact Or.inr rfl
      rw [hd] at hw
      cases List.mem_singleton.mp hw
      cases hds.isContainer
    constructor
    · intro cs hcs
      rcases hchains cs hcs with rfl | rfl <;> simp
    · intro cs hcs
      rcases hchains cs hcs with rfl | rfl <;> simp [maxRenderDepth]
  have h₁ : h.Tame (.array ⟨0⟩) := htame h ⟨0⟩ ⟨0⟩ rfl (by decide +kernel)
  have h₂ : h'.Tame (.array ⟨1⟩) := htame h' ⟨1⟩ ⟨1⟩ rfl (by decide +kernel)
  have htext : h.debugText (.array ⟨0⟩) = h'.debugText (.array ⟨1⟩) := by decide +kernel
  exact ⟨h₁, h₂, htext, (debugText_eq_iff_same _ _ h₁ h₂).mp htext⟩

end Reading

end Heap
end Scriptlet
