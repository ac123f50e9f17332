import Scriptlet.Proofs.Locality.Reading
import Scriptlet.Session.Basic

/-!
# Building values on linked heaps

What a host writes down as a value is built alike on linked heaps, if the registers that it reads
hold alike values.
-/

namespace Scriptlet

/-- A literal reads a register. -/
inductive Literal.Reads (name : Bytes) : Literal → Prop where
  | register : Reads name (.register name)
  | element {l : Literal} {ls : List Literal} (hl : l ∈ ls) (h : Reads name l) :
      Reads name (.array ls)
  | key {k v : Literal} {entries : List (Literal × Literal)} (hl : (k, v) ∈ entries)
      (h : Reads name k) : Reads name (.dict entries)
  | value {k v : Literal} {entries : List (Literal × Literal)} (hl : (k, v) ∈ entries)
      (h : Reads name v) : Reads name (.dict entries)
  | inArrays {l : Literal} (count : Nat) (h : Reads name l) : Reads name (.inArrays count l)
  | inDicts {l : Literal} (count : Nat) (h : Reads name l) : Reads name (.inDicts count l)

/-- Two constructions on linked heaps fail alike, or lead to linked heaps with alike results. -/
inductive BuildsAlike {α : Type} [Pairable α] (π : Pairing) (h k : Heap) :
    Except ScriptError (α × Heap) → Except ScriptError (α × Heap) → Prop where
  | ok {π' : Pairing} {a b : α} {h' k' : Heap} (grown : Grown π h k π' h' k')
      (linked : h'.Linked π' k') (value : Alike π' a b) :
      BuildsAlike π h k (.ok (a, h')) (.ok (b, k'))
  | error (e : ScriptError) : BuildsAlike π h k (.error e) (.error e)

section Building

variable {π : Pairing} {h k : Heap} {α β : Type} [Pairable α] [Pairable β]

namespace BuildsAlike

private theorem of_alike (hl : h.Linked π k) {a b : α} (hab : Alike π a b) :
    BuildsAlike π h k (.ok (a, h)) (.ok (b, k)) := .ok (.refl π h k) hl hab

private theorem after {π₀ : Pairing} {h₀ k₀ : Heap} {x y : Except ScriptError (α × Heap)}
    (hxy : BuildsAlike π h k x y) (hg : Grown π₀ h₀ k₀ π h k) : BuildsAlike π₀ h₀ k₀ x y := by
  cases hxy with
  | ok grown linked value => exact .ok (hg.trans grown) linked value
  | error e => exact .error e

private theorem bind {x y : Except ScriptError (α × Heap)}
    {f g : α × Heap → Except ScriptError (β × Heap)} (hxy : BuildsAlike π h k x y)
    (hfg : ∀ {π' a b h' k'}, π ≤ π' → h'.Linked π' k' → Alike π' a b →
      BuildsAlike π' h' k' (f (a, h')) (g (b, k'))) : BuildsAlike π h k (x >>= f) (y >>= g) := by
  cases hxy with
  | ok grown linked value => exact (hfg grown.le linked value).after grown
  | error e => exact .error e

private theorem newArray (hl : h.Linked π k) {vs ws : List Value} (hvs : Alike π vs ws) :
    BuildsAlike π h k
      (.ok (Value.array (h.newArray vs.toArray).1, (h.newArray vs.toArray).2))
      (.ok (Value.array (k.newArray ws.toArray).1, (k.newArray ws.toArray).2)) := by
  obtain ⟨hgrown, hlinked⟩ := hl.newArray hvs
  exact .ok hgrown hlinked (.array (Or.inr ⟨rfl, rfl⟩))

private theorem newDict (hl : h.Linked π k) {d e : Dictionary} (hde : Alike π d e) :
    BuildsAlike π h k (.ok (Value.dict (h.newDict d).1, (h.newDict d).2))
      (.ok (Value.dict (k.newDict e).1, (k.newDict e).2)) := by
  obtain ⟨hgrown, hlinked⟩ := hl.newDict hde
  exact .ok hgrown hlinked (.dict (Or.inr ⟨rfl, rfl⟩))

private theorem wrapInArrays (n : Nat) (hl : h.Linked π k) {v w : Value} (hv : Alike π v w) :
    BuildsAlike π h k (.ok (Heap.wrapInArrays n v h)) (.ok (Heap.wrapInArrays n w k)) := by
  induction n generalizing π h k v w with
  | zero => exact .of_alike hl hv
  | succ n ih =>
    obtain ⟨hgrown, hlinked⟩ := hl.newArray (.cons hv .nil)
    exact (ih hlinked (.array (Or.inr ⟨rfl, rfl⟩))).after hgrown

private theorem wrapInDicts (n : Nat) (hl : h.Linked π k) {v w : Value} (hv : Alike π v w) :
    BuildsAlike π h k (.ok (Heap.wrapInDicts n v h)) (.ok (Heap.wrapInDicts n w k)) := by
  induction n generalizing π h k v w with
  | zero => exact .of_alike hl hv
  | succ n ih =>
    obtain ⟨hgrown, hlinked⟩ :=
      hl.newDict (Dictionary.Alike.set (Dictionary.alike_empty π) (.str "k") hv)
    exact (ih hlinked (.dict (Or.inr ⟨rfl, rfl⟩))).after hgrown

end BuildsAlike

namespace Literal

variable {ρ ρ' : Std.TreeMap Bytes Value}

mutual

/-- A value is built alike from alike registers. -/
theorem build_alike (l : Literal) {π : Pairing} {h k : Heap} (hl : h.Linked π k)
    (hr : ∀ name, l.Reads name → Alike π ρ[name]? ρ'[name]?) :
    BuildsAlike π h k (l.build ρ h) (l.build ρ' k) := by
  match l with
  | .none =>
    simp only [build]
    exact .of_alike hl Value.Alike.none
  | bool b =>
    simp only [build]
    exact .of_alike hl (Value.Alike.bool b)
  | int n =>
    simp only [build]
    exact .of_alike hl (Value.Alike.int n)
  | str s =>
    simp only [build]
    exact .of_alike hl (Value.Alike.str s)
  | register name =>
    have hv := hr name .register
    simp only [build, Std.TreeMap.getD_eq_getD_getElem?]
    generalize ρ[name]? = v at hv
    generalize ρ'[name]? = w at hv
    cases hv with
    | some hv => exact .of_alike hl hv
    | none => exact .of_alike hl Value.Alike.none
  | array elements =>
    rw [build, build]
    exact (buildAll_alike elements hl fun l hmem name hname ↦ hr name (.element hmem hname)).bind
      fun _ hl' hvs ↦ .newArray hl' hvs
  | dict entries =>
    rw [build, build]
    exact (buildEntries_alike entries hl (Dictionary.alike_empty π) fun l hmem name hname ↦
      hr name (hname.elim (.key hmem) (.value hmem))).bind fun _ hl' hd ↦ .newDict hl' hd
  | inArrays count inner =>
    rw [build, build]
    exact (build_alike inner hl fun name hname ↦ hr name (.inArrays count hname)).bind
      fun _ hl' hv ↦ .wrapInArrays count hl' hv
  | inDicts count inner =>
    rw [build, build]
    exact (build_alike inner hl fun name hname ↦ hr name (.inDicts count hname)).bind
      fun _ hl' hv ↦ .wrapInDicts count hl' hv

/-- So are values one after the other. -/
theorem buildAll_alike (ls : List Literal) {π : Pairing} {h k : Heap} (hl : h.Linked π k)
    (hr : ∀ l ∈ ls, ∀ name, l.Reads name → Alike π ρ[name]? ρ'[name]?) :
    BuildsAlike π h k (buildAll ρ ls h) (buildAll ρ' ls k) := by
  match ls with
  | [] =>
    simp only [buildAll]
    exact .of_alike hl List.Forall₂.nil
  | l :: ls =>
    rw [buildAll, buildAll]
    refine (build_alike l hl (hr l List.mem_cons_self)).bind fun hle hl' hv ↦ ?_
    refine (buildAll_alike ls hl' fun l hmem name hname ↦ ?_).bind fun hle' hl'' hvs ↦ ?_
    · exact (hr l (List.mem_cons_of_mem _ hmem) name hname).mono hle
    · exact .of_alike hl'' (List.Forall₂.cons (hv.mono hle') hvs)

/-- So are the entries of a dictionary. -/
theorem buildEntries_alike (entries : List (Literal × Literal)) {π : Pairing} {h k : Heap}
    {d e : Dictionary} (hl : h.Linked π k) (hd : Alike π d e)
    (hr : ∀ l ∈ entries, ∀ name, l.1.Reads name ∨ l.2.Reads name →
      Alike π ρ[name]? ρ'[name]?) :
    BuildsAlike π h k (buildEntries ρ entries d h) (buildEntries ρ' entries e k) := by
  match entries with
  | [] =>
    simp only [buildEntries]
    exact .of_alike hl hd
  | (key, value) :: entries =>
    rw [buildEntries, buildEntries]
    have hfirst := hr (key, value) List.mem_cons_self
    refine (build_alike key hl fun name hname ↦ hfirst name (Or.inl hname)).bind
      fun hle hl' hkey ↦ ?_
    refine (build_alike value hl' fun name hname ↦
      (hfirst name (Or.inr hname)).mono hle).bind fun hle' hl'' hv ↦ ?_
    simp only [Value.Alike.dictKey_eq hkey]
    split
    · refine buildEntries_alike entries hl'' ?_ fun l hmem name hname ↦ ?_
      · exact Dictionary.Alike.set (hd.mono (hle.trans hle')) _ hv
      · exact (hr l (List.mem_cons_of_mem _ hmem) name hname).mono (hle.trans hle')
    · exact .error _

end

end Literal
end Building
end Scriptlet
