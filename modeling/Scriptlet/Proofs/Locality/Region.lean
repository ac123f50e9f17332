import Scriptlet.Proofs.Locality.Operation

/-!
# What an evaluator can reach

An evaluator gets hold of a container only by taking handles out of the values that it holds or is
given. A heap is linked with itself along any region that no handle leads out of, so an operation
stays in the region that it starts from: it leaves all other containers alone, and ends up with
handles to containers of the region, or to new ones.
-/

namespace Scriptlet

/-- What can be reached from some values by taking handles out of containers. -/
inductive Heap.Reaches (h : Heap) (roots : Value → Prop) : Container → Prop where
  | root {v : Value} {c : Container} (hv : roots v) (names : v.container? = some c) :
      Reaches h roots c
  | held {c d : Container} {v : Value} (reached : Reaches h roots c) (hv : v ∈ h.held c)
      (names : v.container? = some d) : Reaches h roots d

/-- A value names no container outside a region. -/
def Value.Within (P : Container → Prop) (v : Value) : Prop := ∀ c, v.container? = some c → P c

/-- Pairs every container of a region with itself. -/
def Pairing.within (P : Container → Prop) : Pairing := fun c d ↦ c = d ∧ P c

/-- The containers that are paired with some other one. -/
def Pairing.Left (π : Pairing) (c : Container) : Prop := ∃ d, π c d

section Values

variable {π : Pairing} {P : Container → Prop} {v w : Value} {vs ws : List Value}

/-- A value within a region is like itself. -/
theorem Value.Within.alike (hv : v.Within P) : Alike (.within P) v v := by
  cases v with
  | array r => exact .array ⟨rfl, hv _ rfl⟩
  | dict r => exact .dict ⟨rfl, hv _ rfl⟩
  | _ => exact alike_self rfl

private theorem alike_within_of_forall (hvs : ∀ v ∈ vs, v.Within P) : Alike (.within P) vs vs :=
  List.forall₂_same.mpr fun v hv ↦ (hvs v hv).alike

/-- What is like something names paired containers only. -/
theorem Value.Alike.within (h : Alike π v w) : v.Within π.Left := by
  intro c hc
  obtain ⟨d, -, hp⟩ := h.paired hc
  exact ⟨d, hp⟩

/-- So it is for each of several values. -/
theorem within_of_alike (h : Alike π vs ws) (hv : v ∈ vs) : v.Within π.Left := by
  induction h with
  | nil => cases hv
  | cons hw _ ih =>
    cases hv with
    | head => exact Value.Alike.within hw
    | tail _ hv => exact ih hv

/-- Alike dictionaries hold alike values. -/
theorem Dictionary.Alike.values {d e : Dictionary} (h : Dictionary.Alike π d e) :
    Scriptlet.Alike π d.values e.values :=
  List.forall₂_map_left_iff.mpr (List.forall₂_map_right_iff.mpr (h.entries.imp fun _ _ hp ↦ hp.2))

end Values

namespace Heap

variable {π : Pairing} {P : Container → Prop} {h k : Heap} {c d : Container} {v : Value}

/-- A heap is linked with itself along a region of its containers that no handle leads out of. -/
theorem linked_within (hw : h.WF) (has : ∀ c, P c → h.Has c)
    (held : ∀ c, P c → ∀ v ∈ h.held c, v.Within P) : h.Linked (.within P) h where
  left_unique := fun ⟨hc, _⟩ ⟨hd, _⟩ ↦ hd.trans hc.symm
  right_unique := fun ⟨hc, _⟩ ⟨hd, _⟩ ↦ hd.symm.trans hc
  has_left := fun ⟨_, hp⟩ ↦ has _ hp
  has_right := fun ⟨heq, hp⟩ ↦ heq ▸ has _ hp
  alike := by
    rintro c _ ⟨rfl, hp⟩
    cases c with
    | array r => exact alike_within_of_forall (held _ hp)
    | dict r =>
      refine Dictionary.Alike.mk (List.forall₂_same.mpr fun s hs ↦ ⟨rfl, ?_, rfl⟩) rfl rfl rfl
      cases hlive : s.live with
      | false =>
        rw [(hw r).dead_none s (Array.mem_toList_iff.mp hs) hlive]
        exact .none
      | true =>
        apply (held _ hp s.value _).alike
        have hentry : (s.key, s.value) ∈ (h.dict r).entries :=
          List.mem_map.mpr ⟨s, List.mem_filter.mpr ⟨hs, hlive⟩, rfl⟩
        exact List.mem_map_of_mem hentry

namespace Linked

/-- Paired containers hold handles to paired containers. -/
theorem held_within (hl : Heap.Linked π h k) (hp : π c d) (hv : v ∈ h.held c) :
    v.Within π.Left := by
  have halike := hl.alike hp
  cases c <;> cases d
  · exact within_of_alike halike hv
  · exact halike.elim
  · exact halike.elim
  · exact within_of_alike (Dictionary.Alike.values halike) hv

/-- So nothing else can be reached from them. -/
theorem left_of_reaches (hl : Heap.Linked π h k) {roots : Value → Prop}
    (hroots : ∀ v, roots v → v.Within π.Left) (hc : h.Reaches roots c) : π.Left c := by
  induction hc with
  | root hv names => exact hroots _ hv _ names
  | held _ hv names ih =>
    obtain ⟨d, hp⟩ := ih
    exact hl.held_within hp hv _ names

end Linked
end Heap

/-- What an evaluator holds on to: the values of its global variables, and those that its host
functions return. -/
inductive Evaluator.Holds (ev : Evaluator) : Value → Prop where
  | global {name : Bytes} {v : Value} (bound : ev.lookup name = .ok v) : Holds ev v
  | host {name label : Bytes} {v : Value}
      (offered : ev.context.builtins[name]? = some (.host label (.value v))) : Holds ev v

section Evaluators

variable {π : Pairing} {P : Container → Prop} {ev ev' : Evaluator} {v : Value}

namespace Evaluator

/-- A global variable is one that the global scope binds. -/
theorem lookup_eq_ok_iff (ev : Evaluator) (name : Bytes) (v : Value) :
    ev.lookup name = .ok v ↔ ev.scopes.binding? .global name = some v := by
  have hchain : ev.scopes.chain .global = [.global] := by
    rw [Scopes.chain]
    cases (ev.scopes.scope .global).parent <;> simp [ScopeId.global]
  rw [lookup, Scopes.lookup?, hchain]
  simp only [List.findSome?_cons, List.findSome?_nil]
  cases ev.scopes.binding? .global name <;> simp

/-- An evaluator with one open scope that holds values of a region only is like itself. -/
theorem alike_within (hopen : ev.scopes.all.size = 1) (hv : ∀ v, ev.Holds v → v.Within P) :
    Scriptlet.Alike (.within P) ev ev := by
  refine Evaluator.Alike.mk ⟨rfl, fun name ↦ ?_, rfl⟩ (List.forall₂_same.mpr fun scope hs ↦ ?_) rfl
  · cases hb : ev.context.builtins[name]? with
    | none => exact .none
    | some b =>
      cases b with
      | host label answer =>
        cases answer with
        | value v => exact .some (.host label (.value (hv v (.host hb)).alike))
        | failure detail => exact .some (.host label (.failure detail))
        | call callee => exact .some (.host label (.call callee))
      | _ => exact .some (.usual (by simp [Builtin.defaults]))
  · refine ⟨fun name ↦ ?_, rfl⟩
    have hscope : scope = ev.scopes.scope .global := by
      obtain ⟨i, hi, rfl⟩ := List.getElem_of_mem hs
      rw [Array.length_toList] at hi
      obtain rfl : i = 0 := by omega
      simp [Scopes.scope, ScopeId.global, Array.getD, hi]
    subst hscope
    cases hb : (ev.scopes.scope .global).bindings[name]? with
    | none => exact .none
    | some v => exact .some (hv v (.global ((ev.lookup_eq_ok_iff name v).mpr hb))).alike

/-- An evaluator that is like another one holds handles to paired containers only. -/
theorem Alike.within (h : ev.Alike π ev') (hv : ev.Holds v) : v.Within π.Left := by
  cases hv with
  | @global name _ bound =>
    have hl := h.lookup name
    rw [bound] at hl
    generalize ev'.lookup name = r at hl
    cases hl with
    | ok value => exact Value.Alike.within value
  | @host name label _ offered =>
    have hb := Context.Alike.builtins h.context name
    rw [offered] at hb
    generalize ev'.context.builtins[name]? = b' at hb
    cases hb with
    | some hb =>
      cases hb with
      | usual hb => exact absurd hb (by simp [Builtin.defaults])
      | host _ ha =>
        cases ha with
        | value hv => exact Value.Alike.within hv

end Evaluator

namespace EvaluatorOperation

/-- What an operation starts from: what the evaluator holds, and the values it is given. -/
def Given (ev : Evaluator) (vs : List Value) (v : Value) : Prop := ev.Holds v ∨ v ∈ vs

/-- What an operation leads to: what the evaluator holds afterwards, and the result. -/
def Gained (o : Outcome Result) (v : Value) : Prop :=
  o.evaluator.Holds v ∨ o.result = .ok (.value v)

/-- An operation stays within what can be reached from where it starts, as long as no handle there
dangles: it leaves all other containers alone, and all that can be reached from what it leads to
could be reached before or is new. -/
theorem perform_stays (op : EvaluatorOperation) (ev : Evaluator) (h : Heap) (vs : List Value)
    (hw : h.WF) (hopen : ev.scopes.all.size = 1)
    (has : ∀ c, h.Reaches (Given ev vs) c → h.Has c) :
    let o := op.perform ev h vs
    (∀ c, h.Has c → ¬ h.Reaches (Given ev vs) c → h.Unchanged o.heap c) ∧
      ∀ c, o.heap.Reaches (Gained o) c →
        o.heap.Has c ∧ (h.Reaches (Given ev vs) c ∨ ¬ h.Has c) := by
  intro o
  let P := h.Reaches (Given ev vs)
  have hl : h.Linked (.within P) h :=
    Heap.linked_within hw has fun c hc v hv d hd ↦ hc.held hv hd
  have hev : Alike (.within P) ev ev :=
    Evaluator.alike_within hopen fun v hv d hd ↦ .root (Or.inl hv) hd
  have hvs : Alike (.within P) vs vs :=
    alike_within_of_forall fun v hv d hd ↦ .root (Or.inr hv) hd
  obtain ⟨π', hgrown, hlinked⟩ := op.perform_alike hl hev hvs
  constructor
  · intro c hc hn
    apply hgrown.left.same hc
    rintro ⟨d, -, hp⟩
    exact hn hp
  · intro c hc
    have hroots (v : Value) (hv : Gained o v) : v.Within π'.Left := by
      rcases hv with hv | hv
      · exact Evaluator.Alike.within hlinked.evaluator hv
      · have hresult := hlinked.result
        rw [show (op.perform ev h vs).result = _ from hv] at hresult
        cases hresult with
        | ok value =>
          cases value with
          | value hv => exact Value.Alike.within hv
    obtain ⟨d, hp⟩ := hlinked.heap.left_of_reaches hroots hc
    refine ⟨hlinked.heap.has_left hp, ?_⟩
    rcases hgrown.fresh hp with ⟨-, hin⟩ | ⟨hnew, -⟩
    · exact Or.inl hin
    · exact Or.inr hnew

end EvaluatorOperation
end Evaluators
end Scriptlet
