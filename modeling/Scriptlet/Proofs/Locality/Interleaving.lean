import Mathlib.Data.Set.Lattice
import Mathlib.Order.CompletePartialOrder
import Scriptlet.Proofs.Locality.Closure

/-!
# Evaluators side by side

An evaluator works within what it and the values that it is given can reach. So two parts of a
session that reach no container in common go their own ways: in any interleaving of their requests
each gets the replies that it would get alone, and ends up holding the same.
-/

namespace Scriptlet

/-- What a part of a session holds: what its evaluators hold, and what is in its registers. -/
inductive Session.Holds (s : Session) (p : Part) : Value → Prop where
  | evaluator {name : Bytes} {ev : Evaluator} {v : Value} (hn : name ∈ p.evaluators)
      (hev : s.evaluators[name]? = some ev) (hv : ev.Holds v) : Holds s p v
  | register {name : Bytes} {v : Value} (hn : name ∈ p.registers)
      (hr : s.registers[name]? = some v) : Holds s p v

/-- Two parts of a session have no evaluator, no register and no container in common. -/
structure Session.Apart (s : Session) (p q : Part) : Prop where
  evaluators : Disjoint p.evaluators q.evaluators
  registers : Disjoint p.registers q.registers
  containers : ∀ c, s.heap.Reaches (s.Holds p) c → ¬ s.heap.Reaches (s.Holds q) c

/-- An operation is a request that keeps to a part of the session. -/
def Part.Asks (p : Part) : Operation → Prop
  | .evaluator name op => p.Covers name op
  | _ => False

/-- One evaluator and no register. -/
def Part.ofEvaluator (name : Bytes) : Part := ⟨{n | n = name}, ∅⟩

private theorem Part.covers_ofEvaluator (name : Bytes) {op : EvaluatorOperation}
    (hl : op.literals = []) (hi : op.into = none) : (ofEvaluator name).Covers name op where
  evaluator := rfl
  registers register hu := by
    rcases hu with ⟨l, hmem, -⟩ | hinto
    · rw [hl] at hmem
      cases hmem
    · rw [hi] at hinto
      cases hinto

/-- Whether an operation is a request to a certain evaluator. -/
def Operation.isTo (name : Bytes) : Operation → Bool
  | .evaluator n _ => n = name
  | _ => false

private theorem Exec.stable_size_scopes :
    Stable fun m m' ↦ m'.scopes.all.size = m.scopes.all.size where
  refl _ := rfl
  trans h₁ h₂ := h₂.trans h₁
  edit _ _ _ := rfl
  write _ _ := rfl
  declare scope name v m := by simp only [Scopes.bind, Array.size_modify]
  inScope parent m m' h := by
    simp only [Scopes.enter, Array.size_push] at h
    simp only [Scopes.leave, Scopes.enter, Array.take_eq_extract, Array.size_extract]
    omega
  inFrame _ _ h := h

section

variable {π ρ : Pairing} {h h' k k' : Heap} {p q : Part} {s t : Session}

/-- Heaps stay linked when no paired container is touched. -/
theorem Heap.Linked.of_spares {T T' : Container → Prop} (hl : h.Linked π k) (hh : h.Spares T h')
    (hk : k.Spares T' k') (hT : ∀ {c d}, π c d → ¬ T c ∧ ¬ T' d) : h'.Linked π k' where
  left_unique := hl.left_unique
  right_unique := hl.right_unique
  has_left hp := hh.has (hl.has_left hp)
  has_right hp := hk.has (hl.has_right hp)
  alike hp := (hl.alike hp).of_unchanged (hh.same (hl.has_left hp) (hT hp).1)
    (hk.same (hl.has_right hp) (hT hp).2)

private theorem Heap.not_reaches {roots : Value → Prop} (hr : ∀ v, ¬ roots v) {c : Container} :
    ¬ h.Reaches roots c := by
  intro hc
  induction hc with
  | root hv _ => exact hr _ hv
  | held _ _ _ ih => exact ih

namespace Session

/-- Of two sessions the first one is shared by two parts, whose containers are apart; in one of
these parts the second session is alike. -/
structure Split (π ρ : Pairing) (p q : Part) (s t : Session) : Prop where
  mine : s.Alike π p t
  other : s.Alike ρ q s
  apart : ∀ {c d}, ρ c d → ¬ π.Left c ∧ ¬ π.Left d

namespace Split

variable {name : Bytes} {op : EvaluatorOperation}

/-- A request of the one part is answered alike, and does not touch the other part. -/
theorem ask (h : Split π ρ p q s t) (hevaluators : Disjoint p.evaluators q.evaluators)
    (hregisters : Disjoint p.registers q.registers) (hp : p.Covers name op) :
    (t.stepEvaluator name op).1 = (s.stepEvaluator name op).1 ∧
      ∃ π', Split π' ρ p q (s.stepEvaluator name op).2 (t.stepEvaluator name op).2 := by
  obtain ⟨hreply, π', hgrown, hmine⟩ := h.mine.stepEvaluator hp
  have hn (n : Bytes) (hn : n ∈ q.evaluators) :
      (s.stepEvaluator name op).2.evaluators[n]? = s.evaluators[n]? := by
    apply evaluators_stepEvaluator_of_ne
    rintro rfl
    exact hevaluators.le_bot ⟨hp.evaluator, hn⟩
  have hr (r : Bytes) (hr : r ∈ q.registers) :
      (s.stepEvaluator name op).2.registers[r]? = s.registers[r]? :=
    registers_stepEvaluator_of_not_uses fun hu ↦ hregisters.le_bot ⟨hp.registers r hu, hr⟩
  refine ⟨hreply, π', hmine, h.other.frame hn hn hr hr ?_, ?_⟩
  · exact h.other.heap.of_spares hgrown.left hgrown.left h.apart
  · have hfresh {c : Container} (hc : s.heap.Has c) (hn : ¬ π.Left c) : ¬ π'.Left c := by
      rintro ⟨d, hp⟩
      rcases hgrown.fresh hp with hp | ⟨hnew, -⟩
      · exact hn ⟨d, hp⟩
      · exact hnew hc
    intro c d hp
    exact ⟨hfresh (h.other.heap.has_left hp) (h.apart hp).1,
      hfresh (h.other.heap.has_right hp) (h.apart hp).2⟩

/-- A request of the other part does not touch the one. -/
theorem pass (h : Split π ρ p q s t) (hevaluators : Disjoint p.evaluators q.evaluators)
    (hregisters : Disjoint p.registers q.registers) (hq : q.Covers name op) :
    ∃ ρ', Split π ρ' p q (s.stepEvaluator name op).2 t := by
  obtain ⟨-, ρ', hgrown, hother⟩ := h.other.stepEvaluator hq
  refine ⟨ρ', h.mine.frame (fun n hn ↦ ?_) (fun _ _ ↦ rfl) (fun r hr ↦ ?_) (fun _ _ ↦ rfl) ?_,
    hother, ?_⟩
  · apply evaluators_stepEvaluator_of_ne
    rintro rfl
    exact hevaluators.le_bot ⟨hn, hq.evaluator⟩
  · exact registers_stepEvaluator_of_not_uses fun hu ↦ hregisters.le_bot ⟨hr, hq.registers r hu⟩
  · have hstays : t.heap.Spares (fun _ ↦ False) t.heap := .refl t.heap
    refine h.mine.heap.of_spares hgrown.left hstays fun hp ↦ ⟨?_, not_false⟩
    rintro ⟨d, hd⟩
    exact (h.apart hd).1 ⟨_, hp⟩
  · intro c d hp
    rcases hgrown.fresh hp with hp | ⟨hc, hd⟩
    · exact h.apart hp
    · exact ⟨fun ⟨_, hp⟩ ↦ hc (h.mine.heap.has_left hp), fun ⟨_, hp⟩ ↦ hd (h.mine.heap.has_left hp)⟩

/-- In any interleaving of requests the one part gets the replies that it gets without the other
part, and ends up the same. -/
theorem steps (h : Split π ρ p q s t) (hevaluators : Disjoint p.evaluators q.evaluators)
    (hregisters : Disjoint p.registers q.registers) (mine : Operation → Bool) (ops : List Operation)
    (hops : ∀ op ∈ ops, if mine op then p.Asks op else q.Asks op) :
    ((ops.zip (s.steps ops).1).filter fun x ↦ mine x.1).map Prod.snd =
        (t.steps (ops.filter mine)).1 ∧
      ∃ π', (s.steps ops).2.Alike π' p (t.steps (ops.filter mine)).2 := by
  induction ops generalizing π ρ s t with
  | nil => exact ⟨rfl, π, h.mine⟩
  | cons op ops ih =>
    have hop := hops op List.mem_cons_self
    have hrest := fun o ho ↦ hops o (List.mem_cons_of_mem op ho)
    cases op with
    | evaluator name op =>
      cases hm : mine (.evaluator name op) with
      | true =>
        rw [hm] at hop
        obtain ⟨hreply, π', h'⟩ := h.ask hevaluators hregisters hop
        obtain ⟨hreplies, hend⟩ := ih h' hrest
        simp only [Session.steps, Session.step, List.zip_cons_cons, List.filter_cons, hm, if_true,
          List.map_cons]
        exact ⟨congrArg₂ List.cons hreply.symm hreplies, hend⟩
      | false =>
        rw [hm] at hop
        obtain ⟨ρ', h'⟩ := h.pass hevaluators hregisters hop
        simp only [Session.steps, Session.step, List.zip_cons_cons, List.filter_cons, hm,
          Bool.false_eq_true, if_false]
        exact ih h' hrest
    | _ =>
      split at hop
      · exact hop.elim
      · exact hop.elim

end Split
private theorem Closed.within_of_holds (hs : s.Closed π) {v : Value} (hv : s.Holds p v) :
    v.Within π.Left := by
  cases hv with
  | @evaluator name ev _ hn hev hv =>
    have halike := hs.alike.evaluators name trivial
    rw [hev] at halike
    exact Evaluator.Alike.within (Option.rel_some_some.mp halike) hv
  | @register name _ hn hr =>
    have halike := hs.alike.registers name trivial
    rw [hr] at halike
    exact Value.Alike.within (Option.rel_some_some.mp halike)

private theorem Closed.has_of_reaches (hs : s.Closed π) {c : Container}
    (hc : s.heap.Reaches (s.Holds p) c) : s.heap.Has c := by
  obtain ⟨d, hp⟩ := hs.linked.left_of_reaches (fun _ ↦ hs.within_of_holds) hc
  exact hs.linked.has_left hp

private theorem Closed.has_of_given (hs : s.Closed π) {name : Bytes} {op : EvaluatorOperation}
    {ev : Evaluator} {vs : List Value} (hev : s.evaluators[name]? = some ev)
    (hb : Literal.buildAll s.registers op.literals s.heap = .ok (vs, h)) {c : Container}
    (hc : h.Reaches (EvaluatorOperation.Given ev vs) c) : h.Has c := by
  have hbuilt := Literal.buildAll_alike op.literals hs.linked
    fun _ _ r _ ↦ hs.alike.registers r trivial
  rw [hb] at hbuilt
  cases hbuilt with
  | ok grown linked value =>
    have halike := hs.alike.evaluators name trivial
    rw [hev] at halike
    have hroots (v : Value) (hv : EvaluatorOperation.Given ev vs v) : v.Within _ :=
      hv.elim (Evaluator.Alike.within ((Option.rel_some_some.mp halike).mono grown.le))
        (within_of_alike value)
    obtain ⟨d, hp⟩ := linked.left_of_reaches hroots hc
    exact linked.has_left hp

private theorem Closed.alike_reaches (hs : s.Closed π) (hw : s.heap.WF)
    (hopen : s.Every (·.scopes.all.size = 1)) (p : Part) :
    s.Alike (.within (s.heap.Reaches (s.Holds p))) p s where
  heap := Heap.linked_within hw (fun _ hc ↦ hs.has_of_reaches hc)
    fun _ hc _ hv _ hd ↦ hc.held hv hd
  evaluators name hn := by
    cases hev : s.evaluators[name]? with
    | none => exact .none
    | some ev =>
      exact .some (Evaluator.alike_within (hopen name ev hev)
        fun v hv c hc ↦ .root (.evaluator hn hev hv) hc)
  registers name hn := by
    cases hr : s.registers[name]? with
    | none => exact .none
    | some v =>
      have hv : v.Within (s.heap.Reaches (s.Holds p)) := fun c hc ↦ .root (.register hn hr) hc
      exact .some hv.alike

/-- Two parts of a session that are apart split it. -/
theorem Closed.split (hs : s.Closed π) (hw : s.heap.WF)
    (hopen : s.Every (·.scopes.all.size = 1)) (hapart : s.Apart p q) :
    Split (.within (s.heap.Reaches (s.Holds p))) (.within (s.heap.Reaches (s.Holds q)))
      p q s s where
  mine := hs.alike_reaches hw hopen p
  other := hs.alike_reaches hw hopen q
  apart := by
    rintro c _ ⟨rfl, hc⟩
    have hn : ¬ (Pairing.within (s.heap.Reaches (s.Holds p))).Left c := by
      rintro ⟨_, -, hp⟩
      exact hapart.containers c hp hc
    exact ⟨hn, hn⟩

end Session

private theorem EvaluatorOperation.size_scopes_perform (op : EvaluatorOperation) (ev : Evaluator)
    (h : Heap) (vs : List Value) :
    (op.perform ev h vs).evaluator.scopes.all.size = ev.scopes.all.size := by
  obtain ⟨m, hm, -, hscopes⟩ := op.stable_perform Exec.stable_size_scopes ev h vs
  rw [hscopes]
  exact hm

private theorem Evaluator.holds_iff_of_usual {ev : Evaluator}
    (hb : ev.context.builtins = Builtin.defaultTable) (v : Value) :
    ev.Holds v ↔ ∃ name, ev.lookup name = .ok v := by
  constructor
  · rintro (⟨bound⟩ | ⟨offered⟩)
    · exact ⟨_, bound⟩
    · rw [hb] at offered
      exact absurd (Builtin.mem_defaults_of_getElem? offered) (by simp [Builtin.defaults])
  · rintro ⟨name, bound⟩
    exact .global bound

end

namespace Session

open EvaluatorOperation

/-- In every session, whatever has been done in it: an operation of an evaluator, whether it
succeeds or fails, leaves alone every container that can be reached neither from what the evaluator
holds nor from the values that it is given, and every other evaluator; and what can be reached
afterwards from its result and from what the evaluator holds could be reached before, or is new.
What it writes is part of its own reply. An evaluator without host functions holds the values of its
global variables. So parts of the session that are apart do not influence one another: in any
interleaving of their requests the one gets the replies that it gets without the other, and in the
end its evaluators know and its registers hold the same, up to the addresses of containers. -/
theorem evaluators_local (evaluator : Bytes) (maxDepth : Nat) (before : List Operation) :
    let s := ((start evaluator maxDepth).steps before).2
    (∀ (name : Bytes) (op : EvaluatorOperation) (ev : Evaluator) (vs : List Value) (h : Heap),
      s.evaluators[name]? = some ev →
      Literal.buildAll s.registers op.literals s.heap = .ok (vs, h) →
        let o := op.perform ev h vs
        let s' := (s.stepEvaluator name op).2
        (s.stepEvaluator name op).1 = replyTo o ∧ s'.heap = o.heap ∧
        s'.evaluators[name]? = some o.evaluator ∧
        (∀ other : Bytes, other ≠ name → s'.evaluators[other]? = s.evaluators[other]?) ∧
        (∀ c, h.Has c → ¬ h.Reaches (Given ev vs) c → h.Unchanged o.heap c) ∧
        (∀ c, o.heap.Reaches (Gained o) c → h.Reaches (Given ev vs) c ∨ ¬ h.Has c) ∧
        (ev.context.builtins = Builtin.defaultTable →
          ∀ v, ev.Holds v ↔ ∃ x, ev.lookup x = .ok v)) ∧
    ∀ (p q : Part) (mine : Operation → Bool) (ops : List Operation), s.Apart p q →
      (∀ op ∈ ops, if mine op then p.Asks op else q.Asks op) →
        ((ops.zip (s.steps ops).1).filter fun x ↦ mine x.1).map Prod.snd =
            (s.steps (ops.filter mine)).1 ∧
          ∃ π, (s.steps ops).2.Alike π p (s.steps (ops.filter mine)).2 := by
  intro s
  obtain ⟨π, hs⟩ := exists_closed_steps_start evaluator maxDepth before
  have hw : s.heap.WF := ((start evaluator maxDepth).evolves_steps before).wf Heap.wf_empty
  have hopen : s.Every (·.scopes.all.size = 1) :=
    every_steps_start (fun _ ↦ rfl) (fun op ev h vs ho ↦ (op.size_scopes_perform ev h vs).trans ho)
      evaluator maxDepth before
  constructor
  · intro name op ev vs h hev hb o s'
    have hstep := stepEvaluator_of_ok hev hb
    have has (c : Container) (hc : h.Reaches (Given ev vs) c) : h.Has c :=
      hs.has_of_given hev hb hc
    obtain ⟨hsame, hreached⟩ := op.perform_stays ev h vs ((Literal.evolves_buildAll _ hb).wf hw)
      (hopen name ev hev) has
    refine ⟨congrArg Prod.fst hstep, congrArg (·.2.heap) hstep, ?_, ?_, hsame,
      fun c hc ↦ (hreached c hc).2, fun hb ↦ Evaluator.holds_iff_of_usual hb⟩
    · rw [show s' = _ from congrArg Prod.snd hstep]
      exact Std.TreeMap.getElem?_insert_self
    · exact fun other hne ↦ evaluators_stepEvaluator_of_ne hne
  · intro p q mine ops hapart hops
    exact (hs.split hw hopen hapart).steps hapart.evaluators hapart.registers mine ops hops

/-- Two new evaluators are apart: what becomes of a variable of the one does not depend on what the
other one does to its own variable of that name in the meantime. -/
theorem evaluators_local_two :
    let s := ((start "a" 8).steps [.newEvaluator "b" 8]).2
    let p : Part := .ofEvaluator "a"
    let q : Part := .ofEvaluator "b"
    let assign (name : Bytes) : Operation :=
      .evaluator name (.load (some ⟨{}, [.assign {} (.ident {} "x") "=" (.array {} [])]⟩))
    let push : Operation :=
      .evaluator "b" (.evaluate (.call {} .absent "push" [.ident {} "x", .int {} 2]) none)
    let ask : Operation := .evaluator "a" (.evaluate (.ident {} "x") none)
    let ops := [assign "a", assign "b", push, ask]
    s.Apart p q ∧ (∀ op ∈ ops, if op.isTo "a" then p.Asks op else q.Asks op) ∧
      ((ops.zip (s.steps ops).1).filter fun x ↦ x.1.isTo "a").map Prod.snd =
        (s.steps [assign "a", ask]).1 := by
  intro s p q assign push ask ops
  have hempty (name : Bytes) (v : Value) : ¬ s.Holds (.ofEvaluator name) v := by
    rintro (⟨-, hev, hv⟩ | ⟨⟨⟩, -⟩)
    have hs : s.evaluators = ((∅ : Std.TreeMap Bytes Evaluator).insert "a" (Evaluator.new 8)).insert
        "b" (Evaluator.new 8) := rfl
    simp only [hs, Std.TreeMap.getElem?_insert] at hev
    split at hev
    · cases hev
      exact Evaluator.not_holds_new 8 v hv
    · split at hev
      · cases hev
        exact Evaluator.not_holds_new 8 v hv
      · simp at hev
  have hapart : s.Apart p q := by
    refine ⟨disjoint_iff_inf_le.mpr ?_, disjoint_bot_left, fun c hc ↦ ?_⟩
    · rintro n ⟨rfl, hb⟩
      exact absurd (show ("a" : Bytes) = "b" from hb) (by decide)
    · exact absurd hc (Heap.not_reaches (hempty "a"))
  have hops : ∀ op ∈ ops, if op.isTo "a" then p.Asks op else q.Asks op := by
    simp only [ops, List.forall_mem_cons, List.not_mem_nil, false_imp_iff, implies_true, and_true]
    exact ⟨Part.covers_ofEvaluator "a" rfl rfl, Part.covers_ofEvaluator "b" rfl rfl,
      Part.covers_ofEvaluator "b" rfl rfl, Part.covers_ofEvaluator "a" rfl rfl⟩
  refine ⟨hapart, hops, ?_⟩
  exact ((evaluators_local "a" 8 [.newEvaluator "b" 8]).2 p q (·.isTo "a") ops hapart hops).1

end Session
end Scriptlet
