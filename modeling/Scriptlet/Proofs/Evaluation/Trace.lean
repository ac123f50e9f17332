import Scriptlet.Proofs.Evaluation.Piece
import Scriptlet.Proofs.Heap.Alteration

/-!
# What a run does to a container

Over a moment of a run the stamp of a container rises exactly if the run passes through a single
step that alters the container, whatever else is done to the heap, through whichever handle and
however deep inside calls. It never falls, so no run makes an array shorter.
-/

namespace Scriptlet

open Exec Plan

namespace Heap

/-- From `h` to `k` the stamp of a container rises if `altered` holds, and else stays. -/
structure Traced (c : Container) (altered : Prop) (h k : Heap) : Prop where
  has : k.Has c
  rises : altered → h.stamp c < k.stamp c
  stays : ¬ altered → k.stamp c = h.stamp c

namespace Traced

variable {c : Container} {p q : Prop} {h k l : Heap}

/-- Nothing done, nothing altered. -/
theorem refl (hc : h.Has c) (hp : ¬ p) : Traced c p h h :=
  ⟨hc, fun h ↦ absurd h hp, fun _ ↦ rfl⟩

/-- What is traced may be said in other words. -/
theorem congr (hk : Traced c p h k) (hpq : p ↔ q) : Traced c q h k :=
  ⟨hk.has, fun hq ↦ hk.rises (hpq.mpr hq), fun hq ↦ hk.stays fun hp ↦ hq (hpq.mp hp)⟩

private theorem le (hk : Traced c p h k) : h.stamp c ≤ k.stamp c := by
  by_cases hp : p
  · exact Nat.le_of_lt (hk.rises hp)
  · exact Nat.le_of_eq (hk.stays hp).symm

/-- What is altered by one of two steps is altered by both together. -/
theorem trans (hk : Traced c p h k) (hl : Traced c q k l) : Traced c (p ∨ q) h l where
  has := hl.has
  rises hpq := by
    rcases hpq with hp | hq
    · exact Nat.lt_of_lt_of_le (hk.rises hp) hl.le
    · exact Nat.lt_of_le_of_lt hk.le (hl.rises hq)
  stays hn := (hl.stays fun hq ↦ hn (Or.inr hq)).trans (hk.stays fun hp ↦ hn (Or.inl hp))

end Traced
end Heap

/-- Whether the whole plan is a single piece. -/
def Plan.IsPiece {α : Type} : Plan α → Prop
  | .piece _ => True
  | _ => False

namespace Moment

variable {ctx : Context} {c : Container} {p q : Moment}

/-- The moment is a single step, and it alters the container. -/
def Alters (ctx : Context) (c : Container) (p : Moment) : Prop :=
  p.plan.IsPiece ∧ p.machine.heap.Alters c (p.ending ctx).machine.heap

/-- Somewhere in the run from the moment on the container is altered. -/
def Altered (ctx : Context) (c : Container) (p : Moment) : Prop :=
  ∃ a, Passes ctx p a ∧ a.Alters ctx c

private theorem Enters.not_isPiece (h : Enters ctx p q) : ¬ p.plan.IsPiece := by
  cases h <;> exact not_false

/-- The container is altered by the moment itself or by something that is entered from it. -/
theorem altered_iff :
    p.Altered ctx c ↔ p.Alters ctx c ∨ ∃ q, Enters ctx p q ∧ q.Altered ctx c := by
  constructor
  · rintro ⟨a, hpa, ha⟩
    rcases hpa.cases_head with rfl | ⟨q, hq, hqa⟩
    · exact Or.inl ha
    · exact Or.inr ⟨q, hq, a, hqa, ha⟩
  · rintro (hp | ⟨q, hq, a, hqa, ha⟩)
    · exact ⟨p, Relation.ReflTransGen.refl, hp⟩
    · exact ⟨a, Relation.ReflTransGen.head hq hqa, ha⟩

private theorem traced_piece {α : Type} {x : Exec α} {fuel : Nat} {m : Machine}
    (hx : Piece ctx .all x m) (hc : m.heap.Has c) :
    Heap.Traced c (Altered ctx c ⟨fuel, .piece x, m⟩) m.heap (Ending.machine (x m)).heap := by
  have halters : Altered ctx c ⟨fuel, .piece x, m⟩ ↔
      m.heap.Alters c (Ending.machine (x m)).heap := by
    rw [altered_iff]
    constructor
    · rintro (⟨-, h⟩ | ⟨q, hq, -⟩)
      · exact h
      · cases hq
    · exact fun h ↦ Or.inl ⟨trivial, h⟩
  rcases hx.heap_eq_or_edit with he | he
  · have hn : ¬ m.heap.Alters c (Ending.machine (x m)).heap := by
      intro ha
      have hlt := ha.stamp_lt
      rw [he] at hlt
      exact Nat.lt_irrefl _ hlt
    refine ⟨by rwa [he], fun ha ↦ absurd (halters.mp ha) hn, fun _ ↦ by rw [he]⟩
  · refine ⟨he.has hc, fun ha ↦ (halters.mp ha).stamp_lt, fun ha ↦ ?_⟩
    rcases he.stamp_eq_or_alters hc with hs | hs
    · exact hs
    · exact absurd (halters.mpr hs) ha

private theorem traced_seq {α β : Type} {fuel : Nat} {x : Plan α} {rest : α → Plan β}
    {m : Machine}
    (hfirst : Heap.Traced c (Altered ctx c ⟨fuel, x, m⟩) m.heap
      (ending ctx ⟨fuel, x, m⟩).machine.heap)
    (hnext : ∀ a m₁, x.run ctx fuel m = .ok a m₁ → m₁.heap.Has c →
      Heap.Traced c (Altered ctx c ⟨fuel, rest a, m₁⟩) m₁.heap
        (ending ctx ⟨fuel, rest a, m₁⟩).machine.heap) :
    Heap.Traced c (Altered ctx c ⟨fuel, .bind x rest, m⟩) m.heap
      (ending ctx ⟨fuel, .bind x rest, m⟩).machine.heap := by
  simp only [ending, Plan.run, Bind.bind, EStateM.bind] at hfirst hnext ⊢
  cases hr : x.run ctx fuel m with
  | ok a m₁ =>
    rw [hr] at hfirst
    apply (hfirst.trans (hnext a m₁ hr hfirst.has)).congr
    rw [altered_iff (p := ⟨fuel, .bind x rest, m⟩)]
    constructor
    · rintro (h | h)
      · exact Or.inr ⟨_, .first fuel x rest m, h⟩
      · exact Or.inr ⟨_, .next rest hr, h⟩
    · rintro (⟨hx, -⟩ | ⟨q, hq, h⟩)
      · exact absurd hx not_false
      · cases hq with
        | first => exact Or.inl h
        | next rest done =>
          cases hr.symm.trans done
          exact Or.inr h
  | error stop m₁ =>
    rw [hr] at hfirst
    apply hfirst.congr
    rw [altered_iff (p := ⟨fuel, .bind x rest, m⟩)]
    constructor
    · exact fun h ↦ Or.inr ⟨_, .first fuel x rest m, h⟩
    · rintro (⟨hx, -⟩ | ⟨q, hq, h⟩)
      · exact absurd hx not_false
      · cases hq with
        | first => exact h
        | next rest done => cases hr.symm.trans done

/-- Over a moment the stamp of a container rises exactly if the container is altered. -/
theorem Within.traced (hp : p.Within ctx .all) (hc : p.machine.heap.Has c) :
    Heap.Traced c (p.Altered ctx c) p.machine.heap (p.ending ctx).machine.heap := by
  induction p using Moment.induction ctx with
  | enter p ih =>
  have hwithin {q : Moment} (hq : Enters ctx p q) : q.Within ctx .all :=
    hq.within (Territory.closed_all ctx) hp
  cases shape ctx p with
  | piece fuel x m => exact traced_piece hp hc
  | seq fuel x rest m =>
    apply traced_seq (ih _ (.first fuel x rest m) (hwithin (.first fuel x rest m)) hc)
    intro a m₁ hr hc₁
    exact ih _ (.next rest hr) (hwithin (.next rest hr)) hc₁
  | trial => exact hp.elim
  | still nothing stops =>
    rw [stops]
    apply Heap.Traced.refl hc
    rw [altered_iff]
    rintro (⟨-, ha⟩ | ⟨q, hq, -⟩)
    · rw [stops] at ha
      exact Nat.lt_irrefl _ ha.stamp_lt
    · exact nothing q hq
  | @through _ q enters only found left =>
    rw [left, ← found]
    apply (ih q enters (hwithin enters) (found ▸ hc)).congr
    rw [altered_iff (p := p)]
    constructor
    · exact fun h ↦ Or.inr ⟨q, enters, h⟩
    · rintro (⟨hx, -⟩ | ⟨q', hq, h⟩)
      · exact absurd hx enters.not_isPiece
      · rwa [only q' hq] at h

end Moment

/-- No evaluation makes an array shorter. -/
theorem Task.size_le {ctx : Context} {α : Type} (t : Task α) (fuel : Nat) (m : Machine)
    {r : ArrayRef} (hr : m.heap.Has (.array r)) :
    (m.heap.array r).size ≤ ((Ending.machine (t.run ctx fuel m)).heap.array r).size :=
  (Moment.Within.traced (p := ⟨fuel, .task t, m⟩) t.within_all hr).le

end Scriptlet
