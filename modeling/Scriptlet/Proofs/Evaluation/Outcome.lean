import Scriptlet.Proofs.Evaluation.Ending

/-!
# What plans come to

Given enough fuel, a plan that does not go on for ever comes to an end: to a result or to an error,
and to a machine. More fuel does not change the end, so there is only one, and the end of a sequence
is found from the ends of its parts. Two plans are compared by how they end, or by what they come
to: of an error that is its kind only.
-/

namespace Scriptlet

variable [Host]

/-- A result, or the kind of an error. -/
abbrev Verdict (α : Type) := Except ErrorKind α

namespace Exec.Ending

variable {α β : Type}

/-- What a run has come to, unless it ran out of fuel. The place of an error is left out. -/
def verdict? : Ending α → Option (Verdict α × Machine)
  | .ok a m => some (.ok a, m)
  | .error (.error e) m => some (.error e.kind, m)
  | .error .outOfFuel _ => none

private theorem finished_of_verdict? {r : Ending α} {v : Verdict α} {m : Machine}
    (h : verdict? r = some (v, m)) : Finished r := by
  cases r with
  | ok a m₁ => exact trivial
  | error stop m₁ =>
    rintro rfl
    cases h

end Exec.Ending

open Exec Plan

namespace Plan

variable {α β : Type} {ctx : Context} {m m' m'' : Machine}

/-- With enough fuel the plan ends in this way: with this result or error, with all that the
error says, and with this machine. -/
def Ends (ctx : Context) (p : Plan α) (m : Machine) (r : Ending α) : Prop :=
  Ending.Finished r ∧ ∃ fuel, p.run ctx fuel m = r

/-- With enough fuel the plan comes to `v` and leaves the machine `m'`. -/
def ComesTo (ctx : Context) (p : Plan α) (m : Machine) (v : Verdict α) (m' : Machine) : Prop :=
  ∃ fuel, Ending.verdict? (p.run ctx fuel m) = some (v, m')

section Endings

variable {p : Plan α} {rest : α → Plan β} {r r' : Ending α} {s : Ending β} {m₁ : Machine}

/-- A plan ends in one way only. -/
theorem Ends.unique (h : p.Ends ctx m r) (h' : p.Ends ctx m r') : r = r' := by
  obtain ⟨hr, n, rfl⟩ := h
  obtain ⟨hr', k, rfl⟩ := h'
  rw [← p.run_of_le (Nat.le_max_left n k) hr, ← p.run_of_le (Nat.le_max_right n k) hr']

/-- A piece ends as it is carried out. -/
theorem ends_piece {x : Exec α} : (piece x).Ends ctx m r ↔ Ending.Finished r ∧ x m = r :=
  and_congr_right fun _ ↦ ⟨fun ⟨_, h⟩ ↦ h, fun h ↦ ⟨0, h⟩⟩

/-- A task ends as its plan does. -/
theorem ends_task {t : Task α} : (task t).Ends ctx m r ↔ (t.plan ctx).Ends ctx m r := by
  refine and_congr_right fun hr ↦ ⟨?_, ?_⟩
  · rintro ⟨fuel, h⟩
    cases fuel with
    | zero =>
      rw [run, t.run_zero] at h
      exact absurd rfl (h ▸ hr)
    | succ fuel =>
      rw [run, t.run_succ] at h
      exact ⟨fuel, h⟩
  · rintro ⟨fuel, h⟩
    refine ⟨fuel + 1, ?_⟩
    rw [run, t.run_succ]
    exact h

/-- A sequence ends with the error of its first part, or as the rest ends on its result. -/
theorem ends_bind :
    (p >>= rest).Ends ctx m s ↔
      (∃ stop m₁, p.Ends ctx m (.error stop m₁) ∧ s = .error stop m₁) ∨
        ∃ a m₁, p.Ends ctx m (.ok a m₁) ∧ (rest a).Ends ctx m₁ s := by
  constructor
  · rintro ⟨hs, fuel, h⟩
    cases hp : p.run ctx fuel m with
    | ok a m₁ =>
      rw [run_bind_of_ok hp] at h
      exact Or.inr ⟨a, m₁, ⟨trivial, fuel, hp⟩, hs, fuel, h⟩
    | error stop m₁ =>
      rw [run_bind_of_error hp] at h
      subst h
      exact Or.inl ⟨stop, m₁, ⟨hs, fuel, hp⟩, rfl⟩
  · rintro (⟨stop, m₁, ⟨hstop, fuel, h⟩, rfl⟩ | ⟨a, m₁, ⟨ha, n, hn⟩, hs, k, hk⟩)
    · exact ⟨hstop, fuel, run_bind_of_error h⟩
    · refine ⟨hs, max n k, ?_⟩
      have hp := (p.run_of_le (Nat.le_max_left n k) (hn ▸ ha)).trans hn
      have hrest := ((rest a).run_of_le (Nat.le_max_right n k) (hk ▸ hs)).trans hk
      rw [run_bind_of_ok hp, hrest]

/-- Behind a result, a sequence ends as its second part does. -/
theorem Ends.bind_iff {a : α} (h : p.Ends ctx m (.ok a m₁)) :
    (p >>= rest).Ends ctx m s ↔ (rest a).Ends ctx m₁ s := by
  rw [ends_bind]
  constructor
  · rintro (⟨stop, m₂, h', -⟩ | ⟨b, m₂, h', hrest⟩)
    · cases h.unique h'
    · cases h.unique h'
      exact hrest
  · exact fun hrest ↦ Or.inr ⟨a, m₁, h, hrest⟩

/-- A sequence ends in the error of its first part. -/
theorem Ends.bind_error {stop : Stop} (h : p.Ends ctx m (.error stop m₁)) :
    (p >>= rest).Ends ctx m (.error stop m₁) :=
  ends_bind.mpr (Or.inl ⟨stop, m₁, h, rfl⟩)

/-- A sequence that begins with a task. -/
theorem ends_task_bind {t : Task α} :
    (task t >>= rest).Ends ctx m s ↔ (t.plan ctx >>= rest).Ends ctx m s := by
  simp only [ends_bind, ends_task]

/-- How a sequence is put together does not matter to its end. -/
theorem ends_bind_assoc {γ : Type} {last : β → Plan γ} {s : Ending γ} :
    ((p >>= rest) >>= last).Ends ctx m s ↔ (p >>= fun a ↦ rest a >>= last).Ends ctx m s := by
  have hrun (fuel : Nat) : ((p >>= rest) >>= last).run ctx fuel =
      (p >>= fun a ↦ rest a >>= last).run ctx fuel := by
    simp only [run_bind, bind_assoc]
  simp only [Ends, hrun]

end Endings

/-- What a plan comes to is what its end comes to. -/
theorem comesTo_iff {p : Plan α} {v : Verdict α} :
    p.ComesTo ctx m v m' ↔ ∃ r, p.Ends ctx m r ∧ Ending.verdict? r = some (v, m') := by
  constructor
  · rintro ⟨fuel, h⟩
    exact ⟨_, ⟨Ending.finished_of_verdict? h, fuel, rfl⟩, h⟩
  · rintro ⟨_, ⟨-, fuel, rfl⟩, h⟩
    exact ⟨fuel, h⟩

/-- A plan comes to one end only. -/
theorem ComesTo.unique {p : Plan α} {v v' : Verdict α} (h : p.ComesTo ctx m v m')
    (h' : p.ComesTo ctx m v' m'') : v = v' ∧ m' = m'' := by
  obtain ⟨r, hr, hv⟩ := comesTo_iff.mp h
  obtain ⟨r', hr', hv'⟩ := comesTo_iff.mp h'
  rw [hr.unique hr', hv'] at hv
  cases hv
  exact ⟨rfl, rfl⟩

section Sequences

variable {p : Plan α} {rest rest' : α → Plan β} {v : Verdict β} {m₁ : Machine}

end Sequences

section Pieces

variable {v : Verdict α} {l : Location} {cause : Cause}

variable {rest : α → Plan β} {v : Verdict β}

end Pieces

end Plan
end Scriptlet
