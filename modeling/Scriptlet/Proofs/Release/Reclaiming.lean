import Scriptlet.Proofs.Heap.Acyclicity
import Scriptlet.Proofs.Release.Step

/-!
# What a release empties

What the roots reach never loses its last handle during a release, and stays as it was. What they do
not reach is emptied by the end, if no containers hold one another in a cycle: a container that is
left has a handle inside another one that is left, and so on without end.
-/

namespace Scriptlet.Release

variable {h : Heap} {s : Release} {v : Value} {roots : List Value} {c : Container}

/-- A release is under way that started with a heap: the census is right, and what the roots
reached at the start is as it was. -/
structure Underway (h : Heap) (roots : List Value) (s : Release) : Prop where
  accounted : s.Accounted roots
  has : ∀ c, s.heap.Has c ↔ h.Has c
  spared : ∀ c, h.Reaches (· ∈ roots) c → h.Unchanged s.heap c

private theorem Underway.not_givesLast (hs : s.Underway h roots) (hc : h.Reaches (· ∈ roots) c) :
    ¬ s.GivesLast roots c := by
  intro hl
  obtain ⟨hroots, -, hstored⟩ := hl.notMem
  cases hc with
  | @root v _ hv names =>
    obtain rfl := (v.container?_eq_some_iff c).mp names
    exact hroots hv
  | @held d _ v reached hv names =>
    obtain rfl := (v.container?_eq_some_iff c).mp names
    apply hstored
    apply Heap.mem_stored_of_mem_held
    rw [(hs.spared d reached).held_eq]
    exact hv

/-- A release that starts is under way. -/
theorem underway_start (h : Heap) (roots pending : List Value) :
    (start h roots pending).Underway h roots where
  accounted := accounted_start h roots pending
  has _ := Iff.rfl
  spared c _ := .refl h c

/-- It stays under way. -/
theorem Underway.step (hs : s.Underway h roots) : s.step.Underway h roots where
  accounted := hs.accounted.step
  has c := by
    cases hp : s.pending with
    | nil =>
      rw [step_of_pending_eq_nil s hp]
      exact hs.has c
    | cons v rest => exact (turn_step hp).has_heap_iff.trans (hs.has c)
  spared c hc := (hs.spared c hc).trans (hs.accounted.unchanged_step (hs.not_givesLast hc))

/-- How a container stands during a release: as long as there is a handle to it, it is as it was;
after that it is spent. -/
inductive Fate (h : Heap) (roots : List Value) (c : Container) (s : Release) : Prop where
  | kept (same : h.Unchanged s.heap c) (used : c.handle ∈ s.values roots)
  | spent (emptied : h.Spent s.heap c) (unused : c.handle ∉ s.values roots)

/-- Each step leaves a container to its fate. -/
theorem Fate.step (hc : h.Has c) (hs : s.Underway h roots) (hf : Fate h roots c s) :
    Fate h roots c s.step := by
  cases hf with
  | kept same used =>
    by_cases hleft : c.handle ∈ s.step.values roots
    · have hn : ¬ s.GivesLast roots c := fun hl ↦ hl.notMem_step hleft
      exact .kept (same.trans (hs.accounted.unchanged_step hn)) hleft
    · have hl := givesLast_of_notMem_step used hleft
      have hhas := (hs.has c).mpr hc
      refine .spent ?_ hleft
      rw [hs.accounted.heap_step_of_givesLast hhas hl]
      exact same.spent_emptied hhas
  | spent emptied unused =>
    have hn : ¬ s.GivesLast roots c := fun hl ↦ unused hl.mem_values
    exact .spent (emptied.trans (hs.accounted.unchanged_step hn)) fun hc ↦
      unused (mem_values_of_mem_step hc)

private theorem mem_values_start (h : Heap) (roots pending : List Value)
    (hc : h.Reaches (· ∈ roots ++ pending) c) :
    c.handle ∈ (start h roots pending).values roots := by
  simp only [values, start, List.mem_append, List.mem_reverse]
  cases hc with
  | @root v _ hv names =>
    obtain rfl := (v.container?_eq_some_iff c).mp names
    exact Or.inl (List.mem_append.mp hv)
  | @held d _ v reached hv names =>
    obtain rfl := (v.container?_eq_some_iff c).mp names
    exact Or.inr (Heap.mem_stored_of_mem_held hv)

private theorem spent_of_not_reaches (hac : h.Acyclic) (hf : ∀ c, h.Has c → Fate h roots c s)
    (hs : s.Underway h roots) (hend : s.pending = []) (hc : h.Has c)
    (hn : ¬ h.Reaches (· ∈ roots) c) : h.Spent s.heap c := by
  -- By induction from a container to those that have it inside.
  induction hx : (⟨c, hc⟩ : {c // h.Has c}) using hac.wellFounded.induction generalizing c with
  | _ x ih =>
    subst hx
    cases hf c hc with
    | spent emptied unused => exact emptied
    | kept same used =>
      exfalso
      rw [values, hend, List.append_nil] at used
      rcases List.mem_append.mp used with hroot | hstored
      · exact hn (.root hroot c.container?_handle)
      · obtain ⟨d, hd, hheld⟩ := Heap.exists_mem_held_of_mem_stored hstored
        have hdh : h.Has d := (hs.has d).mp hd
        -- The container that holds the handle holds it since the start.
        have hsince : c.handle ∈ h.held d := by
          cases hf d hdh with
          | kept same used =>
            rw [← same.held_eq]
            exact hheld
          | spent emptied unused =>
            rw [emptied.held_eq] at hheld
            cases hheld
        have hnd : ¬ h.Reaches (· ∈ roots) d := fun hd ↦
          hn (hd.held hsince c.container?_handle)
        have hspent := ih ⟨d, hdh⟩ (.root hsince c.container?_handle) hdh hnd rfl
        rw [hspent.held_eq] at hheld
        cases hheld

/-- A release comes to an end, with nothing pending. On the way a container is emptied only when the
value given up is the only handle to it in the roots, in the list and inside containers, which the
census counts. So everything that the roots reach is as it was. And if no containers hold one
another in a cycle, and all can be reached from the roots or from the list, then everything that the
roots do not reach has been emptied. -/
theorem run_empties_unused (h : Heap) (roots pending : List Value) :
    let s := start h roots pending
    s.run.pending = [] ∧
      (∀ n, (s.steps n).Accounted roots ∧
        ((s.steps (n + 1)).heap = (s.steps n).heap ∨
          ∃ c, (s.steps n).GivesLast roots c ∧
            (s.steps (n + 1)).heap = (s.steps n).heap.emptied c)) ∧
      (∀ c, h.Reaches (· ∈ roots) c → h.Unchanged s.run.heap c) ∧
      (h.Acyclic → (∀ c, h.Has c → h.Reaches (· ∈ roots ++ pending) c) →
        ∀ c, h.Has c → ¬ h.Reaches (· ∈ roots) c → h.Spent s.run.heap c) := by
  intro s
  have hway (n : Nat) : (s.steps n).Underway h roots :=
    steps_induction (fun _ hs ↦ hs.step) n (underway_start h roots pending)
  have hend : s.run.pending = [] := pending_steps s.duration (Nat.le_refl _)
  refine ⟨hend, fun n ↦ ⟨(hway n).accounted, ?_⟩, (hway _).spared, ?_⟩
  · rw [steps_succ]
    exact (hway n).accounted.heap_step
  · intro hac hreach c hc hn
    have hfates (d : Container) (hd : h.Has d) : Fate h roots d s.run := by
      have hboth : s.run.Underway h roots ∧ Fate h roots d s.run := by
        apply steps_induction (P := fun t ↦ t.Underway h roots ∧ Fate h roots d t)
        · exact fun t ht ↦ ⟨ht.1.step, ht.2.step hd ht.1⟩
        · exact ⟨hway 0, .kept (.refl h d) (mem_values_start h roots pending (hreach d hd))⟩
      exact hboth.2
    exact spent_of_not_reaches hac hfates (hway _) hend hc hn

/-- Two handles to an array are inside another array, which also holds a dictionary; both arrays are
given up, and the dictionary is kept. -/
theorem run_empties_unused_shared :
    let h : Heap :=
      { arrays := #[#[.array ⟨1⟩, .dict ⟨0⟩, .array ⟨1⟩], #[.int 7]], dicts := #[{}] }
    let roots : List Value := [.dict ⟨0⟩]
    let pending : List Value := [.array ⟨0⟩, .array ⟨1⟩]
    h.Acyclic ∧ (∀ c, h.Has c → h.Reaches (· ∈ roots ++ pending) c) ∧ h.Has (.array ⟨1⟩) ∧
      ¬ h.Reaches (· ∈ roots) (.array ⟨1⟩) ∧
      h.Spent (start h roots pending).run.heap (.array ⟨1⟩) := by
  intro h roots pending
  have hheld (c : Container) (v : Value) (hv : v ∈ h.held c) (d : Container)
      (names : v.container? = some d) : c = .array ⟨0⟩ ∧ d ≠ .array ⟨0⟩ := by
    rcases c with ⟨⟨_ | _ | i⟩⟩ | ⟨⟨_ | i⟩⟩
    · refine ⟨rfl, ?_⟩
      rintro rfl
      obtain rfl := (v.container?_eq_some_iff _).mp names
      exact absurd hv (by decide)
    · obtain rfl := List.mem_singleton.mp hv
      cases names
    · simp [h, Heap.held, Heap.array, Array.getD] at hv
    · cases hv
    · simp [h, Heap.held, Heap.dict, Array.getD, Dictionary.values] at hv
  have hac : h.Acyclic := by
    apply Heap.acyclic_of_rank fun c ↦ if c = .array ⟨0⟩ then 1 else 0
    intro c v hv d names
    obtain ⟨rfl, hd⟩ := hheld c v hv d names
    simp [hd]
  have hreach (c : Container) (hc : h.Has c) : h.Reaches (· ∈ roots ++ pending) c := by
    have hmem : c.handle ∈ roots ++ pending := by
      rcases c with ⟨⟨_ | _ | i⟩⟩ | ⟨⟨_ | i⟩⟩
      · decide
      · decide
      · exact absurd hc (Nat.not_lt.mpr (Nat.le_add_left 2 i))
      · decide
      · exact absurd hc (Nat.not_lt.mpr (Nat.le_add_left 1 i))
    exact .root hmem c.container?_handle
  have hn : ¬ h.Reaches (· ∈ roots) (.array ⟨1⟩) := by
    have honly {c : Container} (hc : h.Reaches (· ∈ roots) c) : c = .dict ⟨0⟩ := by
      induction hc with
      | root hv names =>
        obtain rfl := List.mem_singleton.mp hv
        exact (Option.some.inj names).symm
      | held _ hv names ih =>
        obtain ⟨hfirst, -⟩ := hheld _ _ hv _ names
        rw [ih] at hfirst
        cases hfirst
    exact fun hc ↦ absurd (honly hc) (by decide)
  have hhas : h.Has (.array ⟨1⟩) := Nat.lt_succ_self 1
  exact ⟨hac, hreach, hhas, hn, (run_empties_unused h roots pending).2.2.2 hac hreach _ hhas hn⟩

end Scriptlet.Release
