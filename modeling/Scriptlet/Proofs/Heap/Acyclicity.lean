import Mathlib.Data.Finite.Sum
import Scriptlet.Proofs.Locality.Region

/-!
# Heaps without cycles

A heap has no cycle if no container can be reached from what it holds. As a heap has finitely many
containers, going from a container to one that has it inside then comes to an end.
-/

namespace Scriptlet.Heap

variable {h : Heap} {c d e : Container}

/-- No container can be reached from what it holds. -/
def Acyclic (h : Heap) : Prop := ∀ c, ¬ h.Reaches (· ∈ h.held c) c

private theorem Reaches.inside (hd : h.Reaches (· ∈ h.held c) d) (he : h.Reaches (· ∈ h.held d) e) :
    h.Reaches (· ∈ h.held c) e := by
  induction he with
  | root hv names => exact hd.held hv names
  | held _ hv names ih => exact ih.held hv names

/-- A heap has no cycle if its containers can be ranked so that each holds lower ones only. -/
theorem acyclic_of_rank (rank : Container → Nat)
    (hrank : ∀ c, ∀ v ∈ h.held c, ∀ d, v.container? = some d → rank d < rank c) : h.Acyclic := by
  have hlower {c d : Container} (hd : h.Reaches (· ∈ h.held c) d) : rank d < rank c := by
    induction hd with
    | root hv names => exact hrank c _ hv _ names
    | held _ hv names ih => exact Nat.lt_trans (hrank _ _ hv _ names) ih
  intro c hc
  exact Nat.lt_irrefl _ (hlower hc)

/-- The containers of a heap are finitely many. -/
instance (h : Heap) : Finite {c // h.Has c} := by
  let place : {c // h.Has c} → Fin h.arrays.size ⊕ Fin h.dicts.size
    | ⟨.array r, hr⟩ => .inl ⟨r.index, hr⟩
    | ⟨.dict r, hr⟩ => .inr ⟨r.index, hr⟩
  apply Finite.of_injective place
  rintro ⟨⟨⟨i⟩⟩ | ⟨⟨i⟩⟩, hi⟩ ⟨⟨⟨j⟩⟩ | ⟨⟨j⟩⟩, hj⟩ hij
  · obtain rfl : i = j := congrArg Fin.val (Sum.inl.inj hij)
    rfl
  · cases hij
  · cases hij
  · obtain rfl : i = j := congrArg Fin.val (Sum.inr.inj hij)
    rfl

/-- Without cycles, going from a container to one that has it inside comes to an end. -/
theorem Acyclic.wellFounded (hac : h.Acyclic) :
    WellFounded fun c d : {c // h.Has c} ↦ h.Reaches (· ∈ h.held c.1) d.1 := by
  have htrans : IsTrans {c // h.Has c} fun c d ↦ h.Reaches (· ∈ h.held c.1) d.1 :=
    ⟨fun _ _ _ hcd hde ↦ hcd.inside hde⟩
  have hirrefl : Std.Irrefl fun c d : {c // h.Has c} ↦ h.Reaches (· ∈ h.held c.1) d.1 :=
    ⟨fun c hc ↦ hac c.1 hc⟩
  exact Finite.wellFounded_of_trans_of_irrefl _

end Scriptlet.Heap
