import Scriptlet.Proofs.Locality.Linking

/-!
# Growing pairings

What a run does to two linked heaps changes paired containers only, alike on both sides, and pairs
the containers that it makes with one another. All other containers keep exactly
what they hold, on either side.
-/

namespace Scriptlet

namespace Heap

/-- A container holds in one heap exactly what it holds in another one. -/
def Unchanged (h h' : Heap) : Container → Prop
  | .array r => h'.array r = h.array r
  | .dict r => h'.dict r = h.dict r

namespace Unchanged

variable {h h' h'' : Heap} {c : Container}

/-- What is as it was is unchanged. -/
theorem refl (h : Heap) (c : Container) : h.Unchanged h c := by
  cases c <;> rfl

/-- What is unchanged twice is unchanged. -/
theorem trans (hh : h.Unchanged h' c) (hh' : h'.Unchanged h'' c) : h.Unchanged h'' c := by
  cases c <;> exact Eq.trans hh' hh

/-- An unchanged container holds what it held. -/
theorem held_eq (hh : h.Unchanged h' c) : h'.held c = h.held c := by
  cases c with
  | array r => exact congrArg Array.toList hh
  | dict r => exact congrArg Dictionary.values hh

end Unchanged

/-- Every container of a heap is still there in another one, and unchanged unless it is touched. -/
structure Spares (h : Heap) (touched : Container → Prop) (h' : Heap) : Prop where
  has : ∀ {c}, h.Has c → h'.Has c
  same : ∀ {c}, h.Has c → ¬ touched c → h.Unchanged h' c

namespace Spares

variable {h h' h'' : Heap} {touched touched' : Container → Prop}

/-- What is as it was spares everything. -/
theorem refl (h : Heap) : h.Spares touched h where
  has hc := hc
  same {c} _ _ := .refl h c

/-- What is spared twice is spared. -/
theorem trans (hh : h.Spares touched h') (hh' : h'.Spares touched' h'')
    (ht : ∀ c, h.Has c → ¬ touched c → ¬ touched' c) : h.Spares touched h'' where
  has hc := hh'.has (hh.has hc)
  same {c} hc hn := by
    have hfirst := hh.same hc hn
    have hrest := hh'.same (hh.has hc) (ht c hc hn)
    exact hfirst.trans hrest

/-- What touches less spares more. -/
theorem mono (hh : h.Spares touched h') (ht : ∀ c, h.Has c → touched c → touched' c) :
    h.Spares touched' h' where
  has := hh.has
  same hc hn := hh.same hc fun htc ↦ hn (ht _ hc htc)

end Spares

section Operations

variable (h : Heap) {c : Container}

private theorem has_newArray_iff (elements : Array Value) :
    (h.newArray elements).2.Has c ↔ h.Has c ∨ c = .array (h.newArray elements).1 := by
  cases c with
  | array r =>
    obtain ⟨i⟩ := r
    simp only [Has, Heap.newArray, Array.size_push, Container.array.injEq, ArrayRef.mk.injEq]
    exact Nat.lt_succ_iff_lt_or_eq
  | dict r => simp [Has, Heap.newArray]

/-- A heap with a new dictionary has that and what it had. -/
theorem has_newDict_iff (d : Dictionary) :
    (h.newDict d).2.Has c ↔ h.Has c ∨ c = .dict (h.newDict d).1 := by
  cases c with
  | array r => simp [Has, Heap.newDict]
  | dict r =>
    obtain ⟨i⟩ := r
    simp only [Has, Heap.newDict, Array.size_push, Container.dict.injEq, DictRef.mk.injEq]
    exact Nat.lt_succ_iff_lt_or_eq

/-- Changing an array makes nothing. -/
theorem has_modifyArray_iff (r : ArrayRef) (f : Array Value → Array Value) :
    (h.modifyArray r f).Has c ↔ h.Has c := by
  cases c <;> simp [Has, modifyArray]

/-- Changing a dictionary makes nothing. -/
theorem has_modifyDict_iff (r : DictRef) (f : Dictionary → Dictionary) :
    (h.modifyDict r f).Has c ↔ h.Has c := by
  cases c <;> simp [Has, modifyDict]

/-- Making an array touches nothing that was there. -/
theorem spares_newArray (elements : Array Value) :
    h.Spares (· = .array (h.newArray elements).1) (h.newArray elements).2 where
  has hc := hc.newArray elements
  same {c} hc _ := by
    cases c with
    | array r => exact array_newArray_of_has elements hc
    | dict r => rfl

/-- Making a dictionary touches nothing that was there. -/
theorem spares_newDict (d : Dictionary) :
    h.Spares (· = .dict (h.newDict d).1) (h.newDict d).2 where
  has hc := hc.newDict d
  same {c} hc _ := by
    cases c with
    | array r => rfl
    | dict r => exact dict_newDict_of_has d hc

/-- Changing an array changes no other container. -/
theorem unchanged_modifyArray {r : ArrayRef} (f : Array Value → Array Value)
    (hc : c ≠ .array r) : h.Unchanged (h.modifyArray r f) c := by
  cases c with
  | array s => exact array_modifyArray_of_ne h r s f fun he ↦ hc (congrArg Container.array he)
  | dict s => rfl

/-- Changing a dictionary changes no other container. -/
theorem unchanged_modifyDict {r : DictRef} (f : Dictionary → Dictionary)
    (hc : c ≠ .dict r) : h.Unchanged (h.modifyDict r f) c := by
  cases c with
  | array s => rfl
  | dict s => exact dict_modifyDict_of_ne h r s f fun he ↦ hc (congrArg Container.dict he)

private theorem spares_modifyArray (r : ArrayRef) (f : Array Value → Array Value) :
    h.Spares (· = .array r) (h.modifyArray r f) where
  has hc := hc.modifyArray r f
  same _ hn := h.unchanged_modifyArray f hn

private theorem spares_modifyDict (r : DictRef) (f : Dictionary → Dictionary) :
    h.Spares (· = .dict r) (h.modifyDict r f) where
  has hc := hc.modifyDict r f
  same _ hn := h.unchanged_modifyDict f hn

end Operations

/-- Two containers are of one kind and hold what is alike, at the same places. -/
def HoldsAlike (π : Pairing) (h k : Heap) : Container → Container → Prop
  | .array r, .array s => Alike π (h.array r).toList (k.array s).toList
  | .dict r, .dict s => Alike π (h.dict r) (k.dict s)
  | _, _ => False

private theorem HoldsAlike.mono {π π' : Pairing} {h k : Heap} {c d : Container}
    (hcd : HoldsAlike π h k c d) (hle : π ≤ π') : HoldsAlike π' h k c d := by
  cases c <;> cases d
  · exact Pairable.Alike.mono hcd hle
  · exact hcd
  · exact hcd
  · exact Pairable.Alike.mono hcd hle

/-- Containers that do not change go on holding what is alike. -/
theorem HoldsAlike.of_unchanged {π : Pairing} {h h' k k' : Heap} {c d : Container}
    (hcd : HoldsAlike π h k c d) (hc : h.Unchanged h' c) (hd : k.Unchanged k' d) :
    HoldsAlike π h' k' c d := by
  cases c <;> cases d
  · simp only [HoldsAlike, show h'.array _ = h.array _ from hc, show k'.array _ = k.array _ from hd]
    exact hcd
  · exact hcd
  · exact hcd
  · simp only [HoldsAlike, show h'.dict _ = h.dict _ from hc, show k'.dict _ = k.dict _ from hd]
    exact hcd

/-- Two heaps are linked along a pairing of some of their containers. -/
structure Linked (π : Pairing) (h k : Heap) : Prop where
  left_unique : ∀ {c c' d}, π c d → π c' d → c' = c
  right_unique : ∀ {c d d'}, π c d → π c d' → d' = d
  has_left : ∀ {c d}, π c d → h.Has c
  has_right : ∀ {c d}, π c d → k.Has d
  alike : ∀ {c d}, π c d → HoldsAlike π h k c d

namespace Linked

variable {π : Pairing} {h k : Heap}

/-- Paired arrays hold alike elements. -/
theorem array (hl : Heap.Linked π h k) {r s : ArrayRef} (hp : π (.array r) (.array s)) :
    Alike π (h.array r).toList (k.array s).toList := hl.alike hp

/-- Paired dictionaries are alike. -/
theorem dict (hl : Heap.Linked π h k) {r s : DictRef} (hp : π (.dict r) (.dict s)) :
    Alike π (h.dict r) (k.dict s) := hl.alike hp

end Linked
end Heap

/-- The pairing with one more pair. -/
def Pairing.add (π : Pairing) (c d : Container) : Pairing := fun a b ↦ π a b ∨ a = c ∧ b = d

private theorem Pairing.le_add (π : Pairing) (c d : Container) : π ≤ π.add c d := fun _ _ ↦ Or.inl

/-- What becomes of two heaps and a pairing: new pairs are of containers that are new on both
sides, what is new is paired, and whatever was not paired is left alone. -/
structure Grown (π : Pairing) (h k : Heap) (π' : Pairing) (h' k' : Heap) : Prop where
  le : π ≤ π'
  fresh : ∀ {c d}, π' c d → π c d ∨ ¬ h.Has c ∧ ¬ k.Has d
  made : ∀ {c}, h'.Has c → h.Has c ∨ ∃ d, π' c d
  left : h.Spares (fun c ↦ ∃ d, π c d) h'
  right : k.Spares (fun d ↦ ∃ c, π c d) k'

namespace Grown

variable {π π' π'' : Pairing} {h h' h'' k k' k'' : Heap}

/-- Nothing has to happen. -/
theorem refl (π : Pairing) (h k : Heap) : Grown π h k π h k where
  le := le_refl π
  fresh := Or.inl
  made := Or.inl
  left := .refl h
  right := .refl k

/-- One thing may happen after another. -/
theorem trans (hg : Grown π h k π' h' k') (hg' : Grown π' h' k' π'' h'' k'') :
    Grown π h k π'' h'' k'' where
  le := hg.le.trans hg'.le
  fresh {c d} hp := by
    rcases hg'.fresh hp with hp | ⟨hc, hd⟩
    · exact hg.fresh hp
    · exact Or.inr ⟨fun hh ↦ hc (hg.left.has hh), fun hk ↦ hd (hg.right.has hk)⟩
  made {c} hc := by
    rcases hg'.made hc with hc | hd
    · exact (hg.made hc).imp_right fun ⟨d, hp⟩ ↦ ⟨d, hg'.le _ _ hp⟩
    · exact Or.inr hd
  left := hg.left.trans hg'.left fun c hc hn ⟨d, hp⟩ ↦ by
    rcases hg.fresh hp with hp | ⟨hc', -⟩
    · exact hn ⟨d, hp⟩
    · exact hc' hc
  right := hg.right.trans hg'.right fun d hd hn ⟨c, hp⟩ ↦ by
    rcases hg.fresh hp with hp | ⟨-, hd'⟩
    · exact hn ⟨c, hp⟩
    · exact hd' hd

end Grown

namespace Heap.Linked

variable {π : Pairing} {h h' k k' : Heap} {c d : Container}

private theorem change (hl : Heap.Linked π h k) (hcd : π c d ∨ ¬ h.Has c ∧ ¬ k.Has d)
    (left : h.Spares (· = c) h') (right : k.Spares (· = d) k') (hc : h'.Has c) (hd : k'.Has d)
    (made : ∀ a, h'.Has a → h.Has a ∨ a = c)
    (alike : HoldsAlike (π.add c d) h' k' c d) :
    Grown π h k (π.add c d) h' k' ∧ Heap.Linked (π.add c d) h' k' := by
  have hleft {b : Container} (hp : π c b) : b = d := by
    rcases hcd with hp' | ⟨hn, -⟩
    · exact hl.right_unique hp' hp
    · exact absurd (hl.has_left hp) hn
  have hright {a : Container} (hp : π a d) : a = c := by
    rcases hcd with hp' | ⟨-, hn⟩
    · exact hl.left_unique hp' hp
    · exact absurd (hl.has_right hp) hn
  constructor
  · constructor
    · exact π.le_add c d
    · rintro a b (hp | ⟨rfl, rfl⟩)
      · exact Or.inl hp
      · exact hcd
    · intro a ha
      exact (made a ha).imp_right fun heq ↦ ⟨d, Or.inr ⟨heq, rfl⟩⟩
    · apply left.mono
      rintro _ ha rfl
      rcases hcd with hp | ⟨hn, -⟩
      · exact ⟨d, hp⟩
      · exact absurd ha hn
    · apply right.mono
      rintro _ hb rfl
      rcases hcd with hp | ⟨-, hn⟩
      · exact ⟨c, hp⟩
      · exact absurd hb hn
  · constructor
    · rintro a a' b (hp | ⟨ha, hb⟩) (hp' | ⟨ha', hb'⟩)
      · exact hl.left_unique hp hp'
      · exact ha'.trans (hright (hb' ▸ hp)).symm
      · exact (hright (hb ▸ hp')).trans ha.symm
      · exact ha'.trans ha.symm
    · rintro a b b' (hp | ⟨ha, hb⟩) (hp' | ⟨ha', hb'⟩)
      · exact hl.right_unique hp hp'
      · exact hb'.trans (hleft (ha' ▸ hp)).symm
      · exact (hleft (ha ▸ hp')).trans hb.symm
      · exact hb'.trans hb.symm
    · rintro a b (hp | ⟨rfl, rfl⟩)
      · exact left.has (hl.has_left hp)
      · exact hc
    · rintro a b (hp | ⟨rfl, rfl⟩)
      · exact right.has (hl.has_right hp)
      · exact hd
    · rintro a b (hp | ⟨rfl, rfl⟩)
      · by_cases ha : a = c
        · subst ha
          cases hleft hp
          exact alike
        · have hb : b ≠ d := fun hb ↦ ha (hright (hb ▸ hp))
          exact ((hl.alike hp).mono (π.le_add c d)).of_unchanged (left.same (hl.has_left hp) ha)
            (right.same (hl.has_right hp) hb)
      · exact alike

/-- Arrays with alike elements may be made. -/
theorem newArray (hl : Heap.Linked π h k) {vs ws : List Value} (hv : Alike π vs ws) :
    let c := Container.array (h.newArray vs.toArray).1
    let d := Container.array (k.newArray ws.toArray).1
    Grown π h k (π.add c d) (h.newArray vs.toArray).2 (k.newArray ws.toArray).2 ∧
      Heap.Linked (π.add c d) (h.newArray vs.toArray).2 (k.newArray ws.toArray).2 := by
  intro c d
  refine hl.change (Or.inr ⟨Nat.lt_irrefl _, Nat.lt_irrefl _⟩) (spares_newArray h _)
    (spares_newArray k _) ((has_newArray_iff h _).mpr (Or.inr rfl))
    ((has_newArray_iff k _).mpr (Or.inr rfl)) (fun _ ↦ (has_newArray_iff h _).mp) ?_
  simp only [c, d, HoldsAlike, array_newArray]
  exact hv.mono (π.le_add _ _)

/-- Dictionaries that are alike may be made. -/
theorem newDict (hl : Heap.Linked π h k) {x y : Dictionary} (hxy : Alike π x y) :
    let c := Container.dict (h.newDict x).1
    let d := Container.dict (k.newDict y).1
    Grown π h k (π.add c d) (h.newDict x).2 (k.newDict y).2 ∧
      Heap.Linked (π.add c d) (h.newDict x).2 (k.newDict y).2 := by
  intro c d
  refine hl.change (Or.inr ⟨Nat.lt_irrefl _, Nat.lt_irrefl _⟩) (spares_newDict h _)
    (spares_newDict k _) ((has_newDict_iff h _).mpr (Or.inr rfl))
    ((has_newDict_iff k _).mpr (Or.inr rfl)) (fun _ ↦ (has_newDict_iff h _).mp) ?_
  simp only [c, d, HoldsAlike, dict_newDict]
  exact hxy.mono (π.le_add _ _)

private theorem add_of_paired (hp : π c d) : π.add c d = π := by
  funext a b
  apply propext
  constructor
  · rintro (hab | ⟨rfl, rfl⟩)
    · exact hab
    · exact hp
  · exact Or.inl

/-- Paired arrays may be changed alike. -/
theorem modifyArray (hl : Heap.Linked π h k) {r s : ArrayRef} (hp : π (.array r) (.array s))
    {f g : Array Value → Array Value}
    (hfg : Alike π (f (h.array r)).toList (g (k.array s)).toList) :
    Grown π h k π (h.modifyArray r f) (k.modifyArray s g) ∧
      Heap.Linked π (h.modifyArray r f) (k.modifyArray s g) := by
  have hr := hl.has_left hp
  have hs := hl.has_right hp
  have hchange := hl.change (Or.inl hp) (spares_modifyArray h r f) (spares_modifyArray k s g)
    (hr.modifyArray r f) (hs.modifyArray s g) fun _ ha ↦ Or.inl ((has_modifyArray_iff h r f).mp ha)
  rw [add_of_paired hp] at hchange
  apply hchange
  rw [HoldsAlike, array_modifyArray_self h r f hr, array_modifyArray_self k s g hs]
  exact hfg

/-- Paired dictionaries may be changed alike. -/
theorem modifyDict (hl : Heap.Linked π h k) {r s : DictRef} (hp : π (.dict r) (.dict s))
    {f g : Dictionary → Dictionary}
    (hfg : Alike π (f (h.dict r)) (g (k.dict s))) :
    Grown π h k π (h.modifyDict r f) (k.modifyDict s g) ∧
      Heap.Linked π (h.modifyDict r f) (k.modifyDict s g) := by
  have hr := hl.has_left hp
  have hs := hl.has_right hp
  have hchange := hl.change (Or.inl hp) (spares_modifyDict h r f) (spares_modifyDict k s g)
    (hr.modifyDict r f) (hs.modifyDict s g) fun _ ha ↦ Or.inl ((has_modifyDict_iff h r f).mp ha)
  rw [add_of_paired hp] at hchange
  apply hchange
  rw [HoldsAlike, dict_modifyDict_self h r f hr, dict_modifyDict_self k s g hs]
  exact hfg

end Heap.Linked
end Scriptlet
