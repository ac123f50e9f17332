import Scriptlet.Proofs.Assignment.Indexed
import Scriptlet.Proofs.Dictionary.Listing
import Scriptlet.Proofs.Evaluation.Outcome

/-!
# Dictionary literals

The entries of a dictionary literal are evaluated one after the other, the key of each before its
value, and a key is checked as soon as it has been evaluated. Nothing is evaluated after a part that
stops or a key that is refused. If every part has a value, a new dictionary is made that lists the
pairs of keys and values.
-/

namespace Scriptlet

open Exec Plan

namespace Plan

variable (ctx : Context) (fuel : Nat) (l : Location)

private theorem run_lift_dictKey_toValue (k : Key) (m : Machine) :
    (piece (lift l (dictKey k.toValue))).run ctx fuel m = .ok k m := by
  rw [(Heap.dictKey_eq_ok_iff _ _).mpr rfl]
  rfl

private theorem ends_lift_dictKey_toValue (k : Key) (m : Machine) :
    (piece (lift l (dictKey k.toValue))).Ends ctx m (.ok k m) :=
  ⟨trivial, 0, run_lift_dictKey_toValue ctx 0 l k m⟩

private theorem run_lift_dictKey_of_type {v : Value} (type : v.type ≠ .int ∧ v.type ≠ .string)
    (m : Machine) :
    (piece (lift l (dictKey v))).run ctx fuel m =
      .error (.error { cause := .keyType v.type, location := l }) m := by
  cases v with
  | int n => exact absurd rfl type.1
  | str s => exact absurd rfl type.2
  | _ => rfl

end Plan

namespace Expr

section Judgements

-- How an expression turns out on a machine is told by `eval`.
variable (eval : Expr → Machine → Ending Value → Prop) (l : Location)

/-- How an entry of a literal at `l` turns out on a machine, and which expressions are evaluated for
it, in order, each with the machine that it finds. -/
inductive Pairs (key value : Expr) (m : Machine) :
    List (Expr × Machine) → Ending (Key × Value) → Prop where
  /-- The key stops. -/
  | key {stop : Stop} {m₁ : Machine} (hk : eval key m (.error stop m₁)) :
      Pairs key value m [(key, m)] (.error stop m₁)
  /-- The key is neither an integer nor a string. -/
  | refused {k : Value} {cause : Cause} {m₁ : Machine} (hk : eval key m (.ok k m₁))
      (type : k.type ≠ .int ∧ k.type ≠ .string) (why : cause = .keyType k.type)
      (kind : cause.kind = .typeMismatch) :
      Pairs key value m [(key, m)]
        (.error (.error { cause, location := if key.isPresent then key.location else l }) m₁)
  /-- The value stops. -/
  | value {k : Key} {stop : Stop} {m₁ m₂ : Machine} (hk : eval key m (.ok k.toValue m₁))
      (hv : eval value m₁ (.error stop m₂)) :
      Pairs key value m [(key, m), (value, m₁)] (.error stop m₂)
  | made {k : Key} {v : Value} {m₁ m₂ : Machine} (hk : eval key m (.ok k.toValue m₁))
      (hv : eval value m₁ (.ok v m₂)) : Pairs key value m [(key, m), (value, m₁)] (.ok (k, v) m₂)

/-- How the entries of a literal at `l` turn out, one after the other, and which expressions are
evaluated for them, in order, each with the machine that it finds. -/
inductive Collects :
    List (Expr × Expr) → Machine → List (Expr × Machine) → Ending EntryList → Prop where
  | nil (m : Machine) : Collects [] m [] (.ok [] m)
  /-- An entry fails, so those after it are not evaluated. -/
  | stops {key value : Expr} {entries : List (Expr × Expr)} {m m₁ : Machine}
      {seen : List (Expr × Machine)} {stop : Stop}
      (first : Pairs eval l key value m seen (.error stop m₁)) :
      Collects ((key, value) :: entries) m seen (.error stop m₁)
  | later {key value : Expr} {entries : List (Expr × Expr)} {m m₁ m₂ : Machine}
      {seen seen' : List (Expr × Machine)} {pair : Key × Value} {stop : Stop}
      (first : Pairs eval l key value m seen (.ok pair m₁))
      (rest : Collects entries m₁ seen' (.error stop m₂)) :
      Collects ((key, value) :: entries) m (seen ++ seen') (.error stop m₂)
  | next {key value : Expr} {entries : List (Expr × Expr)} {m m₁ m₂ : Machine}
      {seen seen' : List (Expr × Machine)} {pair : Key × Value} {pairs : EntryList}
      (first : Pairs eval l key value m seen (.ok pair m₁))
      (rest : Collects entries m₁ seen' (.ok pairs m₂)) :
      Collects ((key, value) :: entries) m (seen ++ seen') (.ok (pair :: pairs) m₂)

end Judgements

/-- What a literal comes to whose entries turn out like this: it stops where they do, or makes a new
dictionary of the pairs and does nothing else. -/
inductive Literal : Ending EntryList → Ending Value → Prop where
  | stopped (stop : Stop) (m : Machine) : Literal (.error stop m) (.error stop m)
  | made {pairs : EntryList} {m : Machine} {r : DictRef} {h : Heap}
      (makes : m.heap.Makes pairs r h) : Literal (.ok pairs m) (.ok (.dict r) { m with heap := h })

variable {ctx : Context} {fuel : Nat} {scope : ScopeId} {l : Location} {m : Machine}

section Runs

variable (ctx fuel scope l)

end Runs

/-- An entry ends as its parts do. -/
theorem Pairs.ends {key value : Expr} {seen : List (Expr × Machine)} {r : Ending (Key × Value)}
    (h : Pairs (fun e m r ↦ (eval scope e).Ends ctx m r) l key value m seen r) :
    (Plan.entry scope l (key, value)).Ends ctx m r := by
  rw [Plan.entry]
  cases h with
  | key hk => exact hk.bind_error
  | refused hk type why kind =>
    subst why
    refine hk.bind_iff.mpr (Ends.bind_error ?_)
    exact ⟨Ending.finished_error _ _, 0, run_lift_dictKey_of_type ctx 0 _ type _⟩
  | value hk hv =>
    exact hk.bind_iff.mpr ((ends_lift_dictKey_toValue ctx _ _ _).bind_iff.mpr hv.bind_error)
  | made hk hv =>
    refine hk.bind_iff.mpr ((ends_lift_dictKey_toValue ctx _ _ _).bind_iff.mpr ?_)
    exact hv.bind_iff.mpr (ends_piece.mpr ⟨trivial, rfl⟩)

/-- All entries end as they do one after the other. -/
theorem Collects.ends {entries : List (Expr × Expr)} {seen : List (Expr × Machine)}
    {r : Ending EntryList}
    (h : Collects (fun e m r ↦ (eval scope e).Ends ctx m r) l entries m seen r) :
    (each (Plan.entry scope l) entries).Ends ctx m r := by
  induction h with
  | nil m => exact ends_piece.mpr ⟨trivial, rfl⟩
  | stops first => exact first.ends.bind_error
  | later first _ ih => exact first.ends.bind_iff.mpr ih.bind_error
  | next first _ ih =>
    exact first.ends.bind_iff.mpr (ih.bind_iff.mpr (ends_piece.mpr ⟨trivial, rfl⟩))

end Expr
end Scriptlet
