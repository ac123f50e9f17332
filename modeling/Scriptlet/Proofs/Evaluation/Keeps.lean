import Scriptlet.Evaluation.Scripted

/-!
# What computations keep

A computation leaves a machine behind whether it ends or stops. A relation that holds from
each machine found to the machine left is kept by the computation; relations that can be
joined are kept by a sequence if they are kept by its parts.
-/

namespace Scriptlet

namespace Exec

variable {α β : Type}

/-- The machine that a computation leaves, whether it ends or stops. -/
def after (action : Exec α) (m : Machine) : Machine :=
  match action m with
  | .ok _ m' => m'
  | .error _ m' => m'

/-- From the machine that a computation finds to the one it leaves, the relation holds. -/
def Keeps (R : Machine → Machine → Prop) (action : Exec α) : Prop := ∀ m, R m (action.after m)

/-- A relation that can be joined and looks neither at the heap nor at the output. -/
structure Joinable (R : Machine → Machine → Prop) : Prop where
  memory : ∀ m heap output, R m { m with heap, output }
  trans : ∀ {m₁ m₂ m₃}, R m₁ m₂ → R m₂ m₃ → R m₁ m₃

section Actions

/-- A sequence leaves what its second part leaves, unless the first part stops. -/
theorem after_bind (x : Exec α) (f : α → Exec β) (m : Machine) :
    (x >>= f).after m =
      match x m with
      | .ok a m' => (f a).after m'
      | .error _ m' => m' := by
  simp only [after, bind, EStateM.bind]
  cases x m <;> rfl

private theorem after_lift (location : Location) (x : Except Cause α) (m : Machine) :
    (lift location x).after m = m := by
  cases x <;> rfl

private theorem after_lookup (scope : ScopeId) (name : Bytes) (location : Location) (m : Machine) :
    (lookup scope name location).after m = m := by
  simp only [after, lookup]
  cases m.scopes.lookup? scope name <;> rfl

private theorem after_andThenAlways (action : Exec α) (f : Machine → Machine) (m : Machine) :
    (andThenAlways action f).after m = f (action.after m) := by
  simp only [after, andThenAlways]
  cases action m <;> rfl

/-- A computation in a scope of its own leaves what it leaves there, without that scope. -/
theorem after_withScope (parent : ScopeId) (action : ScopeId → Exec α) (m : Machine) :
    (withScope parent action).after m =
      let inner := (m.scopes.enter (some parent)).1
      let m' := (action inner).after { m with scopes := (m.scopes.enter (some parent)).2 }
      { m' with scopes := m'.scopes.leave inner } :=
  after_andThenAlways _ _ _

/-- A call that would be one too many leaves the machine alone; any other leaves what it leaves
as one more active call, which has ended then. -/
theorem after_withFrame (ctx : Context) (callee : Bytes) (location : Location) (action : Exec α)
    (m : Machine) :
    (withFrame ctx callee location action).after m =
      if ctx.maxDepth ≤ m.depth then m
      else
        let m' := action.after { m with depth := m.depth + 1 }
        { m' with depth := m'.depth - 1 } := by
  by_cases hd : ctx.maxDepth ≤ m.depth
  · simp only [after, withFrame, hd, if_true]
    rfl
  · simp only [after, withFrame, hd, if_false]
    exact after_andThenAlways action (fun m ↦ { m with depth := m.depth - 1 }) _

end Actions

section Relations

variable {R S : Machine → Machine → Prop}

/-- A relation holds of what nothing has happened to. -/
theorem Joinable.refl (hR : Joinable R) (m : Machine) : R m m := hR.memory m m.heap m.output

/-- What keeps a relation keeps every weaker one. -/
theorem Keeps.mono {action : Exec α} (h : Keeps R action) (hRS : ∀ m m', R m m' → S m m') :
    Keeps S action := fun m ↦ hRS m _ (h m)

/-- Two steps keep a relation that follows from what each of them keeps. -/
theorem Keeps.seq {T : Machine → Machine → Prop} {x : Exec α} {f : α → Exec β} (hx : Keeps R x)
    (hf : ∀ a, Keeps S (f a)) (hRT : ∀ m₁ m₂, R m₁ m₂ → T m₁ m₂)
    (hjoin : ∀ m₁ m₂ m₃, R m₁ m₂ → S m₂ m₃ → T m₁ m₃) : Keeps T (x >>= f) := by
  intro m
  have hm := hx m
  rw [after_bind]
  simp only [after] at hm
  cases h : x m with
  | ok a m' =>
    rw [h] at hm
    exact hjoin m m' _ hm (hf a m')
  | error stop m' =>
    rw [h] at hm
    exact hRT m m' hm

/-- A sequence keeps what its parts keep. -/
theorem Keeps.bind (hR : Joinable R) {x : Exec α} {f : α → Exec β} (hx : Keeps R x)
    (hf : ∀ a, Keeps R (f a)) : Keeps R (x >>= f) :=
  hx.seq hf (fun _ _ h ↦ h) fun _ _ _ ↦ hR.trans

private theorem Joinable.keeps_of_after_eq (hR : Joinable R) {action : Exec α}
    (h : ∀ m, action.after m = m) : Keeps R action := by
  intro m
  rw [h]
  exact hR.refl m

/-- A result keeps everything. -/
theorem Joinable.keeps_pure (hR : Joinable R) (a : α) : Keeps R (pure a : Exec α) :=
  hR.keeps_of_after_eq fun _ ↦ rfl

/-- Stopping keeps everything. -/
theorem Joinable.keeps_throw (hR : Joinable R) (stop : Stop) : Keeps R (throw stop : Exec α) :=
  hR.keeps_of_after_eq fun _ ↦ rfl

/-- An error keeps everything. -/
theorem Joinable.keeps_raise (hR : Joinable R) (cause : Cause) (location : Location) :
    Keeps R (raise cause location : Exec α) := hR.keeps_throw _

/-- A pure operation keeps everything. -/
theorem Joinable.keeps_lift (hR : Joinable R) (location : Location) (x : Except Cause α) :
    Keeps R (lift location x) := hR.keeps_of_after_eq (after_lift location x)

/-- Reading the heap keeps everything. -/
theorem Joinable.keeps_inspect (hR : Joinable R) (f : Heap → α) : Keeps R (inspect f) :=
  hR.keeps_of_after_eq fun _ ↦ rfl

/-- Reading a variable keeps everything. -/
theorem Joinable.keeps_lookup (hR : Joinable R) (scope : ScopeId) (name : Bytes)
    (location : Location) : Keeps R (lookup scope name location) :=
  hR.keeps_of_after_eq (after_lookup scope name location)

/-- A new array is in the heap only. -/
theorem Joinable.keeps_newArray (hR : Joinable R) (elements : List Value) :
    Keeps R (newArray elements) := fun m ↦ hR.memory m _ m.output

/-- A new dictionary is in the heap only. -/
theorem Joinable.keeps_newDict (hR : Joinable R) (d : Dictionary) : Keeps R (newDict d) :=
  fun m ↦ hR.memory m _ m.output

/-- A change of the heap is one of the heap only. -/
theorem Joinable.keeps_modifyHeap (hR : Joinable R) (f : Heap → Heap) : Keeps R (modifyHeap f) :=
  fun m ↦ hR.memory m _ m.output

/-- The elements of a list keep what each of them keeps. -/
theorem Joinable.keeps_mapM (hR : Joinable R) {f : α → Exec β} (hf : ∀ a, Keeps R (f a))
    (as : List α) : Keeps R (as.mapM f) := by
  induction as with
  | nil => exact hR.keeps_pure []
  | cons a as ih =>
    rw [List.mapM_cons]
    exact (hf a).bind hR fun b ↦ ih.bind hR fun bs ↦ hR.keeps_pure (b :: bs)

end Relations

end Exec

namespace Builtin

open Exec

variable {R : Machine → Machine → Prop}

/-- A built-in function works on heap and output only; what a host function calls is another
matter. -/
theorem keeps_run (hR : Joinable R) (s : Services)
    (hinvoke : ∀ name arguments site, Keeps R (s.invoke name arguments site)) (b : Builtin)
    (arguments : List Value) (site : Token) : Keeps R (b.run s arguments site) := by
  rcases b.native_or_host arguments with ⟨respond, hb⟩ | ⟨name, answer, rfl⟩
  · intro m
    rw [hb.run_eq, Exec.after, reply]
    cases respond m.heap with
    | ok r => exact hR.memory m _ _
    | error cause => exact hR.refl m
  · have hlog : Keeps R (logCall name arguments site) := fun m ↦ hR.memory m m.heap _
    rw [run_host]
    apply hlog.bind hR
    intro _
    cases answer with
    | value v => exact hR.keeps_pure v
    | failure detail => exact hR.keeps_raise _ _
    | call callee => exact hinvoke callee arguments site

end Builtin
end Scriptlet
