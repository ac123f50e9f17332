import Scriptlet.Proofs.Calls.Discipline
import Scriptlet.Proofs.Evaluation.Outcome

/-!
# Printing by a statement and by a call

A print statement hands the values of its expressions to whatever is registered under the name of
the print function; a call of that name does so in a frame of its own. The frame is all that sets
the two apart. So they end alike if there is room for the frame and what is registered does not
tell whether it has been given one, as no function of the language does; a host function may. If
there is no room the call fails, and then they end alike only if the other fails in the same way.
-/

namespace Scriptlet

open Exec Plan

section Hosts

variable [Host]

namespace Exec

variable {α β : Type}

/-- The same ending with another number of active calls. -/
def Ending.withDepth (d : Nat) : Ending α → Ending α
  | .ok a m => .ok a { m with depth := d }
  | .error stop m => .error stop { m with depth := d }

/-- The same ending with another result, if there is one. -/
def Ending.as (b : β) : Ending α → Ending β
  | .ok _ m => .ok b m
  | .error stop m => .error stop m

private theorem Ending.as_congr {γ : Type} {P Q : Ending α → Prop} (d : Nat) (b : β) (c : γ)
    (h : ∀ s, (∃ r, P r ∧ Ending.as b r = s) ↔
      ∃ r, Q r ∧ Ending.withDepth d (Ending.as b r) = s) (s : Ending γ) :
    (∃ r, P r ∧ Ending.as c r = s) ↔ ∃ r, Q r ∧ Ending.withDepth d (Ending.as c r) = s := by
  have hreplace {r r' : Ending α} (hr : Ending.withDepth d (Ending.as b r') = Ending.as b r) :
      Ending.withDepth d (Ending.as c r') = Ending.as c r := by
    cases r <;> cases r' <;> cases hr <;> rfl
  constructor
  · rintro ⟨r, hr, rfl⟩
    obtain ⟨r', hr', he⟩ := (h _).mp ⟨r, hr, rfl⟩
    exact ⟨r', hr', hreplace he⟩
  · rintro ⟨r', hr', rfl⟩
    obtain ⟨r, hr, he⟩ := (h _).mpr ⟨r', hr', rfl⟩
    exact ⟨r, hr, (hreplace he.symm).symm⟩

end Exec

namespace Plan

variable {α β : Type} {ctx : Context} {m m₁ : Machine} {r r' : Ending α}

/-- Two plans end alike on a machine, or neither of them ends. -/
def SameEnd (ctx : Context) (m : Machine) (p q : Plan α) : Prop :=
  ∀ r, p.Ends ctx m r ↔ q.Ends ctx m r

/-- A plan ends alike, but for its result, whether or not one more call is active. -/
def FrameBlind (ctx : Context) (m : Machine) (p : Plan α) : Prop :=
  ∀ s : Ending Unit, (∃ r, p.Ends ctx m r ∧ Ending.as () r = s) ↔
    ∃ r, p.Ends ctx { m with depth := m.depth + 1 } r ∧
      Ending.withDepth m.depth (Ending.as () r) = s

section Sequences

variable {p : Plan α} {rest rest' : α → Plan β} {s : Ending β}

private theorem ends_bind_pure (b : β) :
    (p >>= fun _ ↦ pure b).Ends ctx m s ↔ ∃ r, p.Ends ctx m r ∧ Ending.as b r = s := by
  rw [ends_bind]
  constructor
  · rintro (⟨stop, m₁, hp, rfl⟩ | ⟨a, m₁, hp, hpure⟩)
    · exact ⟨_, hp, rfl⟩
    · obtain ⟨-, rfl⟩ := ends_piece.mp hpure
      exact ⟨_, hp, rfl⟩
  · rintro ⟨r, hp, rfl⟩
    cases r with
    | ok a m₁ => exact .inr ⟨a, m₁, hp, ends_piece.mpr ⟨trivial, rfl⟩⟩
    | error stop m₁ => exact .inl ⟨stop, m₁, hp, rfl⟩

private theorem sameEnd_bind_iff :
    SameEnd ctx m (p >>= rest) (p >>= rest') ↔
      ∀ a m₁, p.Ends ctx m (.ok a m₁) → SameEnd ctx m₁ (rest a) (rest' a) := by
  constructor
  · intro h a m₁ hp s
    rw [← hp.bind_iff, ← hp.bind_iff]
    exact h s
  · intro h s
    simp only [ends_bind]
    refine or_congr_right (exists_congr fun a ↦ exists_congr fun m₁ ↦ and_congr_right fun hp ↦ ?_)
    exact h a m₁ hp s

end Sequences

section Calls

variable {name : Bytes} {arguments : List Value} {site : Token} {r : Ending Value}
  {callee : Callee}

private theorem ends_call_of_resolved
    (resolved : ctx.resolve name arguments site m.lessons = .ok callee) :
    (call name arguments site).Ends ctx m r ↔ Ending.Finished r ∧ ∃ fuel,
      withFrame ctx callee.label site.location (callee.body.run ctx fuel) m = r := by
  refine and_congr_right fun hr ↦ ⟨?_, ?_⟩
  · rintro ⟨fuel, h⟩
    cases fuel with
    | zero =>
      rw [run, callFunction] at h
      exact absurd rfl (h ▸ hr)
    | succ fuel =>
      rw [run, callFunction_succ, resolved] at h
      exact ⟨fuel, h⟩
  · rintro ⟨fuel, h⟩
    refine ⟨fuel + 1, ?_⟩
    rw [run, callFunction_succ, resolved]
    exact h

private theorem ends_call_of_room
    (resolved : ctx.resolve name arguments site m.lessons = .ok callee)
    (room : m.depth < ctx.maxDepth) :
    (call name arguments site).Ends ctx m r ↔
      ∃ r₁, callee.body.Ends ctx { m with depth := m.depth + 1 } r₁ ∧
        Ending.withDepth m.depth r₁ = r := by
  rw [ends_call_of_resolved resolved]
  have hframe (fuel : Nat) : withFrame ctx callee.label site.location (callee.body.run ctx fuel) m =
      Ending.withDepth m.depth (callee.body.run ctx fuel { m with depth := m.depth + 1 }) := by
    have hdepth := callee.body.depth_run ctx fuel (Context.direct_of_resolve resolved)
      { m with depth := m.depth + 1 }
    rw [withFrame, if_neg (Nat.not_le.mpr room), andThenAlways]
    cases hr : callee.body.run ctx fuel { m with depth := m.depth + 1 } <;>
      · rw [hr] at hdepth
        simp only [Ending.machine] at hdepth
        simp only [Ending.withDepth, hdepth, Nat.add_sub_cancel]
  have hfinished (r₁ : Ending Value) :
      Ending.Finished (Ending.withDepth m.depth r₁) ↔ Ending.Finished r₁ := by
    cases r₁ <;> exact Iff.rfl
  simp only [hframe]
  constructor
  · rintro ⟨hr, fuel, rfl⟩
    exact ⟨_, ⟨(hfinished _).mp hr, fuel, rfl⟩, rfl⟩
  · rintro ⟨r₁, ⟨hr, fuel, rfl⟩, rfl⟩
    exact ⟨(hfinished _).mpr hr, fuel, rfl⟩

private theorem ends_call_of_full
    (resolved : ctx.resolve name arguments site m.lessons = .ok callee)
    (full : ctx.maxDepth ≤ m.depth) :
    (call name arguments site).Ends ctx m
      (.error (.error ⟨.depthExceeded ctx.maxDepth callee.label, site.location⟩) m) :=
  ⟨Ending.finished_error _ _, 1, Moment.ending_call_of_full resolved full⟩

private theorem ends_call_of_unresolved {cause : Cause}
    (unresolved : ctx.resolve name arguments site m.lessons = .error cause) :
    (call name arguments site).Ends ctx m (.error (.error ⟨cause, site.location⟩) m) :=
  ⟨Ending.finished_error _ _, 1, Moment.ending_call_of_unresolved unresolved⟩

private theorem sameEnd_call_iff_of_room
    (resolved : ctx.resolve name arguments site m.lessons = .ok callee)
    (room : m.depth < ctx.maxDepth) (b : β) :
    SameEnd ctx m (callee.body >>= fun _ ↦ pure b)
      (call name arguments site >>= fun _ ↦ pure b) ↔ FrameBlind ctx m callee.body := by
  have hcall (s : Ending β) : (call name arguments site >>= fun _ ↦ pure b).Ends ctx m s ↔
      ∃ r, callee.body.Ends ctx { m with depth := m.depth + 1 } r ∧
        Ending.withDepth m.depth (Ending.as b r) = s := by
    have has (r : Ending Value) : Ending.as b (Ending.withDepth m.depth r) =
        Ending.withDepth m.depth (Ending.as b r) := by
      cases r <;> rfl
    rw [ends_bind_pure]
    constructor
    · rintro ⟨r, hr, rfl⟩
      obtain ⟨r₁, hr₁, rfl⟩ := (ends_call_of_room resolved room).mp hr
      exact ⟨r₁, hr₁, (has r₁).symm⟩
    · rintro ⟨r₁, hr₁, rfl⟩
      exact ⟨_, (ends_call_of_room resolved room).mpr ⟨r₁, hr₁, rfl⟩, has r₁⟩
  simp only [SameEnd, FrameBlind, hcall, ends_bind_pure]
  exact ⟨Ending.as_congr m.depth b (), Ending.as_congr m.depth () b⟩

private theorem sameEnd_call_iff_of_full
    (resolved : ctx.resolve name arguments site m.lessons = .ok callee)
    (full : ctx.maxDepth ≤ m.depth) (b : β) :
    SameEnd ctx m (callee.body >>= fun _ ↦ pure b)
        (call name arguments site >>= fun _ ↦ pure b) ↔
      callee.body.Ends ctx m
        (.error (.error ⟨.depthExceeded ctx.maxDepth callee.label, site.location⟩) m) := by
  have hcall := ends_call_of_full resolved full
  constructor
  · intro h
    obtain ⟨r, hr, he⟩ := (ends_bind_pure b).mp ((h _).mpr hcall.bind_error)
    cases r with
    | ok a m₁ => cases he
    | error stop m₁ =>
      cases he
      exact hr
  · intro h s
    rw [ends_bind_pure, ends_bind_pure]
    constructor <;> rintro ⟨r, hr, rfl⟩
    · cases hr.unique h
      exact ⟨_, hcall, rfl⟩
    · cases hr.unique hcall
      exact ⟨_, h, rfl⟩

end Calls

private theorem FrameBlind.of_run {p : Plan α}
    (h : ∀ fuel, p.run ctx fuel { m with depth := m.depth + 1 } =
      Ending.withDepth (m.depth + 1) (p.run ctx fuel m)) (hp : p.Pieces (Direct ctx)) :
    FrameBlind ctx m p := by
  have hback (fuel : Nat) :
      Ending.withDepth m.depth (p.run ctx fuel { m with depth := m.depth + 1 }) =
        p.run ctx fuel m := by
    have hdepth := p.depth_run ctx fuel hp m
    rw [h]
    cases hr : p.run ctx fuel m <;>
      · rw [hr] at hdepth
        simp only [Ending.machine] at hdepth
        simp only [Ending.withDepth, ← hdepth]
  have hfinished (r : Ending α) :
      Ending.Finished (Ending.withDepth m.depth r) ↔ Ending.Finished r := by
    cases r <;> exact Iff.rfl
  have has (r : Ending α) : Ending.withDepth m.depth (Ending.as () r) =
      Ending.as () (Ending.withDepth m.depth r) := by
    cases r <;> rfl
  intro s
  constructor
  · rintro ⟨r, ⟨hr, fuel, rfl⟩, rfl⟩
    refine ⟨_, ⟨?_, fuel, rfl⟩, ?_⟩
    · rwa [← hfinished, hback]
    · rw [has, hback]
  · rintro ⟨r, ⟨hr, fuel, rfl⟩, rfl⟩
    refine ⟨_, ⟨?_, fuel, rfl⟩, ?_⟩
    · rwa [← hback, hfinished]
    · rw [has, hback]

end Plan

namespace Builtin

variable {ctx : Context} {b : Builtin} {arguments : List Value}
  {respond : Heap → Except Cause Response}

/-- A function of the language does not tell whether it is given a frame. -/
theorem Native.frameBlind (hb : Native arguments b respond) (m : Machine) (site : Token) :
    FrameBlind ctx m (b.plan ctx arguments site) := by
  refine FrameBlind.of_run (fun fuel ↦ ?_) (b.direct_plan arguments site)
  rw [hb.plan_eq, run_piece]
  simp only [reply]
  cases respond m.heap <;> rfl

/-- It does not fail for want of room. -/
theorem Native.not_ends_overflow (hb : Native arguments b respond) {m m' : Machine}
    {site : Token} {e : ScriptError} (he : e.kind = .stackOverflow) :
    ¬ (b.plan ctx arguments site).Ends ctx m (.error (.error e) m') := by
  intro h
  rw [hb.plan_eq] at h
  exact (Primitive.reply site hb.failsWith).kind_ne (ends_piece.mp h).2 he

end Builtin

namespace Stmt

variable {ctx : Context} {scope : ScopeId} {l l' : Location} {es : List Expr} {flags : Flags}
  {m : Machine} {vs : List Value}

/-- What is left of a print statement to do when the values are known. -/
private def printing (ctx : Context) (l : Location) (vs : List Value) (flags : Flags)
    (now : Context) : Plan Flags :=
  match now.builtins[Builtin.print.name]? with
  | some b => b.plan ctx vs { location := l } >>= fun _ ↦ pure flags
  | none => piece (raise .printUnavailable l)

private theorem sameEnd_iff :
    SameEnd ctx m (task (.stmt scope (.print l es) flags))
        (task (.stmt scope (.evaluate l' (.call l .absent Builtin.print.name es)) flags)) ↔
      ∀ vs m₁, (each (eval scope) es).Ends ctx m (.ok vs m₁) → SameEnd ctx m₁
        (printing ctx l vs flags (ctx.after m₁.lessons))
        (call Builtin.print.name vs { location := l } >>= fun _ ↦ pure flags) := by
  have hprint (r : Ending Flags) : (task (.stmt scope (.print l es) flags)).Ends ctx m r ↔
      (each (eval scope) es >>= fun vs ↦ piece (known ctx) >>= fun now ↦
        printing ctx l vs flags now).Ends ctx m r := ends_task
  have hcall (r : Ending Flags) :
      (task (.stmt scope (.evaluate l' (.call l .absent Builtin.print.name es)) flags)).Ends
          ctx m r ↔
        (each (eval scope) es >>= fun vs ↦
          call Builtin.print.name vs { location := l } >>= fun _ ↦ pure flags).Ends ctx m r := by
    rw [ends_task, ← ends_bind_assoc]
    exact ends_task_bind
  have hknown (m₁ : Machine) :
      (piece (known ctx)).Ends ctx m₁ (.ok (ctx.after m₁.lessons) m₁) :=
    ends_piece.mpr ⟨trivial, rfl⟩
  simp only [SameEnd, hprint, hcall]
  rw [show (∀ r, _ ↔ _) ↔ _ from sameEnd_bind_iff]
  simp only [SameEnd, (hknown _).bind_iff]

/-- In a context in which no function of the script has the name `print`, once the values of the
expressions are known, the statement `print` and a call of that name with the same expressions end
alike, with the same errors, output and machine, if and only if there is something registered under
the name, and either there is room for one more call and what is registered does not tell whether
one more call is active, or there is none and it fails just as a call that finds no room. No
function of the language tells how many calls are active, and none fails for want of room. -/
theorem print_sameEnd_call_iff (ctx : Context) (scope : ScopeId) (l l' : Location)
    (es : List Expr) (flags : Flags) (m : Machine)
    (unshadowed : ∀ vs m₁, (each (eval scope) es).Ends ctx m (.ok vs m₁) →
      (ctx.after m₁.lessons).functions[Builtin.print.name]? = none) :
    let printing : Plan Flags := task (.stmt scope (.print l es) flags)
    let calling : Plan Flags :=
      task (.stmt scope (.evaluate l' (.call l .absent Builtin.print.name es)) flags)
    let site : Token := { location := l }
    (SameEnd ctx m printing calling ↔
      ∀ vs m₁, (each (eval scope) es).Ends ctx m (.ok vs m₁) →
        ∃ b, (ctx.after m₁.lessons).builtins[Builtin.print.name]? = some b ∧
          if m₁.depth < ctx.maxDepth then FrameBlind ctx m₁ (b.plan ctx vs site)
          else (b.plan ctx vs site).Ends ctx m₁
            (.error (.error ⟨.depthExceeded ctx.maxDepth Builtin.print.name, l⟩) m₁)) ∧
    ∀ b vs respond m₁, Builtin.Native vs b respond →
      FrameBlind ctx m₁ (b.plan ctx vs site) ∧
        ∀ e m', e.kind = .stackOverflow →
          ¬ (b.plan ctx vs site).Ends ctx m₁ (.error (.error e) m') := by
  intro printing calling site
  refine ⟨?_, fun b vs respond m₁ hb ↦
    ⟨hb.frameBlind m₁ site, fun e m' he ↦ hb.not_ends_overflow he⟩⟩
  rw [sameEnd_iff]
  refine forall_congr' fun vs ↦ forall_congr' fun m₁ ↦ forall_congr' fun hvs ↦ ?_
  have hfunction := unshadowed vs m₁ hvs
  cases hb : (ctx.after m₁.lessons).builtins[Builtin.print.name]? with
  | none =>
    -- With nothing registered both fail, in different words.
    have hresolve : ctx.resolve Builtin.print.name vs site m₁.lessons =
        .error (.undefinedFunction Builtin.print.name) := by
      simp only [Context.resolve, hfunction, hb]
    refine iff_of_false (fun h ↦ ?_) (fun h ↦ ?_)
    · simp only [Stmt.printing, hb] at h
      obtain ⟨-, he⟩ := ends_piece.mp ((h _).mpr (ends_call_of_unresolved hresolve).bind_error)
      cases he
    · obtain ⟨b, hb', -⟩ := h
      cases hb'
  | some b =>
    have hresolve : ctx.resolve Builtin.print.name vs site m₁.lessons =
        .ok ⟨Builtin.print.name, b.plan ctx vs site⟩ := by
      simp only [Context.resolve, hfunction, hb]
    simp only [Stmt.printing, hb, Option.some.injEq, exists_eq_left']
    split
    · next room => exact sameEnd_call_iff_of_room hresolve room flags
    · next full => exact sameEnd_call_iff_of_full hresolve (Nat.le_of_not_lt full) flags

end Stmt
end Hosts

/-- A host whose functions each keep in mind what they are called with, and give a value back. -/
abbrev Host.capturing : Host where
  Routine := Value
  Memory := List Value
  Thread := Empty
  teaches _ := False
  initial := []
  serve v _ arguments _ :=
    .act (fun w ↦ { heap := w.heap, memory := w.memory ++ arguments }) (.answer v)
  resume t := t.elim

namespace Stmt

/-- With room for one more call such a function is told by both what to print, and prints
nothing. -/
theorem print_sameEnd_call_captured :
    letI := Host.capturing
    let ctx : Context :=
      { builtins := Builtin.defaultTable.insert "print" (.host "print" Value.none), maxDepth := 1 }
    let printing : Plan Flags := task (.stmt .global (.print {} [.int {} 1]) {})
    (∀ vs m₁, (each (eval .global) [.int {} 1]).Ends ctx {} (.ok vs m₁) →
      (ctx.after m₁.lessons).functions[Builtin.print.name]? = none) ∧
      SameEnd ctx {} printing
        (task (.stmt .global (.evaluate {} (.call {} .absent Builtin.print.name [.int {} 1])) {})) ∧
      printing.Ends ctx {} (.ok {} { memory := [Value.int 1] }) := by
  let _ := Host.capturing
  intro ctx printing
  have hvalues (vs : List Value) (m₁ : Machine)
      (h : (each (eval .global) [.int {} 1]).Ends ctx {} (.ok vs m₁)) : m₁ = {} := by
    have hends : (each (eval .global) [.int {} 1]).Ends ctx {} (.ok [.int 1] {}) :=
      ⟨trivial, 1, rfl⟩
    cases h.unique hends
    rfl
  have unshadowed : ∀ vs m₁, (each (eval .global) [.int {} 1]).Ends ctx {} (.ok vs m₁) →
      (ctx.after m₁.lessons).functions[Builtin.print.name]? = none := by
    intro vs m₁ h
    rw [hvalues vs m₁ h]
    rfl
  refine ⟨unshadowed, ?_, trivial, 2, rfl⟩
  refine (print_sameEnd_call_iff ctx .global {} {} [.int {} 1] {} {} unshadowed).1.mpr ?_
  intro vs m₁ h
  rw [hvalues vs m₁ h]
  refine ⟨.host "print" Value.none, rfl, ?_⟩
  rw [if_pos (by decide)]
  exact FrameBlind.of_run (fun _ ↦ rfl) (Builtin.direct_plan _ _ _)

/-- In the last frame that there is room for, the statement prints and the call is one too many. -/
theorem not_print_sameEnd_call_of_full :
    ¬ ∀ [Host] (ctx : Context) (scope : ScopeId) (l l' : Location) (es : List Expr)
      (flags : Flags) (m : Machine),
      (∀ vs m₁, (each (eval scope) es).Ends ctx m (.ok vs m₁) →
        (ctx.after m₁.lessons).functions[Builtin.print.name]? = none) →
      SameEnd ctx m (task (.stmt scope (.print l es) flags))
        (task (.stmt scope (.evaluate l' (.call l .absent Builtin.print.name es)) flags)) := by
  intro h
  let _ := Host.capturing
  let ctx : Context := { builtins := Builtin.defaultTable, maxDepth := 1 }
  let es : List Expr := [.str {} "x"]
  let calling : Stmt := .evaluate {} (.call {} .absent Builtin.print.name es)
  have hvalue : (each (eval .global) es).Ends ctx { depth := 1 } (.ok [.str "x"] { depth := 1 }) :=
    ⟨trivial, 1, rfl⟩
  have hsame := h ctx .global {} {} es {} { depth := 1 } fun vs m₁ hvs ↦ by
    cases hvs.unique hvalue
    rfl
  have hprints : (task (.stmt .global (.print {} es) {})).Ends ctx { depth := 1 }
      (.ok {} { depth := 1, output := ("x\n" : Bytes).toArray }) := ⟨trivial, 2, rfl⟩
  have hfails : (task (.stmt .global calling {})).Ends ctx { depth := 1 }
      (.error (.error ⟨.depthExceeded 1 Builtin.print.name, {}⟩) { depth := 1 }) :=
    ⟨Ending.finished_error _ _, 4, rfl⟩
  cases ((hsame _).mp hprints).unique hfails

end Stmt
end Scriptlet
