import Scriptlet.Evaluation.Scripted
import Scriptlet.Proofs.Calls.Discipline
import Scriptlet.Proofs.Evaluation.Resumption

/-!
# The entry of a program

To run a program is to load it and then to call its entry, as if that were asked for on its own.
Which function the entry is depends on all that the evaluator was taught: it is the last
declaration of the name in the programs that it was given and in those that host functions have
taught it while it was at work. So a program that declares no entry calls one that was declared
before, and calls nothing only where nothing of the name was declared at all.
-/

namespace Scriptlet

/-- The last declaration of a name at the top level of the programs, in order. -/
def Program.lastDeclaration (name : Bytes) (ps : List Program) : Option Function :=
  ((ps.flatMap (·.functions)).filter (·.name = name)).getLast?

/-- The program that is taught, if the lesson is one. -/
def Lesson.program? {Routine : Type} : Lesson Routine → Option Program
  | program p => some p
  | routine .. => none

namespace Program

/-- A later program has the last word. -/
theorem lastDeclaration_append (name : Bytes) (ps qs : List Program) :
    lastDeclaration name (ps ++ qs) = (lastDeclaration name qs).or (lastDeclaration name ps) := by
  simp only [lastDeclaration, List.flatMap_append, List.filter_append, List.getLast?_append]

/-- The last declaration is one of a program. -/
theorem mem_of_lastDeclaration {name : Bytes} {p : Program} {f : Function}
    (h : lastDeclaration name [p] = some f) : f ∈ p.functions := by
  rw [lastDeclaration, List.flatMap_singleton] at h
  exact (List.mem_filter.mp (List.mem_of_getLast? h)).1

private theorem getElem?_foldl_insert (fs : List Function) (table : Std.TreeMap Bytes Function)
    (name : Bytes) :
    (fs.foldl (fun table f ↦ table.insert f.name f) table)[name]? =
      (fs.filter (·.name = name)).getLast?.or table[name]? := by
  induction fs generalizing table with
  | nil => rfl
  | cons f fs ih =>
    rw [List.foldl_cons, ih, Std.TreeMap.getElem?_insert]
    by_cases hname : f.name = name
    · rw [if_pos (Std.LawfulEqCmp.compare_eq_iff_eq.mpr hname),
        List.filter_cons_of_pos (by simpa using hname), List.getLast?_cons]
      cases (fs.filter (·.name = name)).getLast? <;> rfl
    · rw [if_neg (fun h ↦ hname (Std.LawfulEqCmp.compare_eq_iff_eq.mp h)),
        List.filter_cons_of_neg (by simpa using hname)]

end Program

section Hosts

variable [Host]

open Exec Plan Program

/-- Calls a function of the script. -/
def Function.call (f : Function) (ctx : Context) (fuel : Nat) (arguments : List Value)
    (site : Token) : Exec Value :=
  match fuel with
  | 0 => throw .outOfFuel
  | fuel + 1 =>
    if arguments.length = f.parameters.length then
      withFrame ctx f.name site.location ((f.plan arguments).run ctx fuel)
    else raise (.functionArity f.name f.parameters.length arguments.length) site.location

/-- A name that a function of the script has is called by calling that function. -/
theorem callFunction_eq_call {ctx : Context} {name : Bytes} {f : Function}
    (hf : ctx.functions[name]? = some f) (fuel : Nat) (arguments : List Value) (site : Token)
    {m : Machine} (hm : m.lessons = []) :
    callFunction ctx fuel name arguments site m = f.call ctx fuel arguments site m := by
  cases fuel with
  | zero => rw [callFunction, Function.call]
  | succ fuel =>
    have hafter : ctx.after m.lessons = ctx := by rw [hm]; rfl
    rw [callFunction_succ, Context.resolve, hafter, hf, Function.call]
    by_cases harity : arguments.length = f.parameters.length
    · simp only [if_pos harity]
    · simp only [if_neg harity]

namespace Context

/-- The functions that are known with those of a program. -/
theorem getElem?_functions_define (ctx : Context) (p : Program) (name : Bytes) :
    (ctx.define p).functions[name]? = (lastDeclaration name [p]).or ctx.functions[name]? := by
  rw [define, getElem?_foldl_insert, lastDeclaration, List.flatMap_singleton]

private theorem getElem?_functions_after (ctx : Context) (lessons : List Host.Teaching)
    (name : Bytes) :
    (ctx.after lessons).functions[name]? =
      (lastDeclaration name (lessons.filterMap (·.val.program?))).or ctx.functions[name]? := by
  induction lessons generalizing ctx with
  | nil => rfl
  | cons l lessons ih =>
    obtain ⟨l, allowed⟩ := l
    refine (ih (ctx.learn l)).trans ?_
    cases l with
    | program p =>
      rw [learn, getElem?_functions_define, ← Option.or_assoc, ← lastDeclaration_append]
      rfl
    | routine name r => rfl

end Context

/-- What one operation does, and then another one on the evaluator and the heap that it leaves; the
second is not begun if the first fails. -/
def Outcome.andThen {α β : Type} (o : Outcome α) (next : Evaluator → Heap → Outcome β) :
    Outcome β :=
  match o.result with
  | .ok _ =>
    let o' := next o.evaluator o.heap
    { o' with output := o.output ++ o'.output }
  | .error stop => { o with result := .error stop }

private theorem Outcome.andThen_congr {α β : Type} {o : Outcome α}
    {next next' : Evaluator → Heap → Outcome β}
    (h : next o.evaluator o.heap = next' o.evaluator o.heap) :
    o.andThen next = o.andThen next' := by
  simp only [andThen, h]

namespace Demand

/-- The program that is handed over, if one is. -/
def program : Demand → Option Program
  | load p | run p _ => p
  | _ => none

/-- The programs that host functions teach while the evaluator does what it is asked for. -/
def taught (d : Demand) (ev : Evaluator) (h : Heap) : List Program :=
  let ending := (d.start ev h).ending (d.prepare ev).context
  ending.machine.lessons.filterMap (·.val.program?)

end Demand

namespace Evaluator

variable {ev : Evaluator} {α β : Type}

/-- The evaluator has come out of what was asked of a new one. The programs that it was given, and
those that host functions taught it meanwhile, are listed in order; whether it could run them to
their end does not matter. -/
inductive Taught : List Program → Evaluator → Prop where
  | new (maxDepth : Nat) : Taught [] (new maxDepth)
  | after {ps : List Program} {ev : Evaluator} (d : Demand) (h : Heap) (taught : Taught ps ev) :
      Taught (ps ++ d.program.toList ++ d.taught ev h) (d.perform ev h).evaluator

/-- Calls a function of the script without arguments; without a function there is no value. -/
def enter (ev : Evaluator) (h : Heap) (f? : Option Function) (site : Token) : Outcome Value :=
  ev.perform h fun ctx ↦
    match f? with
    | some f => f.call ctx ampleFuel [] site
    | none => pure .none

private theorem andThen_enter_none (o : Outcome α) (site : Token) :
    (o.andThen fun ev h ↦ ev.enter h none site) =
      { o with result := o.result.map fun _ ↦ .none } := by
  obtain ⟨result, ev, h, output⟩ := o
  cases result with
  | ok a => exact congrArg _ (List.append_nil output)
  | error stop => rfl

private theorem outcome_behind (ev : Evaluator) (m : Machine) (r : Ending α) :
    ev.outcome (r.behind m.output m.lessons) =
      { (ev.leftWith m).outcome r with
        output := m.output.toList ++ ((ev.leftWith m).outcome r).output } := by
  have hleft (m' : Machine) :
      ev.leftWith (m'.behind m.output m.lessons) = (ev.leftWith m).leftWith m' := by
    simp only [leftWith, Machine.behind, Context.after_append]
  cases r <;>
  · simp only [outcome, Ending.behind, Ending.result, Ending.machine, hleft]
    simp only [Machine.behind, Array.toList_append]

private theorem perform_bind (ev : Evaluator) (h : Heap) (x : Context → Exec α)
    (f : Context → Exec β) (hf : ∀ written lessons,
      Resumes written lessons (f ev.context) (f (ev.context.after lessons))) :
    (ev.perform h fun ctx ↦ x ctx >>= fun _ ↦ f ctx) =
      (ev.perform h x).andThen fun ev h ↦ ev.perform h f := by
  simp only [perform_eq, Outcome.andThen, Bind.bind, EStateM.bind]
  cases hr : x ev.context (ev.machine h) with
  | error stop m => rfl
  | ok a m =>
    have hm : ((ev.leftWith m).machine m.heap).behind m.output m.lessons = m := by
      simp only [Machine.behind, machine, leftWith, Array.append_empty, List.append_nil]
    have hrun := hf m.output m.lessons ((ev.leftWith m).machine m.heap)
    rw [hm] at hrun
    simp only [hrun, outcome_behind]
    rfl

private theorem getElem?_functions_perform (d : Demand) (ev : Evaluator) (h : Heap)
    (name : Bytes) :
    (d.perform ev h).evaluator.context.functions[name]? =
      (lastDeclaration name (d.program.toList ++ d.taught ev h)).or
        ev.context.functions[name]? := by
  have hprepare : (d.prepare ev).context.functions[name]? =
      (lastDeclaration name d.program.toList).or ev.context.functions[name]? := by
    cases d with
    | load p | run p =>
      cases p with
      | none => rfl
      | some p => exact ev.context.getElem?_functions_define p name
    | _ => rfl
  rw [d.perform_eq, carryOut, perform_eq]
  refine ((d.prepare ev).context.getElem?_functions_after _ name).trans ?_
  rw [hprepare, lastDeclaration_append, Option.or_assoc]
  rfl

/-- An evaluator knows the last declaration of every name in the programs that it was taught. -/
theorem Taught.getElem?_functions {ps : List Program} (taught : ev.Taught ps) (name : Bytes) :
    ev.context.functions[name]? = lastDeclaration name ps := by
  induction taught with
  | new maxDepth => rfl
  | after d h _ ih =>
    rw [getElem?_functions_perform, ih, ← lastDeclaration_append, List.append_assoc]

private theorem perform_callEntry (ev : Evaluator) (h : Heap) (entry : Bytes) (l : Location) :
    (ev.perform h fun ctx ↦ callEntry ctx entry l) =
      ev.enter h ev.context.functions[entry]? ⟨entry, l⟩ := by
  simp only [enter, perform_eq, callEntry, Bind.bind, EStateM.bind, known, machine,
    show ev.context.after [] = ev.context from rfl, Std.TreeMap.contains_eq_isSome_getElem?]
  cases hf : ev.context.functions[entry]? with
  | none => rfl
  | some f => simp only [Option.isSome_some, if_true, callFunction_eq_call hf]

private theorem resumes_callEntry (written : Array UInt8) (lessons : List Host.Teaching)
    (ctx : Context) (entry : Bytes) (l : Location) :
    Resumes written lessons (callEntry ctx entry l) (callEntry (ctx.after lessons) entry l) := by
  refine (resumes_known ctx).bind fun now ↦ ?_
  split
  · exact resumes_callFunction entry [] ⟨entry, l⟩
  · exact fun _ ↦ rfl

private theorem run_eq_andThen (ev : Evaluator) (h : Heap) (p : Option Program) (entry : Bytes) :
    ev.run h p entry = (ev.load h p).andThen fun ev' h' ↦
      ev'.enter h' ((ev.load h p).evaluator.context.functions[entry]?)
        ⟨entry, p.elim {} (·.location)⟩ := by
  rw [run_eq, load_eq]
  simp only [carryOut, running, run_bind, run_entryCall]
  refine (perform_bind (ev.learn p) h _ _ fun written lessons ↦
    resumes_callEntry written lessons _ entry _).trans ?_
  exact Outcome.andThen_congr (perform_callEntry _ _ entry _)

/-- Whatever an evaluator was asked for before, to run a program is to load it and then to call,
without arguments, the last declaration of the entry in all the programs that the evaluator was
taught so far: this one counts, and so do those that host functions teach while it is loaded.
Without any it is to load the program and nothing else, and there is no value. So as long as host
functions teach no entry meanwhile, what the program itself declares is called if it declares the
entry, and nothing is called if it does not and none of those before does. -/
theorem run_calls_last_declaration {ps : List Program} (taught : ev.Taught ps) (h : Heap)
    (p : Option Program) (entry : Bytes) :
    let site : Token := ⟨entry, p.elim {} (·.location)⟩
    let meanwhile := (Demand.load p).taught ev h
    (ev.run h p entry = (ev.load h p).andThen fun ev' h' ↦
      ev'.enter h' (lastDeclaration entry (ps ++ p.toList ++ meanwhile)) site) ∧
    (lastDeclaration entry (ps ++ p.toList ++ meanwhile) = none →
      ev.run h p entry =
        { ev.load h p with result := (ev.load h p).result.map fun _ ↦ .none }) ∧
    (lastDeclaration entry meanwhile = none →
      (lastDeclaration entry p.toList = none → lastDeclaration entry ps = none) →
      ev.run h p entry = (ev.load h p).andThen fun ev' h' ↦
        ev'.enter h' (lastDeclaration entry p.toList) site) := by
  intro site meanwhile
  have hknown : (ev.load h p).evaluator.context.functions[entry]? =
      lastDeclaration entry (ps ++ p.toList ++ meanwhile) :=
    (Taught.after (.load p) h taught).getElem?_functions entry
  have hrun := run_eq_andThen ev h p entry
  rw [hknown] at hrun
  refine ⟨hrun, ?_, ?_⟩
  · intro hnone
    rw [hrun, hnone, andThen_enter_none]
  · intro hmeanwhile hown
    rw [lastDeclaration_append, hmeanwhile, Option.none_or, lastDeclaration_append] at hrun
    rw [hrun]
    cases hp : lastDeclaration entry p.toList with
    | none => rw [hown hp, Option.or_none]
    | some f => rw [Option.some_or]

end Evaluator
end Hosts

/-- A host whose functions each load a program. -/
abbrev Host.teaching : Host where
  Routine := Program
  Memory := Unit
  Thread := Empty
  teaches _ := True
  initial := ()
  serve p _ _ _ := .ask (.load p trivial) fun
    | .ok v => .answer v
    | .error e => .fail e
  resume t := t.elim

namespace Evaluator

open Program

/-- Of three declarations of the entry, the one of the program that a host function loads
meanwhile is called. -/
theorem run_calls_last_declaration_of_three :
    letI := Host.teaching
    let main (text : Bytes) : Stmt := .function {} "main" [] [.print {} [.str {} text]]
    let old : Program := ⟨{}, [main "old"]⟩
    let late : Program := ⟨{}, [main "late"]⟩
    let p : Program := ⟨{}, [main "own", .evaluate {} (.call {} .absent "learn" [])]⟩
    let ev := ((Demand.load (some old)).perform ((new 8).register "learn" late) {}).evaluator
    ev.Taught [old] ∧
      (ev.run {} (some p) "main" = (ev.load {} (some p)).andThen fun ev' h' ↦
        ev'.enter h' (lastDeclaration "main" [old, p, late]) ⟨"main", {}⟩) ∧
      (ev.run {} (some p) "main").output = "late\n" := by
  let _ := Host.teaching
  intro main old late p ev
  have registered : Taught [] ((new 8).register "learn" late) :=
    .after (.register "learn" late) {} (.new 8)
  have taught : ev.Taught [old] := .after (.load (some old)) {} registered
  refine ⟨taught, (run_calls_last_declaration taught {} (some p) "main").1, by decide +kernel⟩

/-- A program without an entry calls the one that a program before it has declared. -/
theorem not_run_calls_own_declaration :
    ¬ ∀ (ps : List Program) (ev : Evaluator), ev.Taught ps → ∀ (h : Heap) (p : Option Program)
      (entry : Bytes), ev.run h p entry = (ev.load h p).andThen fun ev' h' ↦
        ev'.enter h' (lastDeclaration entry p.toList) ⟨entry, p.elim {} (·.location)⟩ := by
  intro h
  let old : Program := ⟨{}, [.function {} "main" [] [.print {} [.str {} "old"]]]⟩
  have hrun := h _ _ (.after (.load (some old)) {} (.new 1)) {} (some ⟨{}, []⟩) "main"
  exact absurd (congrArg Outcome.output hrun) (by decide +kernel)

end Evaluator
end Scriptlet
