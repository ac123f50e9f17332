import Scriptlet.Proofs.Heap.Edit
import Scriptlet.Proofs.Locality.Reading
import Scriptlet.Session.Step

/-!
# What a session keeps

Whatever a host asks for, its session changes in a few ways only: an operation is carried out on a
single container, with values that are known by then; a known value is put into a register, or a
register is given up; an evaluator joins, or does what it is asked for. What all of these keep,
every request keeps, and so does a whole session.
-/

namespace Scriptlet

/-- The values that an action is given. -/
def Dictionary.Action.given : Action → List Value
  | set _ v | overwrite _ v => [v]
  | remove .. | clear | reserve _ | takeValues _ => []

namespace Heap.Operation

/-- The values that an operation is given, those among them that it works on. -/
def given : Operation → List Value
  | newArray elements => elements.toList
  | setArray r elements => .array r :: elements.toList
  | newDict => []
  | onDict r a => .dict r :: a.given
  | copyDict r => [.dict r]

/-- The container that it makes, if it makes one. -/
def made (h : Heap) : Operation → Option Container
  | newArray elements => some (.array (h.newArray elements).1)
  | newDict => some (.dict (h.newDict {}).1)
  | copyDict r => some (.dict (h.newDict (h.dict r)).1)
  | setArray .. | onDict .. => none

end Heap.Operation

namespace Session

/-- Something that a session keeps, told in worlds: as the session goes on so do they, and more and
more values are known. Only known values are put into registers and containers. -/
structure Invariant (W : Type) [Preorder W] where
  /-- A world describes a session. -/
  Holds : W → Session → Prop
  /-- A value is known in a world. -/
  Knows : W → Value → Prop
  mono {w w' : W} {v : Value} : w ≤ w' → Knows w v → Knows w' v
  scalar (w : W) {v : Value} : v.container? = none → Knows w v
  kept {w : W} {s : Session} {register : Bytes} {v : Value} :
    Holds w s → s.registers[register]? = some v → Knows w v
  held {w : W} {s : Session} {c : Container} {v : Value} :
    Holds w s → Knows w c.handle → v ∈ s.heap.held c → Knows w v
  read {w : W} {s : Session} {c key v : Value} : Holds w s → Knows w c → Knows w key →
    s.heap.read c key = .ok v → Knows w v
  /-- Only heap, registers and evaluators matter. -/
  beside {w : W} {s s' : Session} : Holds w s → s'.heap = s.heap → s'.registers = s.registers →
    s'.evaluators = s.evaluators → Holds w s'
  keep {w : W} {s : Session} {v : Value} (register : Bytes) : Holds w s → Knows w v →
    Holds w { s with registers := s.registers.insert register v }
  drop {w : W} {s : Session} (register : Bytes) : Holds w s →
    Holds w { s with registers := s.registers.erase register }
  operate {w : W} {s : Session} (op : Heap.Operation) : Holds w s → (∀ v ∈ op.given, Knows w v) →
    ∃ w', w ≤ w' ∧ Holds w' { s with heap := (s.heap.operate op).2 } ∧
      ∀ c ∈ op.made s.heap, Knows w' c.handle
  join {w : W} {s : Session} (name : Bytes) (maxDepth : Nat) : Holds w s →
    Holds w { s with evaluators := s.evaluators.insert name (Evaluator.new maxDepth) }
  perform {w : W} {s : Session} {name : Bytes} {ev : Evaluator} {vs : List Value}
    (op : EvaluatorOperation) : Holds w s → s.evaluators[name]? = some ev →
    (∀ v ∈ vs, Knows w v) →
    let o := op.perform ev s.heap vs
    ∃ w', w ≤ w' ∧
      Holds w' { s with heap := o.heap, evaluators := s.evaluators.insert name o.evaluator } ∧
      ∀ v, o.result = .ok (.value v) → Knows w' v

namespace Invariant

variable {W : Type} [Preorder W] {I : Invariant W} {w : W} {s : Session}

private theorem elements (hs : I.Holds w s) {r : ArrayRef} (hr : I.Knows w (.array r)) :
    ∀ v ∈ (s.heap.array r).toList, I.Knows w v := fun _ ↦ I.held (c := .array r) hs hr

/-- The heap of a session may become another one, and then some values are known. -/
def Becomes (I : Invariant W) (w : W) (s : Session) (h : Heap) (vs : List Value) : Prop :=
  ∃ w', w ≤ w' ∧ I.Holds w' { s with heap := h } ∧ ∀ v ∈ vs, I.Knows w' v

namespace Becomes

variable {h k : Heap} {v : Value} {vs us : List Value}

private theorem refl (hs : I.Holds w s) (hvs : ∀ v ∈ vs, I.Knows w v) :
    I.Becomes w s s.heap vs := ⟨w, le_refl w, hs, hvs⟩

private theorem bind (hh : I.Becomes w s h vs)
    (hk : ∀ {w'}, w ≤ w' → I.Holds w' { s with heap := h } → (∀ v ∈ vs, I.Knows w' v) →
      I.Becomes w' { s with heap := h } k us) : I.Becomes w s k us := by
  obtain ⟨w', hle, hs', hvs⟩ := hh
  obtain ⟨w'', hle', hs'', hus⟩ := hk hle hs' hvs
  exact ⟨w'', hle.trans hle', hs'', hus⟩

private theorem newArray (hs : I.Holds w s) (hvs : ∀ v ∈ vs, I.Knows w v) :
    I.Becomes w s (s.heap.newArray vs.toArray).2 [.array (s.heap.newArray vs.toArray).1] := by
  obtain ⟨w', hle, hs', hmade⟩ := I.operate (.newArray vs.toArray) hs hvs
  exact ⟨w', hle, hs', List.forall_mem_singleton.mpr (hmade _ rfl)⟩

private theorem modifyArray (hs : I.Holds w s) {r : ArrayRef} {f : Array Value → Array Value}
    (hr : I.Knows w (.array r)) (hf : ∀ v ∈ (f (s.heap.array r)).toList, I.Knows w v) :
    I.Becomes w s (s.heap.modifyArray r f) [] := by
  obtain ⟨w', hle, hs', -⟩ := I.operate (.setArray r (f (s.heap.array r))) hs
    (List.forall_mem_cons.mpr ⟨hr, hf⟩)
  rw [Heap.modifyArray_eq]
  exact ⟨w', hle, hs', List.forall_mem_nil _⟩

private theorem onDict (hs : I.Holds w s) {r : DictRef} (a : Dictionary.Action)
    (hr : I.Knows w (.dict r)) (ha : ∀ v ∈ a.given, I.Knows w v) :
    I.Becomes w s (s.heap.modifyDict r fun _ ↦ ((s.heap.dict r).act a).2) [] := by
  obtain ⟨w', hle, hs', -⟩ := I.operate (.onDict r a) hs (List.forall_mem_cons.mpr ⟨hr, ha⟩)
  exact ⟨w', hle, hs', List.forall_mem_nil _⟩

private theorem set (hs : I.Holds w s) {r : DictRef} (key : Key) (hr : I.Knows w (.dict r))
    (hv : I.Knows w v) : I.Becomes w s (s.heap.modifyDict r (·.set key v)) [] := by
  rw [Heap.modifyDict_eq]
  exact onDict hs (.set key v) hr (List.forall_mem_singleton.mpr hv)

private theorem newDict (hs : I.Holds w s) (pairs : List (Key × Value))
    (hpairs : ∀ p ∈ pairs, I.Knows w p.2) :
    let d : Dictionary := pairs.foldl (fun d (key, v) ↦ d.set key v) {}
    I.Becomes w s (s.heap.newDict d).2 [.dict (s.heap.newDict d).1] := by
  -- The entries of a new dictionary may as well be written into it one after the other.
  have hfold (d : Dictionary)
      (hd : I.Becomes w s (s.heap.newDict d).2 [.dict (s.heap.newDict d).1]) :
      I.Becomes w s (s.heap.newDict (pairs.foldl (fun d (key, v) ↦ d.set key v) d)).2
        [.dict (s.heap.newDict d).1] := by
    induction pairs generalizing d with
    | nil => exact hd
    | cons p pairs ih =>
      obtain ⟨hp, hpairs⟩ := List.forall_mem_cons.mp hpairs
      apply ih hpairs (d.set p.1 p.2)
      refine hd.bind fun hle hs' hr ↦ ?_
      have hset := set hs' p.1 (hr _ List.mem_cons_self) (I.mono hle hp)
      rw [Heap.modifyDict_newDict] at hset
      obtain ⟨w', hle', hs'', -⟩ := hset
      exact ⟨w', hle', hs'', fun v hv ↦ I.mono hle' (hr v hv)⟩
  apply hfold {}
  obtain ⟨w', hle, hs', hmade⟩ := I.operate .newDict hs (List.forall_mem_nil _)
  exact ⟨w', hle, hs', List.forall_mem_singleton.mpr (hmade _ rfl)⟩

private theorem copyDict (hs : I.Holds w s) {r : DictRef} (hr : I.Knows w (.dict r)) :
    let copy := s.heap.newDict (s.heap.dict r)
    I.Becomes w s copy.2 [.dict copy.1] := by
  obtain ⟨w', hle, hs', hmade⟩ := I.operate (.copyDict r) hs (List.forall_mem_singleton.mpr hr)
  exact ⟨w', hle, hs', List.forall_mem_singleton.mpr (hmade _ rfl)⟩

private theorem write (hs : I.Holds w s) {c key : Value} (hc : I.Knows w c) (hv : I.Knows w v)
    (written : s.heap.write c key v = .ok k) : I.Becomes w s k [] := by
  rcases Heap.write_cases written with ⟨r, i, rfl, rfl⟩ | ⟨r, key', rfl, rfl⟩
  · refine modifyArray hs hc fun u hu ↦ ?_
    rw [Array.mem_toList_iff] at hu
    rcases Array.mem_or_eq_of_mem_setIfInBounds hu with hu | rfl
    · exact elements hs hc u (Array.mem_toList_iff.mpr hu)
    · exact hv
  · exact set hs key' hc hv

private theorem emptied (hs : I.Holds w s) {c : Container} (hc : I.Knows w c.handle) :
    I.Becomes w s (s.heap.emptied c) [] := by
  cases c with
  | array r => exact modifyArray hs hc (List.forall_mem_nil _)
  | dict r =>
    rw [Heap.emptied, Heap.modifyDict_eq]
    exact onDict hs .clear hc (List.forall_mem_nil _)

private theorem wrapInArrays (n : Nat) (hs : I.Holds w s) (hv : I.Knows w v) :
    I.Becomes w s (Heap.wrapInArrays n v s.heap).2 [(Heap.wrapInArrays n v s.heap).1] := by
  induction n generalizing w s v with
  | zero => exact refl hs (List.forall_mem_singleton.mpr hv)
  | succ n ih =>
    refine (newArray hs (List.forall_mem_singleton.mpr hv)).bind fun _ hs' hr ↦ ?_
    exact ih hs' (hr _ List.mem_cons_self)

private theorem wrapInDicts (n : Nat) (hs : I.Holds w s) (hv : I.Knows w v) :
    I.Becomes w s (Heap.wrapInDicts n v s.heap).2 [(Heap.wrapInDicts n v s.heap).1] := by
  induction n generalizing w s v with
  | zero => exact refl hs (List.forall_mem_singleton.mpr hv)
  | succ n ih =>
    have hnew := newDict hs [(.str "k", v)] (List.forall_mem_singleton.mpr hv)
    exact hnew.bind fun _ hs' hr ↦ ih hs' (hr _ List.mem_cons_self)

mutual

/-- A value that is written down can be built, and is known then. -/
theorem build (l : Literal) {w : W} {s : Session} {h : Heap} {v : Value} (hs : I.Holds w s)
    (hb : l.build s.registers s.heap = .ok (v, h)) : I.Becomes w s h [v] := by
  match l with
  | .none | .bool b | .int n | .str t =>
    cases hb
    exact refl hs (List.forall_mem_singleton.mpr (I.scalar w rfl))
  | .register name =>
    cases hb
    refine refl hs (List.forall_mem_singleton.mpr ?_)
    rw [Std.TreeMap.getD_eq_getD_getElem?]
    cases hr : s.registers[name]? with
    | some v => exact I.kept hs hr
    | none => exact I.scalar w rfl
  | .array elements =>
    rw [Literal.build] at hb
    obtain ⟨⟨vs, h₁⟩, hvs, hr⟩ := Except.exists_of_bind_eq_ok hb
    cases hr
    exact (buildAll elements hs hvs).bind fun _ hs' hvs ↦ newArray hs' hvs
  | .dict entries =>
    rw [Literal.build] at hb
    obtain ⟨⟨d, h₁⟩, hd, hr⟩ := Except.exists_of_bind_eq_ok hb
    cases hr
    obtain ⟨pairs, rfl, hpairs⟩ := buildEntries entries hs hd
    exact hpairs.bind fun _ hs' hvs ↦ newDict hs' pairs (List.forall_mem_map.mp hvs)
  | .inArrays count inner =>
    rw [Literal.build] at hb
    obtain ⟨⟨u, h₁⟩, hu, hr⟩ := Except.exists_of_bind_eq_ok hb
    obtain ⟨rfl, rfl⟩ : v = (Heap.wrapInArrays count u h₁).1 ∧
        h = (Heap.wrapInArrays count u h₁).2 := Prod.ext_iff.mp (Except.ok.inj hr).symm
    exact (build inner hs hu).bind fun _ hs' hv ↦
      wrapInArrays count hs' (hv _ List.mem_cons_self)
  | .inDicts count inner =>
    rw [Literal.build] at hb
    obtain ⟨⟨u, h₁⟩, hu, hr⟩ := Except.exists_of_bind_eq_ok hb
    obtain ⟨rfl, rfl⟩ : v = (Heap.wrapInDicts count u h₁).1 ∧
        h = (Heap.wrapInDicts count u h₁).2 := Prod.ext_iff.mp (Except.ok.inj hr).symm
    exact (build inner hs hu).bind fun _ hs' hv ↦
      wrapInDicts count hs' (hv _ List.mem_cons_self)

/-- So can values one after the other. -/
theorem buildAll (ls : List Literal) {w : W} {s : Session} {h : Heap} {vs : List Value}
    (hs : I.Holds w s) (hb : Literal.buildAll s.registers ls s.heap = .ok (vs, h)) :
    I.Becomes w s h vs := by
  match ls with
  | [] =>
    cases hb
    exact refl hs (List.forall_mem_nil _)
  | l :: ls =>
    rw [Literal.buildAll] at hb
    obtain ⟨⟨v, h₁⟩, hv, hr⟩ := Except.exists_of_bind_eq_ok hb
    obtain ⟨⟨vs', h₂⟩, hvs, hr⟩ := Except.exists_of_bind_eq_ok hr
    cases hr
    refine (build l hs hv).bind fun _ hs' hv ↦ ?_
    obtain ⟨w', hle, hs'', hvs⟩ := buildAll ls hs' hvs
    exact ⟨w', hle, hs'', List.forall_mem_cons.mpr ⟨I.mono hle (hv _ List.mem_cons_self), hvs⟩⟩

/-- So can the entries of a dictionary, which are written one after the other. -/
theorem buildEntries (entries : List (Literal × Literal)) {w : W} {s : Session} {h : Heap}
    {d d' : Dictionary} (hs : I.Holds w s)
    (hb : Literal.buildEntries s.registers entries d s.heap = .ok (d', h)) :
    ∃ pairs : List (Key × Value), d' = pairs.foldl (fun d (key, v) ↦ d.set key v) d ∧
      I.Becomes w s h (pairs.map (·.2)) := by
  match entries with
  | [] =>
    cases hb
    exact ⟨[], rfl, refl hs (List.forall_mem_nil _)⟩
  | (key, value) :: entries =>
    rw [Literal.buildEntries] at hb
    obtain ⟨⟨a, h₁⟩, ha, hr⟩ := Except.exists_of_bind_eq_ok hb
    obtain ⟨⟨v, h₂⟩, hv, hr⟩ := Except.exists_of_bind_eq_ok hr
    cases hk : dictKey a with
    | error cause =>
      simp only [hk] at hr
      cases hr
    | ok key' =>
      simp only [hk] at hr
      obtain ⟨w₁, hle₁, hs₁, -⟩ := build key hs ha
      obtain ⟨w₂, hle₂, hs₂, hknown⟩ := build value hs₁ hv
      obtain ⟨pairs, rfl, w', hle, hs', hpairs⟩ := buildEntries entries hs₂ hr
      refine ⟨(key', v) :: pairs, rfl, w', (hle₁.trans hle₂).trans hle, hs', ?_⟩
      exact List.forall_mem_cons.mpr ⟨I.mono hle (hknown _ List.mem_cons_self), hpairs⟩

end

private theorem stepRelease {r : Release} (hs : I.Holds w { s with heap := r.heap })
    (hp : ∀ v ∈ r.pending, I.Knows w v) :
    I.Becomes w { s with heap := r.heap } r.step.heap r.step.pending := by
  unfold Release.step
  split
  · exact refl hs hp
  · next v rest hrest =>
    rw [hrest] at hp
    obtain ⟨hv, hrest⟩ := List.forall_mem_cons.mp hp
    split
    · exact refl hs hrest
    · next c hc =>
      rw [Value.container?_eq_some_iff] at hc
      rw [hc] at hv
      split
      · obtain ⟨w', hle, hs', -⟩ := emptied hs hv
        refine ⟨w', hle, hs', fun u hu ↦ I.mono hle ?_⟩
        rcases List.mem_append.mp hu with hu | hu
        · exact I.held hs hv (List.mem_reverse.mp hu)
        · exact hrest u hu
      · exact refl hs hrest

private theorem stepsRelease (n : Nat) {r : Release} (hs : I.Holds w { s with heap := r.heap })
    (hp : ∀ v ∈ r.pending, I.Knows w v) :
    I.Becomes w { s with heap := r.heap } (r.steps n).heap [] := by
  induction n generalizing w r with
  | zero => exact refl hs (List.forall_mem_nil _)
  | succ n ih => exact (stepRelease hs hp).bind fun _ hs' hp' ↦ ih hs' hp'

private theorem release (hs : I.Holds w s) (roots : List Value) (hvs : ∀ v ∈ vs, I.Knows w v) :
    I.Becomes w s (Release.start s.heap roots vs).run.heap [] :=
  stepsRelease _ hs fun v hv ↦ hvs v (List.mem_reverse.mp hv)

end Becomes
end Invariant
end Session

namespace SessionM

variable {W : Type} [Preorder W] {I : Session.Invariant W} {w : W} {s : Session} {α β : Type}
  {Q : W → α → Prop} {R : W → β → Prop}

/-- If a step is carried out, a world holds in which something is true of what comes of it. -/
def Ensures (I : Session.Invariant W) (w : W) (s : Session) (x : SessionM α)
    (Q : W → α → Prop) : Prop :=
  ∀ a s', x s = .ok (a, s') → ∃ w', w ≤ w' ∧ I.Holds w' s' ∧ Q w' a

/-- If a step is carried out, a world holds. -/
abbrev Keeps (I : Session.Invariant W) (w : W) (s : Session) (x : SessionM α) : Prop :=
  Ensures I w s x fun _ _ ↦ True

private theorem ensures_pure (hs : I.Holds w s) {a : α} (ha : Q w a) :
    Ensures I w s (pure a) Q := by
  intro _ _ h
  cases h
  exact ⟨w, le_refl w, hs, ha⟩

private theorem keeps_pure (hs : I.Holds w s) (a : α) : Keeps I w s (pure a) :=
  ensures_pure hs trivial

private theorem ensures_throw (e : Option ScriptError) :
    Ensures I w s (throw e : SessionM α) Q := by
  intro _ _ h
  cases h

private theorem Ensures.bind {x : SessionM α} {f : α → SessionM β} (hx : Ensures I w s x Q)
    (hf : ∀ {w' a s'}, w ≤ w' → I.Holds w' s' → Q w' a → Ensures I w' s' (f a) R) :
    Ensures I w s (x >>= f) R := by
  intro b s₂ h
  obtain ⟨⟨a, s₁⟩, ha, hb⟩ := Except.exists_of_bind_eq_ok (x := x s) h
  obtain ⟨w', hle, hs', hq⟩ := hx a s₁ ha
  obtain ⟨w'', hle', hs'', hr⟩ := hf hle hs' hq b s₂ hb
  exact ⟨w'', hle.trans hle', hs'', hr⟩

private theorem Ensures.bind_pure {x : SessionM α} {f : α → β} (hx : Ensures I w s x Q) :
    Keeps I w s (x >>= fun a ↦ pure (f a)) := hx.bind fun _ hs _ ↦ keeps_pure hs _

private theorem Ensures.get {f : Session → SessionM β} (hf : Ensures I w s (f s) R) :
    Ensures I w s (get >>= f) R := hf

private theorem Ensures.modify {f : Session → Session} {x : SessionM β}
    (hx : Ensures I w (f s) x R) : Ensures I w s (modify f >>= fun _ ↦ x) R := hx

private theorem keeps_beside (hs : I.Holds w s) {f : Session → Session}
    (heap : (f s).heap = s.heap) (registers : (f s).registers = s.registers)
    (evaluators : (f s).evaluators = s.evaluators) (a : α) :
    Keeps I w s (modify f >>= fun _ ↦ pure a) :=
  Ensures.modify (keeps_pure (I.beside hs heap registers evaluators) a)

private theorem Ensures.modifyHeap {f : Heap → Heap} {vs : List Value} {x : SessionM β}
    (hf : I.Becomes w s (f s.heap) vs)
    (hx : ∀ {w'}, I.Holds w' { s with heap := f s.heap } → (∀ v ∈ vs, I.Knows w' v) →
      Ensures I w' { s with heap := f s.heap } x R) :
    Ensures I w s (modifyHeap f >>= fun _ ↦ x) R := by
  obtain ⟨w', hle, hs', hvs⟩ := hf
  intro b s₂ h
  obtain ⟨w'', hle', hs'', hr⟩ := hx hs' hvs b s₂ h
  exact ⟨w'', hle.trans hle', hs'', hr⟩

private theorem ensures_lift (hs : I.Holds w s) (l : Location) {x : Except Cause α}
    (hx : ∀ a, x = .ok a → Q w a) : Ensures I w s (lift l x) Q := by
  cases x with
  | ok a => exact ensures_pure hs (hx a rfl)
  | error cause => exact ensures_throw _

private theorem ensures_value (hs : I.Holds w s) (l : Literal) :
    Ensures I w s (value l) I.Knows := by
  apply Ensures.get
  cases hb : l.build s.registers s.heap with
  | error e => exact ensures_throw _
  | ok p =>
    obtain ⟨w', hle, hs', hv⟩ := Session.Invariant.Becomes.build l hs hb
    intro _ _ h
    cases h
    exact ⟨w', hle, hs', hv _ List.mem_cons_self⟩

private theorem ensures_mapM {f : α → SessionM β}
    (hf : ∀ {w s}, I.Holds w s → ∀ a, Ensures I w s (f a) R)
    (hR : ∀ {w w' b}, w ≤ w' → R w b → R w' b) (hs : I.Holds w s) (as : List α) :
    Ensures I w s (as.mapM f) fun w bs ↦ ∀ b ∈ bs, R w b := by
  induction as generalizing w s with
  | nil => exact ensures_pure hs (List.forall_mem_nil _)
  | cons a as ih =>
    rw [List.mapM_cons]
    refine (hf hs a).bind fun _ hs' hb ↦ (ih hs').bind fun hle hs'' hbs ↦ ?_
    exact ensures_pure hs'' (List.forall_mem_cons.mpr ⟨hR hle hb, hbs⟩)

private theorem ensures_array (hs : I.Holds w s) (l : Literal) :
    Ensures I w s (array l) fun w r ↦ I.Knows w (.array r) := by
  refine (ensures_value hs l).bind fun {_ v _} _ hs' hv ↦ ?_
  cases v with
  | array r => exact ensures_pure hs' hv
  | _ => exact ensures_throw _

private theorem ensures_dict (hs : I.Holds w s) (l : Literal) :
    Ensures I w s (dict l) fun w r ↦ I.Knows w (.dict r) := by
  refine (ensures_value hs l).bind fun {_ v _} _ hs' hv ↦ ?_
  cases v with
  | dict r => exact ensures_pure hs' hv
  | _ => exact ensures_throw _

private theorem keeps_key (hs : I.Holds w s) (l : Literal) : Keeps I w s (key l) :=
  (ensures_value hs l).bind fun _ hs' _ ↦ ensures_lift hs' _ fun _ _ ↦ trivial

private theorem keeps_debugText (hs : I.Holds w s) (v : Value) : Keeps I w s (debugText v) :=
  Ensures.get (keeps_pure hs _)

private theorem keeps_status (hs : I.Holds w s) (r : DictRef) : Keeps I w s (status r) :=
  Ensures.get (keeps_pure hs _)

private theorem keeps_answer (hs : I.Holds w s) (into : Option Bytes) {v : Value}
    (hv : I.Knows w v) : Keeps I w s (answer into v) := by
  cases into with
  | none => exact (keeps_debugText hs v).bind_pure
  | some r => exact (keeps_debugText (I.keep r hs hv) v).bind_pure

private theorem keeps_scopeNamed (hs : I.Holds w s) (name : Bytes) :
    Keeps I w s (scopeNamed name) := by
  refine Ensures.get ?_
  split
  · exact keeps_pure hs _
  · exact ensures_throw _

end SessionM

open SessionM Session.Invariant

section Requests

variable {W : Type} [Preorder W] {I : Session.Invariant W} {w : W} {s : Session}

namespace ValueOperation

private theorem keeps_operator (hs : I.Holds w s) (a b : Literal) (l : Location)
    (into : Option Bytes) (f : Heap → Value → Value → Except Cause Value)
    (hf : ∀ h x y v, f h x y = .ok v → v.container? = none) :
    Keeps I w s (do
      let x ← value a
      let y ← value b
      answer into (← lift l (f (← get).heap x y))) := by
  refine (ensures_value hs a).bind fun _ hs _ ↦ (ensures_value hs b).bind fun _ hs _ ↦ ?_
  refine Ensures.get ?_
  refine (ensures_lift hs l fun v hv ↦ I.scalar _ (hf _ _ _ v hv)).bind fun _ hs hv ↦ ?_
  exact keeps_answer hs into hv

private theorem keeps_read (hs : I.Holds w s) (container k : Literal) (l : Location)
    (into : Option Bytes) : Keeps I w s (ValueOperation.read container k l into).run := by
  refine (ensures_value hs container).bind fun _ hs hc ↦ ?_
  refine (ensures_value hs k).bind fun hle hs hk ↦ Ensures.get ?_
  refine (ensures_lift hs l fun v ↦ I.read hs (I.mono hle hc) hk).bind fun _ hs hv ↦ ?_
  exact keeps_answer hs into hv

private theorem keeps_write (hs : I.Holds w s) (container k v : Literal) (l : Location) :
    Keeps I w s (ValueOperation.write container k v l).run := by
  refine (ensures_value hs container).bind fun {_ c _} _ hs hc ↦ ?_
  refine (ensures_value hs k).bind fun {_ k _} hle hs _ ↦ ?_
  refine (ensures_value hs v).bind fun {_ v s} hle' hs hv ↦ Ensures.get ?_
  cases hw : s.heap.write c k v with
  | ok heap =>
    refine Ensures.modifyHeap (.write hs (I.mono (hle.trans hle') hc) hv hw) fun hs _ ↦ ?_
    exact (keeps_debugText hs c).bind_pure
  | error cause => exact (keeps_debugText hs c).bind_pure

private theorem keeps_startWalk (hs : I.Holds w s) (name : Bytes) (v : Literal) (l : Location) :
    Keeps I w s (startWalk name v l).run := by
  refine (ensures_value hs v).bind fun _ hs _ ↦ Ensures.get ?_
  split
  · exact keeps_beside hs rfl rfl rfl _
  · exact ensures_throw _

private theorem keeps_nextVisit (hs : I.Holds w s) (name : Bytes) :
    Keeps I w s (nextVisit name).run := by
  refine Ensures.get ?_
  split
  · exact ensures_throw _
  · exact keeps_beside hs rfl rfl rfl _

private theorem keeps_walk (hs : I.Holds w s) (v : Literal) (l : Location) :
    Keeps I w s (walk v l).run := by
  refine (ensures_value hs v).bind fun _ hs _ ↦ Ensures.get ?_
  dsimp only
  split
  · exact keeps_pure hs _
  · exact ensures_throw _

private theorem keeps_push (hs : I.Holds w s) (array v : Literal) :
    Keeps I w s (push array v).run := by
  refine (ensures_array hs array).bind fun _ hs hr ↦ ?_
  refine (ensures_value hs v).bind fun hle hs hv ↦ ?_
  refine Ensures.modifyHeap (.modifyArray hs (I.mono hle hr) fun u hu ↦ ?_) fun hs _ ↦
    Ensures.get (keeps_pure hs _)
  rw [Array.toList_push, List.mem_append, List.mem_singleton] at hu
  rcases hu with hu | rfl
  · exact elements hs (I.mono hle hr) u hu
  · exact hv

private theorem keeps_resize (hs : I.Holds w s) (array : Literal) (length : Nat) :
    Keeps I w s (resize array length).run := by
  refine (ensures_array hs array).bind fun _ hs hr ↦ ?_
  refine Ensures.modifyHeap (.modifyArray hs hr fun u hu ↦ ?_) fun hs _ ↦
    Ensures.get (keeps_pure hs _)
  rw [Array.toList_append, List.mem_append, Array.toList_replicate] at hu
  rcases hu with hu | hu
  · rw [Array.take_eq_extract, Array.toList_extract] at hu
    exact elements hs hr u (List.mem_of_mem_drop (List.mem_of_mem_take hu))
  · rw [List.eq_of_mem_replicate hu]
    exact I.scalar _ rfl

private theorem keeps_copyArray (hs : I.Holds w s) (array : Literal) (into : Option Bytes) :
    Keeps I w s (copyArray array into).run := by
  refine (ensures_array hs array).bind fun {_ r s} _ hs hr ↦ Ensures.get (Ensures.get ?_)
  refine Ensures.modifyHeap (.newArray hs (elements hs hr)) fun hs hnew ↦ ?_
  exact keeps_answer hs into (hnew _ List.mem_cons_self)

private theorem keeps_copyDict (hs : I.Holds w s) (dict : Literal) (into : Option Bytes) :
    Keeps I w s (copyDict dict into).run := by
  refine (ensures_dict hs dict).bind fun _ hs hr ↦ Ensures.get (Ensures.get ?_)
  refine Ensures.modifyHeap (.copyDict hs hr) fun hs hnew ↦ ?_
  exact keeps_answer hs into (hnew _ List.mem_cons_self)

private theorem keeps_setKey (hs : I.Holds w s) (dict k v : Literal) :
    Keeps I w s (setKey dict k v).run := by
  refine (ensures_dict hs dict).bind fun _ hs hr ↦ (keeps_key hs k).bind fun {_ k _} hle hs _ ↦ ?_
  refine (ensures_value hs v).bind fun {_ v _} hle' hs hv ↦ Ensures.get ?_
  have hset := Becomes.onDict hs (.set k v) (I.mono (hle.trans hle') hr)
    (List.forall_mem_singleton.mpr hv)
  exact Ensures.modifyHeap hset fun hs _ ↦ (keeps_status hs _).bind_pure

private theorem keeps_removeKey (hs : I.Holds w s) (dict k : Literal) (quiet : Bool) :
    Keeps I w s (removeKey dict k quiet).run := by
  refine (ensures_dict hs dict).bind fun {_ r _} _ hs hr ↦ ?_
  refine (keeps_key hs k).bind fun {_ k s} hle hs _ ↦ Ensures.get ?_
  have hremove := Becomes.onDict hs (.remove k true) (I.mono hle hr) (List.forall_mem_nil _)
  have hrest : (((s.heap.dict r).remove? k).getD (.none, s.heap.dict r)).2 =
      ((s.heap.dict r).act (.remove k true)).2 := by
    rw [Dictionary.act]
    cases (s.heap.dict r).remove? k <;> rfl
  rw [← hrest] at hremove
  refine Ensures.modifyHeap hremove fun hs _ ↦ (keeps_debugText hs _).bind fun _ hs _ ↦ ?_
  exact (keeps_status hs _).bind_pure

private theorem keeps_findKey (hs : I.Holds w s) (dict k : Literal) :
    Keeps I w s (findKey dict k).run := by
  refine (ensures_dict hs dict).bind fun _ hs _ ↦ (keeps_key hs k).bind fun _ hs _ ↦ ?_
  refine Ensures.get ?_
  dsimp only
  split
  · exact (keeps_debugText hs _).bind_pure
  · exact keeps_pure hs _

private theorem keeps_overwriteKey (hs : I.Holds w s) (dict k v : Literal) :
    Keeps I w s (overwriteKey dict k v).run := by
  refine (ensures_dict hs dict).bind fun _ hs hr ↦ (keeps_key hs k).bind fun {_ k _} hle hs _ ↦ ?_
  refine (ensures_value hs v).bind fun {_ v _} hle' hs hv ↦ Ensures.get ?_
  have hset := Becomes.onDict hs (.overwrite k v) (I.mono (hle.trans hle') hr)
    (List.forall_mem_singleton.mpr hv)
  rw [Dictionary.act, ← Heap.modifyDict_eq _ _ (·.overwrite k v)] at hset
  exact Ensures.modifyHeap hset fun hs _ ↦ (keeps_status hs _).bind_pure

private theorem keeps_reserve (hs : I.Holds w s) (dict : Literal) (room : Nat) :
    Keeps I w s (reserve dict room).run := by
  refine (ensures_dict hs dict).bind fun _ hs hr ↦ ?_
  have hroom := Becomes.onDict hs (.reserve room) hr (List.forall_mem_nil _)
  rw [Dictionary.act, ← Heap.modifyDict_eq _ _ (·.reserve room)] at hroom
  exact Ensures.modifyHeap hroom fun hs _ ↦ (keeps_status hs _).bind_pure

private theorem keeps_takeValues (hs : I.Holds w s) (dict : Literal) :
    Keeps I w s (takeValues dict).run := by
  refine (ensures_dict hs dict).bind fun _ hs hr ↦ Ensures.get ?_
  have htake := Becomes.onDict hs (.takeValues []) hr (List.forall_mem_nil _)
  refine Ensures.modifyHeap htake fun hs _ ↦ ?_
  refine (ensures_mapM keeps_debugText (fun _ h ↦ h) hs _).bind fun _ hs _ ↦ ?_
  exact (keeps_status hs _).bind_pure

private theorem keeps_release (hs : I.Holds w s) (vs : List Literal) (registers : List Bytes) :
    Keeps I w s (release vs registers).run := by
  have herased {w : W} {s : Session} (hs : I.Holds w s) :
      I.Holds w { s with registers := registers.foldl (·.erase ·) s.registers } := by
    induction registers generalizing s with
    | nil => exact hs
    | cons r registers ih => exact ih (I.drop r hs)
  refine (ensures_mapM ensures_value I.mono hs vs).bind fun _ hs hvs ↦ ?_
  refine Ensures.modify (Ensures.get ?_)
  exact Ensures.modifyHeap (.release (herased hs) _ hvs) fun hs _ ↦ keeps_pure hs _

/-- Whatever is done with values, the invariant goes on holding. -/
theorem keeps_run (op : ValueOperation) (hs : I.Holds w s) : Keeps I w s op.run := by
  cases op with
  | set register v =>
    exact (ensures_value hs v).bind fun _ hs hv ↦ keeps_answer hs (some register) hv
  | drop register => exact Ensures.get (Ensures.modify (keeps_pure (I.drop register hs) _))
  | describe v =>
    exact (ensures_value hs v).bind fun _ hs _ ↦ Ensures.get (keeps_pure hs _)
  | read container k l into => exact keeps_read hs container k l into
  | write container k v l => exact keeps_write hs container k v l
  | add a b l into =>
    exact keeps_operator hs a b l into Heap.add fun _ _ _ _ ↦ Heap.container?_of_add
  | binary op a b l into =>
    exact keeps_operator hs a b l into (·.binary op)
      fun _ _ _ _ ↦ Heap.container?_of_binary
  | unary op v l into =>
    refine (ensures_value hs v).bind fun _ hs _ ↦ ?_
    refine (ensures_lift hs l fun _ hv ↦ I.scalar _ (Value.container?_of_unary hv)).bind ?_
    exact fun _ hs hv ↦ keeps_answer hs into hv
  | equals a b =>
    exact (ensures_value hs a).bind fun _ hs _ ↦ (ensures_value hs b).bind_pure
  | asKey v l into =>
    refine (ensures_value hs v).bind fun _ hs _ ↦ ?_
    refine (ensures_lift (Q := fun _ _ ↦ True) hs l fun _ _ ↦ trivial).bind
      fun {_ k _} _ hs _ ↦ ?_
    exact keeps_answer hs into (I.scalar _ (by cases k <;> rfl))
  | startWalk name v l => exact keeps_startWalk hs name v l
  | nextVisit name => exact keeps_nextVisit hs name
  | walk v l => exact keeps_walk hs v l
  | push array v => exact keeps_push hs array v
  | resize array length => exact keeps_resize hs array length
  | copyArray array into => exact keeps_copyArray hs array into
  | copyDict dict into => exact keeps_copyDict hs dict into
  | setKey dict k v => exact keeps_setKey hs dict k v
  | removeKey dict k quiet => exact keeps_removeKey hs dict k quiet
  | findKey dict k => exact keeps_findKey hs dict k
  | overwriteKey dict k v => exact keeps_overwriteKey hs dict k v
  | keys dict => exact (ensures_dict hs dict).bind fun _ hs _ ↦ Ensures.get (keeps_pure hs _)
  | slots dict =>
    exact (ensures_dict hs dict).bind fun _ hs _ ↦ Ensures.get (keeps_status hs _).bind_pure
  | clear dict =>
    refine (ensures_dict hs dict).bind fun {_ r _} _ hs hr ↦ ?_
    refine Ensures.modifyHeap (Becomes.emptied hs (c := .dict r) hr) fun hs _ ↦ ?_
    exact (keeps_status hs _).bind_pure
  | reserve dict room => exact keeps_reserve hs dict room
  | takeValues dict => exact keeps_takeValues hs dict
  | release vs registers => exact keeps_release hs vs registers

end ValueOperation

/-- So it does whatever is done with the scopes of the host. -/
theorem ScopeOperation.keeps_run (op : ScopeOperation) (hs : I.Holds w s) :
    Keeps I w s op.run := by
  cases op with
  | enter name parent =>
    cases parent with
    | none => exact keeps_beside hs rfl rfl rfl _
    | some p =>
      refine Ensures.bind (x := some <$> scopeNamed p) (Q := fun _ _ ↦ True) ?_ ?_
      · rw [map_eq_pure_bind]
        exact (keeps_scopeNamed hs p).bind_pure
      · exact fun _ hs _ ↦ keeps_beside hs rfl rfl rfl _
  | bind scope name v =>
    refine (keeps_scopeNamed hs scope).bind fun _ hs _ ↦ ?_
    refine (ensures_value hs v).bind fun _ hs _ ↦ ?_
    exact keeps_beside hs rfl rfl rfl _
  | assign scope name v l =>
    refine (keeps_scopeNamed hs scope).bind fun _ hs _ ↦ ?_
    refine (ensures_value hs v).bind fun _ hs _ ↦ Ensures.get ?_
    split
    · exact keeps_beside hs rfl rfl rfl _
    · exact ensures_throw _
  | lookup scope name l =>
    exact (keeps_scopeNamed hs scope).bind fun _ hs _ ↦ Ensures.get (keeps_pure hs _)

namespace Session

variable {name : Bytes} {op : EvaluatorOperation} {ev : Evaluator}

/-- What the host is shown of a result. -/
def shown (h : Heap) : EvaluatorOperation.Result → Answer
  | .value v => .value (h.debugText v)
  | .answer a => a

/-- The reply to an operation on an evaluator. -/
def replyTo (o : Outcome EvaluatorOperation.Result) : Reply :=
  .evaluated (o.result.map (shown o.heap)) o.output o.evaluator.depth

/-- What is kept in the registers after an operation on an evaluator. -/
def keptAfter (s : Session) (op : EvaluatorOperation) (o : Outcome EvaluatorOperation.Result) :
    Std.TreeMap Bytes Value :=
  match o.result, op.into with
  | .ok (.value v), some register => s.registers.insert register v
  | _, _ => s.registers

/-- A request to an evaluator that the session does not have. -/
theorem stepEvaluator_of_none (hev : s.evaluators[name]? = none) :
    s.stepEvaluator name op = (.misfit, s) := by
  simp only [stepEvaluator, hev]

/-- A request with values that cannot be built. -/
theorem stepEvaluator_of_error (hev : s.evaluators[name]? = some ev) {e : ScriptError}
    (hb : Literal.buildAll s.registers op.literals s.heap = .error e) :
    s.stepEvaluator name op = (.evaluated (.error (.error e)) [] ev.depth, s) := by
  simp only [stepEvaluator, hev, hb]

/-- Any other request is carried out. -/
theorem stepEvaluator_of_ok (hev : s.evaluators[name]? = some ev) {vs : List Value} {h : Heap}
    (hb : Literal.buildAll s.registers op.literals s.heap = .ok (vs, h)) :
    s.stepEvaluator name op =
      let o := op.perform ev h vs
      (replyTo o, { s with
        heap := o.heap
        evaluators := s.evaluators.insert name o.evaluator
        registers := s.keptAfter op o }) := by
  simp only [stepEvaluator, hev, hb, replyTo, keptAfter]
  -- The outcome itself plays no part, and nothing should try to compute it.
  generalize op.perform ev h vs = o
  cases o.result with
  | error stop => rfl
  | ok result =>
    cases result with
    | answer a => rfl
    | value v => cases op.into <;> rfl

namespace Invariant

private theorem stepEvaluator (hs : I.Holds w s) (name : Bytes) (op : EvaluatorOperation) :
    ∃ w', w ≤ w' ∧ I.Holds w' (s.stepEvaluator name op).2 := by
  cases hev : s.evaluators[name]? with
  | none =>
    rw [stepEvaluator_of_none hev]
    exact ⟨w, le_refl w, hs⟩
  | some ev =>
    cases hb : Literal.buildAll s.registers op.literals s.heap with
    | error e =>
      rw [stepEvaluator_of_error hev hb]
      exact ⟨w, le_refl w, hs⟩
    | ok p =>
      obtain ⟨vs, h⟩ := p
      obtain ⟨w₁, hle, hs₁, hvs⟩ := Becomes.buildAll op.literals hs hb
      obtain ⟨w', hle', hs', hv⟩ := I.perform op hs₁ hev hvs
      rw [stepEvaluator_of_ok hev hb]
      refine ⟨w', hle.trans hle', ?_⟩
      simp only [keptAfter] at hs' hv ⊢
      generalize op.perform ev h vs = o at hs' hv ⊢
      split
      · next v register hr _ => exact I.keep register hs' (hv v hr)
      · exact hs'

private theorem stepWhole (hs : I.Holds w s) {action : SessionM Answer}
    (ha : Keeps I w s action) : ∃ w', w ≤ w' ∧ I.Holds w' (s.stepWhole action).2 := by
  rw [Session.stepWhole]
  cases hr : action s with
  | ok p =>
    obtain ⟨w', hle, hs', -⟩ := ha p.1 p.2 hr
    exact ⟨w', hle, hs'⟩
  | error e => cases e <;> exact ⟨w, le_refl w, hs⟩

/-- Every operation keeps an invariant. -/
theorem step (hs : I.Holds w s) (op : Operation) :
    ∃ w', w ≤ w' ∧ I.Holds w' (s.step op).2 := by
  cases op with
  | value op => exact stepWhole hs (op.keeps_run hs)
  | scope op => exact stepWhole hs (op.keeps_run hs)
  | newEvaluator name maxDepth => exact ⟨w, le_refl w, I.join name maxDepth hs⟩
  | evaluator name op => exact stepEvaluator hs name op

/-- So does every list of operations. -/
theorem steps (hs : I.Holds w s) (ops : List Operation) :
    ∃ w', w ≤ w' ∧ I.Holds w' (s.steps ops).2 := by
  induction ops generalizing w s with
  | nil => exact ⟨w, le_refl w, hs⟩
  | cons op ops ih =>
    obtain ⟨w₁, hle, hs₁⟩ := step hs op
    obtain ⟨w', hle', hs'⟩ := ih hs₁
    exact ⟨w', hle.trans hle', hs'⟩

/-- What holds of an empty session goes on holding once it is started. -/
theorem steps_start (hempty : I.Holds w {}) (evaluator : Bytes) (maxDepth : Nat)
    (ops : List Operation) : ∃ w', w ≤ w' ∧ I.Holds w' ((start evaluator maxDepth).steps ops).2 :=
  steps (I.join evaluator maxDepth hempty) ops

end Invariant
end Session
end Requests
end Scriptlet
