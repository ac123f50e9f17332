import Mathlib.Data.Nat.Digits.Defs
import Scriptlet.CommandLine.Options

/-!
# The grammar of the command line

A command line is a row of items: options, a depth together with its value, and names of samples.
It is accepted if all its items fit, and then the options say what the items say. A refusal keeps
what the items before the refused one say, and its message names that item: the first option that
does not fit, or, if all options fit, the first name that no sample has.
-/

namespace Scriptlet.CommandLine

/-- The spellings of a flag. -/
def Flag.texts : Flag → List Bytes
  | help => ["-h", "--help"]
  | version => ["-v", "--version"]
  | list => ["-l", "--list"]
  | dump => ["--dump-ast"]
  | noColor => ["--no-color"]

/-- Whether a flag is set. -/
def Flag.isSet (o : Options) : Flag → Bool
  | help => o.showHelp
  | version => o.showVersion
  | list => o.listSamples
  | dump => o.dumpProgram
  | noColor => o.noColor

/-- A text that asks for a depth: decimal digits, any number of them, for a number from one to a
million. -/
structure DepthText (text : Bytes) (n : Nat) : Prop where
  nonempty : text ≠ []
  digits : ∀ c ∈ text, 0x30 ≤ c.toNat ∧ c.toNat ≤ 0x39
  value : Nat.ofDigits 10 (text.reverse.map fun c ↦ c.toNat - 0x30) = n
  positive : 1 ≤ n
  bounded : n ≤ 1000000

/-- What stands on a command line. -/
inductive Item where
  | option (spelling : Bytes)
  /-- The option for the depth with its value, which only the end of the line can withhold. -/
  | depth (value : Option Bytes)
  | sample (name : Bytes)

/-- The items of a command line from left to right. The option for the depth takes the argument
after it, whatever that is; behind a double dash every argument is a name. -/
def items : List Bytes → List Item
  | [] => []
  | argument :: rest =>
    if argument = "--" then rest.map .sample
    else if argument = "--max-depth" then
      match rest with
      | [] => [.depth none]
      | value :: rest => .depth (some value) :: items rest
    else if argument.head? = some 0x2D then .option argument :: items rest
    else .sample argument :: items rest

namespace Item

/-- The name in an item. -/
def name? : Item → Option Bytes
  | sample name => some name
  | _ => none

/-- An item in the place of an option. -/
def IsOption (i : Item) : Prop := i.name? = none

/-- An item fits: a known option, a depth in its bounds, the name of a sample. -/
def Fits : Item → Prop
  | option spelling => ∃ f : Flag, spelling ∈ f.texts
  | depth value => ∃ text n, value = some text ∧ DepthText text n
  | sample name => ∃ s : Sample, s.name = name

/-- The words of the command line in an item. -/
def words : Item → List Bytes
  | option spelling => [spelling]
  | depth none => ["--max-depth"]
  | depth (some text) => [text, "--max-depth"]
  | sample name => [name]

/-- The refusal of an item that does not fit. -/
def refusal : Item → Refusal
  | option spelling => .unknownOption spelling
  | depth none => .missingDepth
  | depth (some text) => .invalidDepth text
  | sample name => .unknownSample name

end Item

/-- A refusal concerns an item: it is the one for this item, and its message has each word of it
between quotes. -/
structure Refusal.Concerns (r : Refusal) (i : Item) : Prop where
  refuses : r = i.refusal
  quotes : ∀ word ∈ i.words, ("'" ++ word ++ "'" : Bytes) <:+: r.message

/-- The depth that is given last, and 256 where none is. -/
inductive LastDepth (is : List Item) : Nat → Prop where
  | default (none : ∀ text, .depth (some text) ∉ is) : LastDepth is 256
  | given {before after : List Item} {text : Bytes} {n : Nat}
      (split : is = before ++ .depth (some text) :: after)
      (last : ∀ later, .depth (some later) ∉ after) (value : DepthText text n) : LastDepth is n

/-- Options say exactly what items say. -/
structure Options.Reflects (o : Options) (is : List Item) : Prop where
  flags : ∀ f : Flag, f.isSet o = true ↔ ∃ spelling ∈ f.texts, .option spelling ∈ is
  depth : LastDepth is o.maxDepth
  samples : o.samples = is.filterMap Item.name?

/-- How a command line with these items is answered. -/
inductive Answers (is : List Item) : Options × Option Refusal → Prop where
  | accepted {o : Options} (fit : ∀ i ∈ is, i.Fits) (reflects : o.Reflects is) :
      Answers is (o, none)
  | optionRefused {o : Options} {r : Refusal} {before after : List Item} {i : Item}
      (split : is = before ++ i :: after) (fit : ∀ j ∈ before, j.IsOption → j.Fits)
      (option : i.IsOption) (unfit : ¬ i.Fits) (reflects : o.Reflects before)
      (concerns : r.Concerns i) : Answers is (o, some r)
  | sampleRefused {o : Options} {r : Refusal} {before after : List Item} {i : Item}
      (split : is = before ++ i :: after) (options : ∀ j ∈ is, j.IsOption → j.Fits)
      (fit : ∀ j ∈ before, j.Fits) (unfit : ¬ i.Fits) (reflects : o.Reflects is)
      (concerns : r.Concerns i) : Answers is (o, some r)

section Depth

private theorem isDigit_iff (c : UInt8) :
    Bytes.isDigit c = true ↔ 0x30 ≤ c.toNat ∧ c.toNat ≤ 0x39 := by
  simp only [Bytes.isDigit, Bool.and_eq_true, decide_eq_true_eq, UInt8.le_iff_toNat_le]
  exact Iff.rfl

/-- The number in digits that are read on to the number `n`. -/
private def digitsOnto (n : Nat) (text : Bytes) : Nat :=
  Nat.ofDigits 10 (text.reverse.map fun c ↦ c.toNat - 0x30) + 10 ^ text.length * n

private theorem digitsOnto_cons (n : Nat) (c : UInt8) (text : Bytes) :
    digitsOnto n (c :: text) = digitsOnto (10 * n + (c.toNat - 0x30)) text := by
  simp only [digitsOnto, List.reverse_cons, List.map_append, Nat.ofDigits_append, List.length_map,
    List.length_reverse, List.map_cons, List.map_nil, Nat.ofDigits_singleton, List.length_cons,
    Nat.pow_succ]
  ring

private theorem le_digitsOnto (n : Nat) (text : Bytes) : n ≤ digitsOnto n text :=
  calc n ≤ 10 ^ text.length * n := Nat.le_mul_of_pos_left n (Nat.pow_pos (by decide))
    _ ≤ digitsOnto n text := Nat.le_add_left _ _

private theorem readDepth?_eq_some_iff {n m : Nat} (bound : n ≤ greatestDepth) (text : Bytes) :
    readDepth? n text = some m ↔
      (∀ c ∈ text, 0x30 ≤ c.toNat ∧ c.toNat ≤ 0x39) ∧ digitsOnto n text = m ∧
        m ≤ greatestDepth := by
  induction text generalizing n with
  | nil =>
    have value : digitsOnto n [] = n := by simp [digitsOnto]
    simp only [readDepth?, Option.some.injEq, value, List.not_mem_nil, false_implies,
      implies_true, true_and]
    exact ⟨fun h ↦ ⟨h, h ▸ bound⟩, And.left⟩
  | cons c text ih =>
    rw [digitsOnto_cons, List.forall_mem_cons, ← isDigit_iff, readDepth?]
    by_cases digit : Bytes.isDigit c = true
    · simp only [digit, if_true, true_and]
      split
      next within => exact ih within
      next beyond =>
        have grown := le_digitsOnto (10 * n + (c.toNat - 0x30)) text
        refine iff_of_false nofun ?_
        rintro ⟨-, rfl, low⟩
        exact beyond (grown.trans low)
    · simp only [digit, if_false, false_and, reduceCtorEq]

/-- The depths that can be asked for. -/
theorem depthOfText?_eq_some_iff (text : Bytes) (n : Nat) :
    depthOfText? text = some n ↔ DepthText text n := by
  have value : digitsOnto 0 text =
      Nat.ofDigits 10 (text.reverse.map fun c ↦ c.toNat - 0x30) := by simp [digitsOnto]
  rw [depthOfText?]
  split
  next empty => exact iff_of_false nofun fun h ↦ h.nonempty empty
  next nonempty =>
    rw [Option.filter_eq_some_iff, readDepth?_eq_some_iff (Nat.zero_le _), decide_eq_true_iff,
      value]
    constructor
    · rintro ⟨⟨digits, value, bounded⟩, positive⟩
      exact ⟨nonempty, digits, value, Nat.one_le_iff_ne_zero.mpr positive, bounded⟩
    · rintro ⟨-, digits, value, positive, bounded⟩
      exact ⟨⟨digits, value, bounded⟩, Nat.one_le_iff_ne_zero.mp positive⟩

end Depth

section Steps

/-- The spellings of a flag are told from those of the others. -/
theorem Flag.ofText?_eq_some_iff (t : Bytes) (f : Flag) :
    Flag.ofText? t = some f ↔ t ∈ f.texts := by
  constructor
  · intro h
    obtain ⟨before, after, split, -⟩ := List.lookup_eq_some_iff.mp h
    have listed : (t, f) ∈ spellings := split ▸ List.mem_append_right before List.mem_cons_self
    cases f <;> simpa [spellings, texts] using listed
  · have known : ∀ t ∈ f.texts, Flag.ofText? t = some f := by cases f <;> decide
    exact known t

private theorem Flag.isSet_set (o : Options) (f g : Flag) :
    g.isSet (f.set o) = true ↔ g.isSet o = true ∨ g = f := by
  cases f <;> cases g <;> simp [Flag.set, Flag.isSet]

private theorem Flag.maxDepth_set (o : Options) (f : Flag) : (f.set o).maxDepth = o.maxDepth := by
  cases f <;> rfl

private theorem Flag.samples_set (o : Options) (f : Flag) : (f.set o).samples = o.samples := by
  cases f <;> rfl

/-- The options with one more item, or why it is refused. -/
private def Item.addTo (o : Options) : Item → Except Refusal Options
  | option spelling =>
    match Flag.ofText? spelling with
    | some flag => .ok (flag.set o)
    | none => .error (.unknownOption spelling)
  | depth none => .error .missingDepth
  | depth (some text) =>
    match depthOfText? text with
    | some n => .ok { o with maxDepth := n }
    | none => .error (.invalidDepth text)
  | sample name => .ok { o with samples := o.samples ++ [name] }

/-- The options with items added one after the other, up to the first that is refused. -/
private def addItems (o : Options) : List Item → Options × Option Refusal
  | [] => (o, none)
  | i :: is =>
    match i.addTo o with
    | .ok o => addItems o is
    | .error r => (o, some r)

private theorem addItems_map_sample (o : Options) (names : List Bytes) :
    addItems o (names.map .sample) = ({ o with samples := o.samples ++ names }, none) := by
  induction names generalizing o with
  | nil => simp [addItems]
  | cons name names ih =>
    rw [List.map_cons, addItems, Item.addTo]
    simp only [ih, List.append_assoc, List.singleton_append]

private theorem items_dashes (rest : List Bytes) :
    items (("--" : Bytes) :: rest) = rest.map .sample := by
  rw [items.eq_def]
  exact if_pos rfl

private theorem items_depth (value : Bytes) (rest : List Bytes) :
    items (("--max-depth" : Bytes) :: value :: rest) = .depth (some value) :: items rest := by
  rw [items, if_neg (by decide), if_pos rfl]

private theorem items_option {argument : Bytes} (dash : isOption argument = true)
    (hend : argument ≠ "--") (hdepth : argument ≠ "--max-depth") (rest : List Bytes) :
    items (argument :: rest) = .option argument :: items rest := by
  rw [items.eq_def]
  simp only [hend, hdepth, if_false, eq_of_beq dash, if_true]

private theorem items_sample {argument : Bytes} (dash : ¬ isOption argument = true)
    (rest : List Bytes) : items (argument :: rest) = .sample argument :: items rest := by
  have hend : argument ≠ "--" := by
    rintro rfl
    exact dash (by decide)
  have hdepth : argument ≠ "--max-depth" := by
    rintro rfl
    exact dash (by decide)
  have hhead : ¬ argument.head? = some 0x2D := fun head ↦ dash (beq_of_eq head)
  rw [items.eq_def]
  simp only [hend, hdepth, hhead, if_false]

private theorem scan_eq_addItems (o : Options) (arguments : List Bytes) :
    scan o arguments = addItems o (items arguments) := by
  fun_induction scan o arguments with
  | case1 o => rfl
  | case2 o rest => rw [items_dashes, addItems_map_sample]
  | case3 o argument rest dash hend flag known ih =>
    have hdepth : argument ≠ "--max-depth" := by
      rintro rfl
      have unknown : Flag.ofText? "--max-depth" = none := by decide
      cases unknown.symm.trans known
    rw [items_option dash hend hdepth, addItems, Item.addTo, known]
    exact ih
  | case4 o => rfl
  | case5 o value rest depth read _ _ _ ih =>
    rw [items_depth, addItems, Item.addTo, read]
    exact ih
  | case6 o value rest read =>
    rw [items_depth, addItems, Item.addTo, read]
  | case7 o argument rest dash hend unknown hdepth =>
    rw [items_option dash hend hdepth, addItems, Item.addTo, unknown]
  | case8 o argument rest dash ih =>
    rw [items_sample dash, addItems, Item.addTo]
    exact ih

end Steps

section Reflection

private theorem reflects_nil : Options.Reflects {} [] where
  flags f := by cases f <;> simp [Flag.isSet]
  depth := .default fun _ ↦ List.not_mem_nil
  samples := rfl

private theorem LastDepth.snoc {is : List Item} {n : Nat} (h : LastDepth is n) {i : Item}
    (other : ∀ text, i ≠ .depth (some text)) : LastDepth (is ++ [i]) n := by
  cases h with
  | default none =>
    refine .default fun text given ↦ ?_
    rcases List.mem_append.mp given with earlier | last
    · exact none text earlier
    · exact other text (List.mem_singleton.mp last).symm
  | given split last value =>
    rw [split, List.append_assoc, List.cons_append]
    refine .given rfl (fun later given ↦ ?_) value
    rcases List.mem_append.mp given with earlier | last'
    · exact last later earlier
    · exact other later (List.mem_singleton.mp last').symm

private theorem exists_option_snoc {is : List Item} {i : Item}
    (other : ∀ spelling, i ≠ .option spelling) (f : Flag) :
    (∃ spelling ∈ f.texts, .option spelling ∈ is ++ [i]) ↔
      ∃ spelling ∈ f.texts, .option spelling ∈ is := by
  refine exists_congr fun spelling ↦ and_congr_right fun _ ↦ ?_
  rw [List.mem_append, List.mem_singleton]
  exact or_iff_left fun same ↦ other spelling same.symm

private theorem exists_option_snoc_option {is : List Item} {spelling : Bytes} {flag : Flag}
    (known : Flag.ofText? spelling = some flag) (f : Flag) :
    (∃ text ∈ f.texts, .option text ∈ is ++ [.option spelling]) ↔
      (∃ text ∈ f.texts, .option text ∈ is) ∨ f = flag := by
  have own : f = flag ↔ spelling ∈ f.texts := by
    rw [← Flag.ofText?_eq_some_iff, known, Option.some.injEq, eq_comm]
  simp only [List.mem_append, List.mem_singleton, Item.option.injEq, and_or_left, exists_or,
    exists_eq_right, own]

private theorem addTo_ok {o o' : Options} {i : Item} {is : List Item} (reflects : o.Reflects is)
    (h : i.addTo o = .ok o') : (i.IsOption → i.Fits) ∧ o'.Reflects (is ++ [i]) := by
  match i with
  | .option spelling =>
    rw [Item.addTo] at h
    split at h
    next flag known =>
      cases h
      refine ⟨fun _ ↦ ⟨flag, (Flag.ofText?_eq_some_iff spelling flag).mp known⟩, ?_, ?_, ?_⟩
      · intro f
        rw [Flag.isSet_set, reflects.flags, exists_option_snoc_option known]
      · rw [Flag.maxDepth_set]
        exact reflects.depth.snoc (by simp)
      · rw [Flag.samples_set, List.filterMap_append, ← reflects.samples]
        exact (List.append_nil _).symm
    next => cases h
  | .depth none => cases h
  | .depth (some text) =>
    rw [Item.addTo] at h
    split at h
    next depth read =>
      cases h
      have value := (depthOfText?_eq_some_iff text depth).mp read
      refine ⟨fun _ ↦ ⟨text, depth, rfl, value⟩, ?_, ?_, ?_⟩
      · exact fun f ↦ (reflects.flags f).trans (exists_option_snoc (by simp) f).symm
      · exact .given rfl (fun _ ↦ List.not_mem_nil) value
      · rw [List.filterMap_append, ← reflects.samples]
        exact (List.append_nil _).symm
    next => cases h
  | .sample name =>
    cases h
    refine ⟨nofun, ?_, reflects.depth.snoc (by simp), ?_⟩
    · exact fun f ↦ (reflects.flags f).trans (exists_option_snoc (by simp) f).symm
    · rw [List.filterMap_append, ← reflects.samples]
      rfl

private theorem quoted_isInfix {front back : Bytes} (hfront : ("'" : Bytes) <:+ front)
    (hback : ("'" : Bytes) <+: back) (word : Bytes) :
    ("'" ++ word ++ "'" : Bytes) <:+: front ++ word ++ back := by
  obtain ⟨before, rfl⟩ := hfront
  obtain ⟨after, rfl⟩ := hback
  exact ⟨before, after, by simp only [List.append_assoc]⟩

private theorem concerns_refusal (i : Item) : i.refusal.Concerns i := by
  refine ⟨rfl, ?_⟩
  match i with
  | .option spelling | .sample spelling =>
    exact List.forall_mem_singleton.mpr (quoted_isInfix (by decide) (by decide) spelling)
  | .depth none =>
    exact List.forall_mem_singleton.mpr ⟨"ducklet: option ", " needs a value\n", by decide⟩
  | .depth (some text) =>
    have quoted : ("'" ++ text ++ "'" : Bytes) <:+: (Refusal.invalidDepth text).message :=
      quoted_isInfix (by decide) (by decide) text
    have named : ("'" ++ ("--max-depth" : Bytes) ++ "'" : Bytes) <:+: "' for '--max-depth'\n" :=
      ⟨"' for ", "\n", by decide⟩
    have named' : ("'" ++ ("--max-depth" : Bytes) ++ "'" : Bytes) <:+:
        (Refusal.invalidDepth text).message := named.trans (List.suffix_append _ _).isInfix
    exact List.forall_mem_cons.mpr ⟨quoted, List.forall_mem_singleton.mpr named'⟩

private theorem addTo_error {o : Options} {i : Item} {r : Refusal} (h : i.addTo o = .error r) :
    i.IsOption ∧ ¬ i.Fits ∧ r.Concerns i := by
  match i with
  | .option spelling =>
    rw [Item.addTo] at h
    split at h
    next => cases h
    next unknown =>
      cases h
      refine ⟨rfl, ?_, concerns_refusal (.option spelling)⟩
      rintro ⟨flag, known⟩
      rw [(Flag.ofText?_eq_some_iff spelling flag).mpr known] at unknown
      cases unknown
  | .depth none =>
    cases h
    refine ⟨rfl, ?_, concerns_refusal (.depth none)⟩
    rintro ⟨_, _, ⟨⟩, _⟩
  | .depth (some text) =>
    rw [Item.addTo] at h
    split at h
    next => cases h
    next unread =>
      cases h
      refine ⟨rfl, ?_, concerns_refusal (.depth (some text))⟩
      rintro ⟨_, depth, ⟨⟩, value⟩
      rw [(depthOfText?_eq_some_iff text depth).mpr value] at unread
      cases unread
  | .sample name => cases h

end Reflection

section Answer

/-- What reading the items comes to: the end, or the first option that does not fit. -/
private inductive Read (is : List Item) : Options × Option Refusal → Prop where
  | finished {o : Options} (options : ∀ i ∈ is, i.IsOption → i.Fits) (reflects : o.Reflects is) :
      Read is (o, none)
  | stopped {o : Options} {r : Refusal} {before after : List Item} {i : Item}
      (split : is = before ++ i :: after) (fit : ∀ j ∈ before, j.IsOption → j.Fits)
      (option : i.IsOption) (unfit : ¬ i.Fits) (reflects : o.Reflects before)
      (concerns : r.Concerns i) : Read is (o, some r)

private theorem read_addItems {o : Options} {before : List Item}
    (options : ∀ i ∈ before, i.IsOption → i.Fits) (reflects : o.Reflects before)
    (is : List Item) : Read (before ++ is) (addItems o is) := by
  -- The induction is on the items to come; what was read of them goes over to those before.
  induction is generalizing o before with
  | nil =>
    rw [List.append_nil]
    exact .finished options reflects
  | cons i is ih =>
    rw [addItems]
    split
    next o' added =>
      obtain ⟨fits, reflects'⟩ := addTo_ok reflects added
      have options' : ∀ j ∈ before ++ [i], j.IsOption → j.Fits := by
        rw [List.forall_mem_append, List.forall_mem_singleton]
        exact ⟨options, fits⟩
      have rest := ih options' reflects'
      rwa [List.append_assoc, List.singleton_append] at rest
    next r refused =>
      obtain ⟨option, unfit, concerns⟩ := addTo_error refused
      exact .stopped rfl options option unfit reflects concerns

/-- Whether an item is a name that no sample has. -/
private def Item.unknown (i : Item) : Bool := i.name?.any fun name ↦ (Sample.ofName? name).isNone

private theorem isNone_ofName?_iff (name : Bytes) :
    (Sample.ofName? name).isNone = true ↔ ¬ ∃ s : Sample, s.name = name := by
  have listed (s : Sample) : s ∈ Sample.all := by cases s <;> decide
  simp only [Sample.ofName?, Option.isNone_iff_eq_none, List.find?_eq_none, decide_eq_true_eq,
    listed, forall_true_left, not_exists]

private theorem fits_iff {i : Item} (option : i.IsOption → i.Fits) :
    i.Fits ↔ i.unknown = false := by
  cases i with
  | option spelling => exact iff_of_true (option rfl) rfl
  | depth value => exact iff_of_true (option rfl) rfl
  | sample name =>
    rw [← Bool.not_eq_true, ← not_iff_not, not_not]
    exact (isNone_ofName?_iff name).symm

private theorem answers_names {is : List Item} {o : Options}
    (options : ∀ i ∈ is, i.IsOption → i.Fits) (reflects : o.Reflects is) :
    Answers is (o, (o.samples.find? fun n ↦ (Sample.ofName? n).isNone).map .unknownSample) := by
  have checked : (o.samples.find? fun n ↦ (Sample.ofName? n).isNone) =
      (is.find? Item.unknown).bind Item.name? := by
    rw [reflects.samples, List.find?_filterMap]
    rfl
  rw [checked]
  cases found : is.find? Item.unknown with
  | none =>
    refine .accepted (fun i hi ↦ (fits_iff (options i hi)).mpr ?_) reflects
    exact Bool.eq_false_iff.mpr (List.find?_eq_none.mp found i hi)
  | some i =>
    obtain ⟨unknown, before, after, rfl, known⟩ := List.find?_eq_some_iff_append.mp found
    have unfit : ¬ i.Fits := by
      rw [fits_iff (options i (List.mem_append_right _ List.mem_cons_self)), unknown]
      nofun
    have fit : ∀ j ∈ before, j.Fits := fun j hj ↦
      (fits_iff (options j (List.mem_append_left _ hj))).mpr (by simpa using known j hj)
    cases i with
    | option spelling => cases unknown
    | depth value => cases unknown
    | sample name =>
      exact .sampleRefused rfl options fit unfit reflects (concerns_refusal (.sample name))

/-- An answer refuses nothing just if all items fit. -/
theorem Answers.accepts_iff {is : List Item} {answer : Options × Option Refusal}
    (h : Answers is answer) : answer.2 = none ↔ ∀ i ∈ is, i.Fits := by
  cases h with
  | accepted fit => exact iff_of_true rfl fit
  | optionRefused split _ _ unfit | sampleRefused split _ _ unfit =>
    refine iff_of_false nofun fun all ↦ unfit (all _ ?_)
    rw [split]
    exact List.mem_append_right _ List.mem_cons_self

/-- Whatever the arguments are, the answer is that of their items, and nothing is refused just if
all of them fit. -/
theorem parse_answers (arguments : List Bytes) :
    Answers (items arguments) (parse arguments) ∧
      ((parse arguments).2 = none ↔ ∀ i ∈ items arguments, i.Fits) := by
  have read : Read (items arguments) (scan {} arguments) := by
    rw [scan_eq_addItems]
    exact read_addItems (by simp) reflects_nil (items arguments)
  have answers : Answers (items arguments) (parse arguments) := by
    rw [parse]
    generalize scan {} arguments = answer at read
    cases read with
    | finished options reflects => exact answers_names options reflects
    | stopped split fit option unfit reflects concerns =>
      exact .optionRefused split fit option unfit reflects concerns
  exact ⟨answers, answers.accepts_iff⟩

end Answer

end Scriptlet.CommandLine
