import Scriptlet.Syntax.Basic

/-!
# Sample programs

Three programs are bundled to show the language. Each comes with its source text and with
the tree that the text stands for, every node placed where the text has it.
-/

namespace Scriptlet

/-- A bundled program. -/
inductive Sample where
  | arrays
  | dictionaries
  | functions
  deriving DecidableEq

namespace Sample

/-- The samples in the order in which they run. -/
def all : List Sample := [arrays, dictionaries, functions]

/-- The name by which a sample is asked for. -/
def name : Sample → Bytes
  | arrays => "arrays"
  | dictionaries => "dictionaries"
  | functions => "functions"

/-- What a sample shows. -/
def description : Sample → Bytes
  | arrays => "array literal, element assignment, iteration and int addition"
  | dictionaries =>
    "dictionary literal, overwrite, string concatenation and key/value iteration"
  | functions => "recursion, while loop, method-call form and compound assignment"

/-- The sample with a name. -/
def ofName? (n : Bytes) : Option Sample := all.find? fun s ↦ s.name = n

/-- What is said of a name that no sample has, as a zero-terminated text. -/
def unknownMessage (n : Bytes) : Bytes := Bytes.beforeZero ("unknown sample '" ++ n ++ "'")

/-- The text of a sample. -/
def text : Sample → Bytes
  | arrays =>
    "fn main() \x7b\n" ++
    "    var arr = [1, 2, 3]\n" ++
    "    arr[1] = \"duck\"\n" ++
    "    for e in arr \x7b\n" ++
    "        print(e)\n" ++
    "    \x7d\n" ++
    "    arr = arr[0] + arr[2]\n" ++
    "    print(arr)\n" ++
    "\x7d\n"
  | dictionaries =>
    "fn main() \x7b\n" ++
    "    var dict = \x7b1: 2, 3: \"dog\", \"cat\": \"chicken\"\x7d\n" ++
    "    dict[1] = \"duck\"\n" ++
    "    print(dict[3] + \" is not a \" + dict[\"cat\"])\n" ++
    "    for k, v in dict \x7b\n" ++
    "        print(k, \": \", v)\n" ++
    "    \x7d\n" ++
    "\x7d\n"
  | functions =>
    "fn fib(n) \x7b\n" ++
    "    if n < 2 \x7b\n" ++
    "        return n\n" ++
    "    \x7d\n" ++
    "    return fib(n - 1) + fib(n - 2)\n" ++
    "\x7d\n" ++
    "\n" ++
    "fn main() \x7b\n" ++
    "    var i = 0\n" ++
    "    var out = []\n" ++
    "    while i < 10 \x7b\n" ++
    "        out.push(fib(i))\n" ++
    "        i += 1\n" ++
    "    \x7d\n" ++
    "    print(out)\n" ++
    "\x7d\n"

/-- The source of a sample, under the file name made from its name. -/
def source (s : Sample) : Source := ⟨s.name ++ ".dk", s.text⟩

/-- A place in a sample. -/
def place (s : Sample) (line col length : Int) : Location where
  file := s.source.name
  line := line
  col := col
  length := length
  source := some s.source

/-- The body of the sample on arrays. -/
def arraysMain : List Stmt :=
  let l := place arrays
  [.declare (l 2 5 3) "arr"
      (.array (l 2 15 0) [.int (l 2 16 0) 1, .int (l 2 19 0) 2, .int (l 2 22 0) 3]),
    .assign (l 3 5 0) (.index (l 3 5 0) (.ident (l 3 5 3) "arr") (.int (l 3 9 0) 1)) "="
      (.str (l 3 14 6) "duck"),
    .forEach (l 4 5 3) (.single "e") (.ident (l 4 14 3) "arr")
      [.print (l 5 9 5) [.ident (l 5 15 0) "e"]],
    .assign (l 7 5 0) (.ident (l 7 5 0) "arr") "="
      (.binary (l 7 18 0) "+"
        (.index (l 7 11 0) (.ident (l 7 11 3) "arr") (.int (l 7 15 0) 0))
        (.index (l 7 20 0) (.ident (l 7 20 3) "arr") (.int (l 7 24 0) 2))),
    .print (l 8 5 5) [.ident (l 8 11 3) "arr"]]

/-- The body of the sample on dictionaries. -/
def dictionariesMain : List Stmt :=
  let l := place dictionaries
  [.declare (l 2 5 3) "dict"
      (.dict (l 2 16 0)
        [(.int (l 2 17 0) 1, .int (l 2 20 0) 2), (.int (l 2 23 0) 3, .str (l 2 26 5) "dog"),
          (.str (l 2 33 5) "cat", .str (l 2 40 9) "chicken")]),
    .assign (l 3 5 0) (.index (l 3 5 0) (.ident (l 3 5 4) "dict") (.int (l 3 10 0) 1)) "="
      (.str (l 3 15 6) "duck"),
    .print (l 4 5 5)
      [.binary (l 4 33 0) "+"
        (.binary (l 4 19 0) "+"
          (.index (l 4 11 0) (.ident (l 4 11 4) "dict") (.int (l 4 16 0) 3))
          (.str (l 4 21 11) " is not a "))
        (.index (l 4 35 0) (.ident (l 4 35 4) "dict") (.str (l 4 40 5) "cat"))],
    .forEach (l 5 5 3) (.pair "k" "v") (.ident (l 5 17 4) "dict")
      [.print (l 6 9 5)
        [.ident (l 6 15 0) "k", .str (l 6 18 4) ": ", .ident (l 6 24 0) "v"]]]

/-- The recursive function of the sample on functions. -/
def fibBody : List Stmt :=
  let l := place functions
  [.ifThen (l 2 5 2) (.binary (l 2 10 0) "<" (.ident (l 2 8 0) "n") (.int (l 2 12 0) 2))
      [.returnValue (l 3 9 6) (.ident (l 3 16 0) "n")],
    .returnValue (l 5 5 6)
      (.binary (l 5 22 0) "+"
        (.call (l 5 12 3) .absent "fib"
          [.binary (l 5 18 0) "-" (.ident (l 5 16 0) "n") (.int (l 5 20 0) 1)])
        (.call (l 5 24 3) .absent "fib"
          [.binary (l 5 30 0) "-" (.ident (l 5 28 0) "n") (.int (l 5 32 0) 2)]))]

/-- The main body of the sample on functions. -/
def functionsMain : List Stmt :=
  let l := place functions
  [.declare (l 9 5 3) "i" (.int (l 9 13 0) 0),
    .declare (l 10 5 3) "out" (.array (l 10 15 0) []),
    .whileLoop (l 11 5 5)
      (.binary (l 11 13 0) "<" (.ident (l 11 11 0) "i") (.int (l 11 15 2) 10))
      [.evaluate (l 12 13 4)
          (.call (l 12 13 4) (.ident (l 12 9 3) "out") "push"
            [.call (l 12 18 3) .absent "fib" [.ident (l 12 22 0) "i"]]),
        .assign (l 13 11 2) (.ident (l 13 11 2) "i") "+=" (.int (l 13 14 0) 1)],
    .print (l 15 5 5) [.ident (l 15 11 3) "out"]]

/-- The tree of a sample. -/
def program (s : Sample) : Program where
  location := s.place 1 1 0
  body :=
    match s with
    | arrays => [.function (s.place 1 4 4) "main" [] arraysMain]
    | dictionaries => [.function (s.place 1 4 4) "main" [] dictionariesMain]
    | functions =>
      [.function (s.place 1 4 3) "fib" ["n"] fibBody,
        .function (s.place 8 4 4) "main" [] functionsMain]

end Sample
end Scriptlet
