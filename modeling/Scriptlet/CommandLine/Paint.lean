import Scriptlet.Error

/-!
# Coloured text

A terminal switches colours on escape codes. Text is painted by putting it between the code
of a colour and the code that resets the terminal.
-/

namespace Scriptlet

/-- What a terminal can be switched to. -/
inductive Color where
  | reset
  | red
  | green
  | yellow
  | cyan
  | brightBlack
  | brightRed
  | brightMagenta
  deriving DecidableEq

namespace Color

/-- The escape code of a colour. -/
def code : Color → Bytes
  | reset => "\x1b[0m"
  | red => "\x1b[31m"
  | green => "\x1b[32m"
  | yellow => "\x1b[33m"
  | cyan => "\x1b[36m"
  | brightBlack => "\x1b[90m"
  | brightRed => "\x1b[91m"
  | brightMagenta => "\x1b[95m"

/-- The text in a colour, or as it is where colours are off. -/
def paint (c : Color) (text : Bytes) (enabled : Bool) : Bytes :=
  if enabled then c.code ++ text ++ reset.code else text

end Color

/-- An error announced on a stream (specification §8); a terminal shows the word in bright red and
the text in red. -/
def announceError (text : Bytes) (onTerminal : Bool) : Bytes :=
  Color.brightRed.paint "Error: " onTerminal ++ Color.red.paint text onTerminal

end Scriptlet
