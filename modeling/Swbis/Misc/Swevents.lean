import Mathlib.Data.List.Infix
import Mathlib.Data.List.Nodup
import Swbis.Lib.Search

/-!
# Event texts

`swevent_message` makes the text of an event from a table of names, and two
routines find the event of a text again.  `swevent_get_value` takes the first
event of the table whose name occurs anywhere in the text.
`get_struct_by_message` cuts the first word that begins with `SW` out of the
front of the text, and takes the event that has this name.

So a name that is the beginning of another one, or that is written in the
location or in the message, is taken for the event by the one and not by the
other.  `Unmistakable` says when neither goes wrong.
-/

namespace Swbis.Misc

open CLib

/-! ## The table -/

/-- `struct swEvents`: the code and the value. -/
structure SwEvent where
  codeM : Bytes
  valueM : Int
deriving DecidableEq

/-- `eventsArray` -/
def eventsArray : List SwEvent :=
  [⟨chars [], 0⟩,
   ⟨chars ['S', 'W', '_', 'I', 'L', 'L', 'E', 'G', 'A', 'L', '_', 'S', 'T', 'A', 'T', 'E', '_',
      'T', 'R', 'A', 'N', 'S', 'I', 'T', 'I', 'O', 'N'], 1⟩,
   ⟨chars ['S', 'W', '_', 'B', 'A', 'D', '_', 'S', 'E', 'S', 'S', 'I', 'O', 'N', '_', 'C', 'O',
      'N', 'T', 'E', 'X', 'T'], 2⟩,
   ⟨chars ['S', 'W', '_', 'I', 'L', 'L', 'E', 'G', 'A', 'L', '_', 'O', 'P', 'T', 'I', 'O', 'N'], 3⟩,
   ⟨chars ['S', 'W', '_', 'A', 'C', 'C', 'E', 'S', 'S', '_', 'D', 'E', 'N', 'I', 'E', 'D'], 4⟩,
   ⟨chars ['S', 'W', '_', 'M', 'E', 'M', 'O', 'R', 'Y', '_', 'E', 'R', 'R', 'O', 'R'], 5⟩,
   ⟨chars ['S', 'W', '_', 'R', 'E', 'S', 'O', 'U', 'R', 'C', 'E', '_', 'E', 'R', 'R', 'O', 'R'], 6⟩,
   ⟨chars ['S', 'W', '_', 'I', 'N', 'T', 'E', 'R', 'N', 'A', 'L', '_', 'E', 'R', 'R', 'O', 'R'], 7⟩,
   ⟨chars ['S', 'W', '_', 'I', 'O', '_', 'E', 'R', 'R', 'O', 'R'], 8⟩,
   ⟨chars ['S', 'W', '_', 'A', 'G', 'E', 'N', 'T', '_', 'I', 'N', 'I', 'T', 'I', 'A', 'L', 'I',
      'Z', 'A', 'T', 'I', 'O', 'N', '_', 'F', 'A', 'I', 'L', 'E', 'D'], 10⟩,
   ⟨chars ['S', 'W', '_', 'S', 'E', 'R', 'V', 'I', 'C', 'E', '_', 'N', 'O', 'T', '_', 'A', 'V',
      'A', 'L', 'I', 'A', 'B', 'L', 'E'], 11⟩,
   ⟨chars ['S', 'W', '_', 'O', 'T', 'H', 'E', 'R', '_', 'S', 'E', 'S', 'S', 'I', 'O', 'N', 'S',
      '_', 'I', 'N', '_', 'P', 'R', 'O', 'G', 'R', 'E', 'S', 'S'], 12⟩,
   ⟨chars ['S', 'W', '_', 'S', 'E', 'S', 'S', 'I', 'O', 'N', '_', 'B', 'E', 'G', 'I', 'N',
      'S'], 28⟩,
   ⟨chars ['S', 'W', '_', 'S', 'E', 'S', 'S', 'I', 'O', 'N', '_', 'E', 'N', 'D', 'S'], 29⟩,
   ⟨chars ['S', 'W', '_', 'C', 'O', 'N', 'N', 'E', 'C', 'T', 'I', 'O', 'N', '_', 'L', 'I', 'M',
      'I', 'T', '_', 'E', 'X', 'C', 'E', 'E', 'D', 'E', 'D'], 30⟩,
   ⟨chars ['S', 'W', '_', 'S', 'O', 'C', '_', 'D', 'O', 'E', 'S', '_', 'N', 'O', 'T', '_', 'E',
      'X', 'I', 'S', 'T'], 31⟩,
   ⟨chars ['S', 'W', '_', 'S', 'O', 'C', '_', 'I', 'S', '_', 'C', 'O', 'R', 'R', 'U', 'P',
      'T'], 32⟩,
   ⟨chars ['S', 'W', '_', 'S', 'O', 'C', '_', 'C', 'R', 'E', 'A', 'T', 'E', 'D'], 34⟩,
   ⟨chars ['S', 'W', '_', 'C', 'O', 'N', 'F', 'L', 'I', 'C', 'T', 'I', 'N', 'G', '_', 'S', 'E',
      'S', 'S', 'I', 'O', 'N', '_', 'I', 'N', '_', 'P', 'R', 'O', 'G', 'R', 'E', 'S', 'S'], 35⟩,
   ⟨chars ['S', 'W', '_', 'S', 'O', 'C', '_', 'L', 'O', 'C', 'K', '_', 'F', 'A', 'I', 'L', 'U',
      'R', 'E'], 36⟩,
   ⟨chars ['S', 'W', '_', 'S', 'O', 'C', '_', 'I', 'S', '_', 'R', 'E', 'A', 'D', '_', 'O', 'N',
      'L', 'Y'], 37⟩,
   ⟨chars ['S', 'W', '_', 'S', 'O', 'C', '_', 'I', 'S', '_', 'R', 'E', 'M', 'O', 'T', 'E'], 38⟩,
   ⟨chars ['S', 'W', '_', 'S', 'O', 'C', '_', 'I', 'S', '_', 'S', 'E', 'R', 'I', 'A', 'L'], 40⟩,
   ⟨chars ['S', 'W', '_', 'S', 'O', 'C', '_', 'I', 'N', 'C', 'O', 'R', 'R', 'E', 'C', 'T', '_',
      'T', 'Y', 'P', 'E'], 41⟩,
   ⟨chars ['S', 'W', '_', 'C', 'A', 'N', 'N', 'O', 'T', '_', 'O', 'P', 'E', 'N', '_', 'L', 'O',
      'G', 'F', 'I', 'L', 'E'], 42⟩,
   ⟨chars ['S', 'W', '_', 'S', 'O', 'C', '_', 'A', 'M', 'B', 'I', 'G', 'U', 'O', 'U', 'S', '_',
      'T', 'Y', 'P', 'E'], 49⟩,
   ⟨chars ['S', 'W', '_', 'A', 'N', 'A', 'L', 'Y', 'S', 'I', 'S', '_', 'B', 'E', 'G', 'I', 'N',
      'S'], 52⟩,
   ⟨chars ['S', 'W', '_', 'A', 'N', 'A', 'L', 'Y', 'S', 'I', 'S', '_', 'E', 'N', 'D', 'S'], 53⟩,
   ⟨chars ['S', 'W', '_', 'E', 'X', 'R', 'E', 'Q', 'U', 'I', 'S', 'I', 'T', 'E', '_', 'E', 'X',
      'C', 'L', 'U', 'D', 'E'], 56⟩,
   ⟨chars ['S', 'W', '_', 'C', 'H', 'E', 'C', 'K', '_', 'S', 'C', 'R', 'I', 'P', 'T', '_', 'E',
      'X', 'C', 'L', 'U', 'D', 'E'], 57⟩,
   ⟨chars ['S', 'W', '_', 'C', 'O', 'N', 'F', 'I', 'G', 'U', 'R', 'E', '_', 'E', 'X', 'C', 'L',
      'U', 'D', 'E'], 58⟩,
   ⟨chars ['S', 'W', '_', 'S', 'E', 'L', 'E', 'C', 'T', 'I', 'O', 'N', '_', 'I', 'S', '_', 'C',
      'O', 'R', 'R', 'U', 'P', 'T'], 59⟩,
   ⟨chars ['S', 'W', '_', 'S', 'O', 'U', 'R', 'C', 'E', '_', 'A', 'C', 'C', 'E', 'S', 'S', '_',
      'E', 'R', 'R', 'O', 'R'], 60⟩,
   ⟨chars ['S', 'W', '_', 'S', 'E', 'L', 'E', 'C', 'T', 'I', 'O', 'N', '_', 'N', 'O', 'T', '_',
      'F', 'O', 'U', 'N', 'D'], 62⟩,
   ⟨chars ['S', 'W', '_', 'S', 'E', 'L', 'E', 'C', 'T', 'I', 'O', 'N', '_', 'N', 'O', 'T', '_',
      'F', 'O', 'U', 'N', 'D', '_', 'R', 'E', 'L', 'A', 'T', 'E', 'D'], 63⟩,
   ⟨chars ['S', 'W', '_', 'S', 'E', 'L', 'E', 'C', 'T', 'I', 'O', 'N', '_', 'N', 'O', 'T', '_',
      'F', 'O', 'U', 'N', 'D', '_', 'A', 'M', 'B', 'I', 'G'], 64⟩,
   ⟨chars ['S', 'W', '_', 'F', 'I', 'L', 'E', 'S', 'Y', 'S', 'T', 'E', 'M', 'S', '_', 'N', 'O',
      'T', '_', 'M', 'O', 'U', 'N', 'T', 'E', 'D'], 65⟩,
   ⟨chars ['S', 'W', '_', 'F', 'I', 'L', 'E', 'S', 'Y', 'S', 'T', 'E', 'M', 'S', '_', 'M', 'O',
      'R', 'E', '_', 'M', 'O', 'U', 'N', 'T', 'E', 'D'], 66⟩,
   ⟨chars ['S', 'W', '_', 'H', 'I', 'G', 'H', 'E', 'R', '_', 'R', 'E', 'V', 'I', 'S', 'I', 'O',
      'N', '_', 'I', 'N', 'S', 'T', 'A', 'L', 'L', 'E', 'D'], 67⟩,
   ⟨chars ['S', 'W', '_', 'N', 'E', 'W', '_', 'M', 'U', 'L', 'T', 'I', 'P', 'L', 'E', '_', 'V',
      'E', 'R', 'S', 'I', 'O', 'N'], 68⟩,
   ⟨chars ['S', 'W', '_', 'E', 'X', 'I', 'S', 'T', 'I', 'N', 'G', '_', 'M', 'U', 'L', 'T', 'I',
      'P', 'L', 'E', '_', 'V', 'E', 'R', 'S', 'I', 'O', 'N'], 69⟩,
   ⟨chars ['S', 'W', '_', 'D', 'E', 'P', 'E', 'N', 'D', 'E', 'N', 'C', 'Y', '_', 'N', 'O', 'T',
      '_', 'M', 'E', 'T'], 70⟩,
   ⟨chars ['S', 'W', '_', 'N', 'O', 'T', '_', 'C', 'O', 'M', 'P', 'A', 'T', 'I', 'B', 'L',
      'E'], 71⟩,
   ⟨chars ['S', 'W', '_', 'C', 'H', 'E', 'C', 'K', '_', 'S', 'C', 'R', 'I', 'P', 'T', '_', 'W',
      'A', 'R', 'N', 'I', 'N', 'G'], 72⟩,
   ⟨chars ['S', 'W', '_', 'C', 'H', 'E', 'C', 'K', '_', 'S', 'C', 'R', 'I', 'P', 'T', '_', 'E',
      'R', 'R', 'O', 'R'], 73⟩,
   ⟨chars ['S', 'W', '_', 'D', 'S', 'A', '_', 'O', 'V', 'E', 'R', '_', 'L', 'I', 'M', 'I',
      'T'], 75⟩,
   ⟨chars ['S', 'W', '_', 'D', 'S', 'A', '_', 'F', 'A', 'I', 'L', 'E', 'D', '_', 'T', 'O', '_',
      'R', 'U', 'N'], 76⟩,
   ⟨chars ['S', 'W', '_', 'A', 'L', 'R', 'E', 'A', 'D', 'Y', '_', 'C', 'O', 'N', 'F', 'I', 'G',
      'U', 'R', 'E', 'D'], 78⟩,
   ⟨chars ['S', 'W', '_', 'S', 'K', 'I', 'P', 'P', 'E', 'D', '_', 'G', 'L', 'O', 'B', 'A', 'L',
      '_', 'E', 'R', 'R', 'O', 'R'], 80⟩,
   ⟨chars ['S', 'W', '_', 'F', 'I', 'L', 'E', '_', 'W', 'A', 'R', 'N', 'I', 'N', 'G'], 84⟩,
   ⟨chars ['S', 'W', '_', 'F', 'I', 'L', 'E', '_', 'E', 'R', 'R', 'O', 'R'], 85⟩,
   ⟨chars ['S', 'W', '_', 'N', 'O', 'T', '_', 'L', 'O', 'C', 'A', 'T', 'A', 'B', 'L', 'E'], 86⟩,
   ⟨chars ['S', 'W', '_', 'S', 'A', 'M', 'E', '_', 'R', 'E', 'V', 'I', 'S', 'I', 'O', 'N', '_',
      'S', 'K', 'I', 'P', 'P', 'E', 'D'], 87⟩,
   ⟨chars ['S', 'W', '_', 'E', 'X', 'E', 'C', 'U', 'T', 'I', 'O', 'N', '_', 'B', 'E', 'G', 'I',
      'N', 'S'], 88⟩,
   ⟨chars ['S', 'W', '_', 'E', 'X', 'E', 'C', 'U', 'T', 'I', 'O', 'N', '_', 'E', 'N', 'D',
      'S'], 89⟩,
   ⟨chars ['S', 'W', '_', 'P', 'R', 'E', '_', 'S', 'C', 'R', 'I', 'P', 'T', '_', 'W', 'A', 'R',
      'N', 'I', 'N', 'G'], 95⟩,
   ⟨chars ['S', 'W', '_', 'P', 'R', 'E', '_', 'S', 'C', 'R', 'I', 'P', 'T', '_', 'E', 'R', 'R',
      'O', 'R'], 96⟩,
   ⟨chars ['S', 'W', '_', 'F', 'I', 'L', 'E', 'S', 'E', 'T', '_', 'W', 'A', 'R', 'N', 'I', 'N',
      'G'], 97⟩,
   ⟨chars ['S', 'W', '_', 'F', 'I', 'L', 'E', 'S', 'E', 'T', '_', 'E', 'R', 'R', 'O', 'R'], 98⟩,
   ⟨chars ['S', 'W', '_', 'P', 'O', 'S', 'T', '_', 'S', 'C', 'R', 'I', 'P', 'T', '_', 'W', 'A',
      'R', 'N', 'I', 'N', 'G'], 99⟩,
   ⟨chars ['S', 'W', '_', 'P', 'O', 'S', 'T', '_', 'S', 'C', 'R', 'I', 'P', 'T', '_', 'E', 'R',
      'R', 'O', 'R'], 100⟩,
   ⟨chars ['S', 'W', '_', 'C', 'O', 'N', 'F', 'I', 'G', 'U', 'R', 'E', '_', 'W', 'A', 'R', 'N',
      'I', 'N', 'G'], 103⟩,
   ⟨chars ['S', 'W', '_', 'C', 'O', 'N', 'F', 'I', 'G', 'U', 'R', 'E', '_', 'E', 'R', 'R', 'O',
      'R'], 104⟩,
   ⟨chars ['S', 'W', '_', 'D', 'A', 'T', 'A', 'B', 'A', 'S', 'E', '_', 'U', 'P', 'D', 'A', 'T',
      'E', '_', 'E', 'R', 'R', 'O', 'R'], 105⟩,
   ⟨chars ['S', 'W', '_', 'F', 'I', 'L', 'E', 'S', 'E', 'T', '_', 'B', 'E', 'G', 'I', 'N',
      'S'], 117⟩,
   ⟨chars ['S', 'W', '_', 'C', 'O', 'N', 'T', 'R', 'O', 'L', '_', 'S', 'C', 'R', 'I', 'P', 'T',
      '_', 'B', 'E', 'G', 'I', 'N', 'S'], 118⟩,
   ⟨chars ['S', 'W', '_', 'C', 'O', 'N', 'T', 'R', 'O', 'L', '_', 'S', 'C', 'R', 'I', 'P', 'T',
      '_', 'N', 'O', 'T', '_', 'F', 'O', 'U', 'N', 'D'], 119⟩,
   ⟨chars ['S', 'W', '_', 'S', 'O', 'U', 'R', 'C', 'E', '_', 'A', 'C', 'C', 'E', 'S', 'S', '_',
      'B', 'E', 'G', 'I', 'N', 'S'], 260⟩,
   ⟨chars ['S', 'W', '_', 'S', 'O', 'U', 'R', 'C', 'E', '_', 'A', 'C', 'C', 'E', 'S', 'S', '_',
      'E', 'N', 'D', 'S'], 261⟩,
   ⟨chars ['S', 'W', '_', 'C', 'O', 'N', 'T', 'R', 'O', 'L', '_', 'S', 'C', 'R', 'I', 'P', 'T',
      '_', 'E', 'N', 'D', 'S'], 262⟩,
   ⟨chars ['S', 'W', '_', 'S', 'O', 'C', '_', 'L', 'O', 'C', 'K', '_', 'C', 'R', 'E', 'A', 'T',
      'E', 'D'], 263⟩,
   ⟨chars ['S', 'W', '_', 'S', 'O', 'C', '_', 'L', 'O', 'C', 'K', '_', 'R', 'E', 'M', 'O', 'V',
      'E', 'D'], 264⟩,
   ⟨chars ['S', 'W', '_', 'S', 'E', 'L', 'E', 'C', 'T', 'I', 'O', 'N', '_', 'E', 'X', 'E', 'C',
      'U', 'T', 'I', 'O', 'N', '_', 'B', 'E', 'G', 'I', 'N', 'S'], 265⟩,
   ⟨chars ['S', 'W', '_', 'S', 'E', 'L', 'E', 'C', 'T', 'I', 'O', 'N', '_', 'E', 'X', 'E', 'C',
      'U', 'T', 'I', 'O', 'N', '_', 'E', 'N', 'D', 'S'], 266⟩,
   ⟨chars ['S', 'W', '_', 'I', 'S', 'C', '_', 'I', 'N', 'T', 'E', 'G', 'R', 'I', 'T', 'Y', '_',
      'C', 'O', 'N', 'F', 'I', 'R', 'M', 'E', 'D'], 267⟩,
   ⟨chars ['S', 'W', '_', 'I', 'S', 'C', '_', 'I', 'N', 'T', 'E', 'G', 'R', 'I', 'T', 'Y', '_',
      'N', 'O', 'T', '_', 'C', 'O', 'N', 'F', 'I', 'R', 'M', 'E', 'D'], 268⟩,
   ⟨chars ['S', 'W', '_', 'S', 'P', 'E', 'C', 'I', 'A', 'L', '_', 'M', 'O', 'D', 'E', '_', 'B',
      'E', 'G', 'I', 'N', 'S'], 269⟩,
   ⟨chars ['S', 'W', '_', 'S', 'O', 'C', '_', 'I', 'N', 'T', 'E', 'G', 'R', 'I', 'T', 'Y', '_',
      'C', 'O', 'N', 'F', 'I', 'R', 'M', 'E', 'D'], 270⟩,
   ⟨chars ['S', 'W', '_', 'S', 'O', 'C', '_', 'I', 'N', 'T', 'E', 'G', 'R', 'I', 'T', 'Y', '_',
      'N', 'O', 'T', '_', 'C', 'O', 'N', 'F', 'I', 'R', 'M', 'E', 'D'], 271⟩,
   ⟨chars ['S', 'W', '_', 'A', 'B', 'O', 'R', 'T', '_', 'S', 'I', 'G', 'N', 'A', 'L', '_', 'R',
      'E', 'C', 'E', 'I', 'V', 'E', 'D'], 272⟩,
   ⟨chars ['S', 'W', '_', 'F', 'I', 'L', 'E', '_', 'E', 'X', 'I', 'S', 'T', 'S'], 273⟩,
   ⟨chars ['S', 'W', 'I', '_', 'P', 'R', 'O', 'D', 'U', 'C', 'T', '_', 'S', 'C', 'R', 'I', 'P',
      'T', '_', 'E', 'N', 'D', 'S'], 280⟩,
   ⟨chars ['S', 'W', 'I', '_', 'F', 'I', 'L', 'E', 'S', 'E', 'T', '_', 'S', 'C', 'R', 'I', 'P',
      'T', '_', 'E', 'N', 'D', 'S'], 281⟩,
   ⟨chars ['S', 'W', 'I', '_', 'C', 'A', 'T', 'A', 'L', 'O', 'G', '_', 'U', 'N', 'P', 'A', 'C',
      'K', '_', 'B', 'E', 'G', 'I', 'N', 'S'], 302⟩,
   ⟨chars ['S', 'W', 'I', '_', 'C', 'A', 'T', 'A', 'L', 'O', 'G', '_', 'U', 'N', 'P', 'A', 'C',
      'K', '_', 'E', 'N', 'D', 'S'], 303⟩,
   ⟨chars ['S', 'W', 'I', '_', 'T', 'A', 'S', 'K', '_', 'B', 'E', 'G', 'I', 'N', 'S'], 304⟩,
   ⟨chars ['S', 'W', 'I', '_', 'T', 'A', 'S', 'K', '_', 'E', 'N', 'D', 'S'], 305⟩,
   ⟨chars ['S', 'W', 'I', '_', 'S', 'W', 'I', 'C', 'O', 'L', '_', 'E', 'R', 'R', 'O', 'R'], 306⟩,
   ⟨chars ['S', 'W', 'I', '_', 'C', 'A', 'T', 'A', 'L', 'O', 'G', '_', 'A', 'N', 'A', 'L', 'Y',
      'S', 'I', 'S', '_', 'B', 'E', 'G', 'I', 'N', 'S'], 307⟩,
   ⟨chars ['S', 'W', 'I', '_', 'C', 'A', 'T', 'A', 'L', 'O', 'G', '_', 'A', 'N', 'A', 'L', 'Y',
      'S', 'I', 'S', '_', 'E', 'N', 'D', 'S'], 308⟩,
   ⟨chars ['S', 'W', 'B', 'I', 'S', '_', 'T', 'A', 'R', 'G', 'E', 'T', '_', 'B', 'E', 'G', 'I',
      'N', 'S'], 309⟩,
   ⟨chars ['S', 'W', 'B', 'I', 'S', '_', 'T', 'A', 'R', 'G', 'E', 'T', '_', 'E', 'N', 'D',
      'S'], 310⟩,
   ⟨chars ['S', 'W', 'I', '_', 'N', 'O', 'R', 'M', 'A', 'L', '_', 'E', 'X', 'I', 'T'], 311⟩,
   ⟨chars ['S', 'W', 'I', '_', 'S', 'E', 'L', 'E', 'C', 'T', 'I', 'O', 'N', '_', 'B', 'E', 'G',
      'I', 'N', 'S'], 312⟩,
   ⟨chars ['S', 'W', 'I', '_', 'S', 'E', 'L', 'E', 'C', 'T', 'I', 'O', 'N', '_', 'E', 'N', 'D',
      'S'], 313⟩,
   ⟨chars ['S', 'W', 'I', '_', 'M', 'S', 'G'], 314⟩,
   ⟨chars ['S', 'W', 'I', '_', 'A', 'T', 'T', 'R', 'I', 'B', 'U', 'T', 'E'], 315⟩,
   ⟨chars ['S', 'W', 'I', '_', 'G', 'R', 'O', 'U', 'P', '_', 'B', 'E', 'G', 'I', 'N', 'S'], 316⟩,
   ⟨chars ['S', 'W', 'I', '_', 'G', 'R', 'O', 'U', 'P', '_', 'E', 'N', 'D', 'S'], 317⟩,
   ⟨chars ['S', 'W', 'I', '_', 'T', 'A', 'S', 'K', '_', 'C', 'T', 'S'], 318⟩,
   ⟨chars ['S', 'W', 'I', '_', 'M', 'A', 'I', 'N', '_', 'S', 'C', 'R', 'I', 'P', 'T', '_', 'E',
      'N', 'D', 'S'], 319⟩,
   ⟨chars ['<', '_', 'n', 'i', 'l', '_', '>'], -1⟩]

/-- The events that a loop over the table comes to: it ends at the value -1. -/
def untilNil (evnt : List SwEvent) : List SwEvent := evnt.takeWhile (·.valueM ≠ -1)

/-! ## The code -/

/-- `swlib_utilname_set`: what `swlib_utilname_get` returns from then on. -/
def swlibUtilnameSet (s : CString) : CString := s.take 29

/-- `swevent_code` -/
def sweventCode (value : Int) : Bytes :=
  (((untilNil eventsArray).find? (·.valueM = value)).map (·.codeM)).getD (literal "<_nil_>")

/-- `swevent_message`.  The name of the host is not used. -/
def sweventMessage (utilname : CString) (sVerbose value : Int) (_host loc msg : CString)
    (verboseLevel : Int) : Bytes :=
  utilname.bytes ++ literal ": " ++ sweventCode value ++ literal " on " ++ loc.bytes ++
    literal " host `hostname`" ++ (if sVerbose ≤ verboseLevel then literal " at line $LINENO" else []) ++
    literal ": " ++ msg.bytes

/-- `swevent_get_value` -/
def sweventGetValue (evnt : List SwEvent) (msg : Bytes) : Int :=
  (((untilNil evnt).find? fun eop => eop.codeM ≠ [] ∧ eop.codeM <:+: msg).map (·.valueM)).getD (-1)

/-- The characters that end a code: `": \r\n"`. -/
def endsCode (c : UInt8) : Bool := c == 58 || c == 32 || c == 13 || c == 10

/-- The first word that begins with `SW`, up to the character that ends it. -/
def eventCode (buf : Bytes) : Option Bytes :=
  match findSub (literal "SW") buf with
  | none => none
  | some i =>
      let word := (buf.drop i).takeWhile (!endsCode ·)
      if word = buf.drop i then none else some word

/-- `get_struct_by_message`.  `buf` has room for 99 characters. -/
def getStructByMessage (line : Bytes) (evnt : List SwEvent) : Option SwEvent :=
  match eventCode (line.take 99) with
  | none => none
  | some word => (untilNil evnt).find? (·.codeM = word)

/-! ## What the names are like -/

/-- A name is a word that begins with `SW`, and there is room for it. -/
structure EventName (code : Bytes) : Prop where
  prefix_sw : literal "SW" <+: code
  word : ∀ c ∈ code, endsCode c = false
  short : code.length ≤ 34

instance (code : Bytes) : Decidable (EventName code) :=
  decidable_of_iff (literal "SW" <+: code ∧ code.all (!endsCode ·) = true ∧ code.length ≤ 34)
    ⟨fun ⟨h₁, h₂, h₃⟩ => ⟨h₁, by simpa using h₂, h₃⟩, fun ⟨h₁, h₂, h₃⟩ => ⟨h₁, by simpa using h₂, h₃⟩⟩

theorem eventName_of_mem :
    ∀ e ∈ untilNil eventsArray, e.codeM ≠ [] → EventName e.codeM := by decide +kernel

theorem nodup_values : ((untilNil eventsArray).map (·.valueM)).Nodup := by decide +kernel

/-- The bytes of a name as one number. -/
def digest (s : Bytes) : Nat := s.foldl (fun n c => 256 * n + c.toNat) 0

theorem nodup_codes : ((untilNil eventsArray).map (·.codeM)).Nodup := by
  have hdigest : (((untilNil eventsArray).map (·.codeM)).map digest).Nodup := by decide +kernel
  exact List.Nodup.of_map digest hdigest

/-! ## Finding an event -/

section

variable {α β : Type} [DecidableEq β]

/-- Of a list in which a key tells the members apart, the one with a key is found. -/
theorem find?_key (f : α → β) {l : List α} (h : (l.map f).Nodup) {e : α} (he : e ∈ l) :
    l.find? (f · = f e) = some e := by
  induction l with
  | nil => exact absurd he List.not_mem_nil
  | cons a l ih =>
      rw [List.map_cons, List.nodup_cons] at h
      rcases List.mem_cons.mp he with rfl | he
      · rw [List.find?_cons_of_pos (by simp)]
      · have hne : f a ≠ f e := fun hae => h.1 (hae ▸ List.mem_map_of_mem he)
        rw [List.find?_cons_of_neg (by simpa using hne)]
        exact ih h.2 he

end

/-- The events in front of an event. -/
def earlier (e : SwEvent) : List SwEvent := (untilNil eventsArray).takeWhile (· ≠ e)

section

variable {e : SwEvent}

theorem eventsArray_split (he : e ∈ untilNil eventsArray) :
    ∃ later, untilNil eventsArray = earlier e ++ e :: later := by
  obtain ⟨before, later, heq, hnot⟩ := List.eq_append_cons_of_mem he
  have hearlier : earlier e = before := by
    rw [earlier, heq]
    refine takeWhile_append_stop (fun a ha => ?_) (by simp) later
    have hne : a ≠ e := fun hae => hnot (hae ▸ ha)
    simpa using hne
  exact ⟨later, by rw [hearlier, heq]⟩

theorem sweventCode_eq (he : e ∈ untilNil eventsArray) : sweventCode e.valueM = e.codeM := by
  rw [sweventCode, find?_key (·.valueM) nodup_values he]
  rfl

/-- The value of an event whose name is in the text is found if no event in front of
it has its name there. -/
theorem sweventGetValue_iff (he : e ∈ untilNil eventsArray) (hne : e.codeM ≠ []) {line : Bytes}
    (hline : e.codeM <:+: line) :
    sweventGetValue eventsArray line = e.valueM ↔
      ∀ e' ∈ earlier e, e'.codeM ≠ [] → ¬e'.codeM <:+: line := by
  obtain ⟨later, hsplit⟩ := eventsArray_split he
  have hnodup := nodup_values
  rw [hsplit, List.map_append, List.map_cons, List.nodup_append] at hnodup
  rw [sweventGetValue, hsplit, List.find?_append]
  constructor
  · intro hval e' he' hne' hin
    obtain ⟨f, hf⟩ : ∃ f, (earlier e).find? (fun eop => eop.codeM ≠ [] ∧ eop.codeM <:+: line) =
        some f :=
      Option.isSome_iff_exists.mp (List.find?_isSome.mpr ⟨e', he', by simp [hne', hin]⟩)
    rw [hf] at hval
    exact hnodup.2.2 _ (List.mem_map_of_mem (List.mem_of_find?_eq_some hf)) _
      List.mem_cons_self hval
  · intro hnone
    have hfind : (earlier e).find? (fun eop => eop.codeM ≠ [] ∧ eop.codeM <:+: line) = none := by
      rw [List.find?_eq_none]
      intro e' he'
      simpa using hnone e' he'
    rw [hfind, Option.none_or, List.find?_cons_of_pos (by simp [hne, hline])]
    rfl

/-! ## The text of an event -/

/-- A word is in a text of two parts, with something between that begins and ends
with no character of a word and that it is not in, if it is in one of the parts. -/
theorem infix_parts_iff {code a b mid : Bytes} {c d : UInt8} (hc : c ∉ code) (hd : d ∉ code)
    (hmid : ¬code <:+: mid) :
    code <:+: a ++ c :: (mid ++ d :: b) ↔ code <:+: a ∨ code <:+: b := by
  rw [infix_append_sep_iff hc, infix_append_sep_iff hd, or_iff_right hmid]

variable {code : Bytes}

theorem EventName.ne_nil (h : EventName code) : code ≠ [] := by
  rintro rfl
  exact absurd h.prefix_sw (by decide)

theorem EventName.not_mem (h : EventName code) {c : UInt8} (hc : endsCode c = true) :
    c ∉ code := by
  intro hm
  rw [h.word c hm] at hc
  exact Bool.false_ne_true hc

/-- A text without an `S` holds no name. -/
theorem EventName.not_infix (h : EventName code) {s : Bytes} (hs : (83 : UInt8) ∉ s) :
    ¬code <:+: s := by
  intro hin
  refine hs (hin.subset (h.prefix_sw.subset ?_))
  decide

/-- The fixed part of the text between the location and the message. -/
def eventHost (sVerbose verboseLevel : Int) : Bytes :=
  literal "host `hostname`" ++ if sVerbose ≤ verboseLevel then literal " at line $LINENO" else []

theorem not_mem_eventHost (sVerbose verboseLevel : Int) :
    (83 : UInt8) ∉ eventHost sVerbose verboseLevel := by
  rw [eventHost]
  split
  next => decide
  next => decide

theorem sweventMessage_eq (he : e ∈ untilNil eventsArray) (utilname : CString)
    (sVerbose verboseLevel : Int) (host loc msg : CString) :
    sweventMessage utilname sVerbose e.valueM host loc msg verboseLevel =
      utilname.bytes ++ 58 :: ([] ++ 32 :: (e.codeM ++ 32 :: (literal "on" ++ 32 :: (loc.bytes ++
        32 :: (eventHost sVerbose verboseLevel ++ 58 :: ([] ++ 32 :: msg.bytes)))))) := by
  have hsep : literal ": " = [58, 32] := by decide
  have hon : literal " on " = 32 :: (literal "on" ++ [32]) := by decide
  have hhost : literal " host `hostname`" = 32 :: literal "host `hostname`" := by decide
  rw [sweventMessage, sweventCode_eq he, eventHost, hsep, hon, hhost]
  simp only [List.append_assoc, List.cons_append, List.nil_append]

/-- A name occurs in the text if it occurs in the name of the utility, the name of
the event, the location or the message. -/
theorem EventName.infix_message_iff (h : EventName code) (he : e ∈ untilNil eventsArray)
    (utilname : CString) (sVerbose verboseLevel : Int) (host loc msg : CString) :
    code <:+: sweventMessage utilname sVerbose e.valueM host loc msg verboseLevel ↔
      ∃ text ∈ [utilname.bytes, e.codeM, loc.bytes, msg.bytes], code <:+: text := by
  have hcolon : (58 : UInt8) ∉ code := h.not_mem (by decide)
  have hblank : (32 : UInt8) ∉ code := h.not_mem (by decide)
  have hon : ¬code <:+: literal "on" := h.not_infix (by decide)
  have hhost := h.not_infix (not_mem_eventHost sVerbose verboseLevel)
  have hnil : ¬code <:+: [] := h.not_infix List.not_mem_nil
  rw [sweventMessage_eq he, infix_parts_iff hcolon hblank hnil, infix_parts_iff hblank hblank hon,
    infix_append_sep_iff hblank, infix_parts_iff hcolon hblank hnil, or_iff_right hhost]
  simp only [List.mem_cons, List.not_mem_nil, or_false, exists_eq_or_imp, exists_eq_left]

/-! ## The first word -/

theorem eventCode_of_found {buf : Bytes} {i : Nat} (h : findSub (literal "SW") buf = some i)
    {word rest : Bytes} {c : UInt8} (hdrop : buf.drop i = word ++ c :: rest)
    (hword : ∀ b ∈ word, endsCode b = false) (hc : endsCode c = true) :
    eventCode buf = some word := by
  have hrun : (word ++ c :: rest).takeWhile (!endsCode ·) = word :=
    takeWhile_append_stop (fun b hb => by rw [hword b hb]; rfl) (by rw [hc]; rfl) rest
  have hne : word ≠ word ++ c :: rest := fun heq => by
    have hlen := congrArg List.length heq
    rw [List.length_append, List.length_cons] at hlen
    omega
  simp only [eventCode, h, hdrop, hrun, if_neg hne]

/-- Behind a name without `SW` the code of the event is the first word. -/
theorem EventName.eventCode_eq (h : EventName code) {name : Bytes}
    (hname : ¬literal "SW" <:+: name) (rest : Bytes) :
    eventCode (name ++ 58 :: 32 :: (code ++ 32 :: rest)) = some code := by
  have hstart : findSub (literal "SW") (code ++ 32 :: rest) = some 0 :=
    findSub_eq_zero.mpr (h.prefix_sw.trans (List.prefix_append _ _))
  have hblank : findSub (literal "SW") (32 :: (code ++ 32 :: rest)) = some 1 := by
    have hstep : findSub (literal "SW") ([] ++ 32 :: (code ++ 32 :: rest)) = _ :=
      findSub_append_sep (show (32 : UInt8) ∉ literal "SW" by decide) (by decide)
    rw [List.nil_append, hstart] at hstep
    exact hstep
  have hfound : findSub (literal "SW") (name ++ 58 :: 32 :: (code ++ 32 :: rest)) = _ :=
    findSub_append_sep (show (58 : UInt8) ∉ literal "SW" by decide) hname
  rw [hblank, Option.map_some, Nat.add_comm, Nat.add_assoc] at hfound
  have hdrop : (name ++ 58 :: 32 :: (code ++ 32 :: rest)).drop (name.length + (1 + 1)) =
      code ++ 32 :: rest := by
    rw [List.drop_length_add_append]
    rfl
  exact eventCode_of_found hfound hdrop h.word (by decide)

/-- The word of a name with `SW` in it is the first word, whatever follows. -/
theorem eventCode_name {name : Bytes} (hname : literal "SW" <:+: name) (rest : Bytes) :
    eventCode (name ++ 58 :: rest) = eventCode (name ++ [58]) := by
  obtain ⟨i, hi⟩ := Option.isSome_iff_exists.mp (findSub_isSome.mpr hname)
  have hsw : literal "SW" ≠ [] := by decide
  have hlen := findSub_add_length_le hi hsw
  have hdrop : ∀ t : Bytes, (name ++ t).drop i = name.drop i ++ t := fun t =>
    List.drop_append_of_le_length (by omega)
  -- the word ends in the name, or at the colon
  have hsplit : ∃ word c, endsCode c = true ∧ (∀ b ∈ word, endsCode b = false) ∧
      ∀ t, ∃ t', name.drop i ++ 58 :: t = word ++ c :: t' := by
    cases hrest : (name.drop i).dropWhile (!endsCode ·) with
    | nil =>
        refine ⟨name.drop i, 58, by decide, fun b hb => ?_, fun t => ⟨t, rfl⟩⟩
        simpa using List.dropWhile_eq_nil_iff.mp hrest b hb
    | cons c t₀ =>
        refine ⟨(name.drop i).takeWhile (!endsCode ·), c, ?_, fun b hb => ?_, fun t => ?_⟩
        · have hc := List.head?_dropWhile_not (!endsCode ·) (name.drop i)
          rw [hrest] at hc
          simpa using hc
        · simpa using List.mem_takeWhile_imp hb
        · refine ⟨t₀ ++ 58 :: t, ?_⟩
          conv_lhs => rw [← List.takeWhile_append_dropWhile (p := (!endsCode ·)) (l := name.drop i)]
          rw [hrest, List.append_assoc, List.cons_append]
  obtain ⟨word, c, hc, hword, hends⟩ := hsplit
  obtain ⟨t₁, ht₁⟩ := hends rest
  obtain ⟨t₂, ht₂⟩ := hends []
  rw [eventCode_of_found (findSub_append_of_some hi hsw _) ((hdrop _).trans ht₁) hword hc,
    eventCode_of_found (findSub_append_of_some hi hsw _) ((hdrop _).trans ht₂) hword hc]

/-- The name of the utility has no `SW`, or its first word with it is the name of
the event. -/
def UtilityPasses (utilname : CString) (e : SwEvent) : Prop :=
  ¬literal "SW" <:+: utilname.bytes ∨ eventCode (utilname.bytes ++ [58]) = some e.codeM

/-- A buffer that has room for the front of a text. -/
theorem take_front {front : Bytes} {c : UInt8} {n : Nat} (h : front.length < n) (tail : Bytes) :
    ∃ rest, (front ++ c :: tail).take n = front ++ c :: rest := by
  obtain ⟨m, rfl⟩ := Nat.exists_eq_add_of_lt h
  rw [Nat.add_assoc, List.take_length_add_append, List.take_succ_cons]
  exact ⟨_, rfl⟩

theorem getStructByMessage_iff (he : e ∈ untilNil eventsArray) (hname : EventName e.codeM)
    (s : CString) (sVerbose verboseLevel : Int) (host loc msg : CString) :
    getStructByMessage (sweventMessage (swlibUtilnameSet s) sVerbose e.valueM host loc msg
        verboseLevel) eventsArray = some e ↔ UtilityPasses (swlibUtilnameSet s) e := by
  have hshort : (swlibUtilnameSet s).bytes.length ≤ 29 := CString.strlen_take_le 29 s
  have hcode := hname.short
  obtain ⟨rest, hline⟩ : ∃ rest, (sweventMessage (swlibUtilnameSet s) sVerbose e.valueM host loc msg
      verboseLevel).take 99 =
        (swlibUtilnameSet s).bytes ++ 58 :: 32 :: (e.codeM ++ 32 :: rest) := by
    have hfront : ((swlibUtilnameSet s).bytes ++ 58 :: 32 :: e.codeM).length < 99 := by
      rw [List.length_append, List.length_cons, List.length_cons]
      omega
    obtain ⟨rest, hrest⟩ := take_front (c := 32) hfront (literal "on" ++ 32 :: (loc.bytes ++
      32 :: (eventHost sVerbose verboseLevel ++ 58 :: ([] ++ 32 :: msg.bytes))))
    refine ⟨rest, ?_⟩
    rw [List.append_assoc, List.append_assoc] at hrest
    rw [sweventMessage_eq he, List.nil_append]
    exact hrest
  have hfind : (untilNil eventsArray).find? (·.codeM = e.codeM) = some e :=
    find?_key (·.codeM) nodup_codes he
  rw [getStructByMessage, hline, UtilityPasses]
  by_cases hsw : literal "SW" <:+: (swlibUtilnameSet s).bytes
  · rw [eventCode_name hsw, or_iff_right (not_not.mpr hsw)]
    constructor
    · intro hget
      split at hget
      next => cases hget
      next word hword =>
        have hpass := List.find?_some hget
        rw [hword, of_decide_eq_true hpass]
    · intro hword
      rw [hword]
      exact hfind
  · rw [hname.eventCode_eq hsw]
    exact iff_of_true hfind (.inl hsw)

/-! ## The text and the event -/

/-- Nothing in the text is taken for another event: no event in front of this one
has its name in the text. -/
def Unmistakable (utilname : CString) (e : SwEvent) (loc msg : CString) : Prop :=
  ∀ e' ∈ earlier e, e'.codeM ≠ [] →
    ∀ text ∈ [utilname.bytes, e.codeM, loc.bytes, msg.bytes], ¬e'.codeM <:+: text

/-- Both routines find the event of a text. -/
def EventRoundTrips (utilname : CString) (sVerbose verboseLevel : Int) (host loc msg : CString)
    (e : SwEvent) : Prop :=
  let line := sweventMessage utilname sVerbose e.valueM host loc msg verboseLevel
  sweventGetValue eventsArray line = e.valueM ∧ getStructByMessage line eventsArray = some e

/-- Both routines find the event if nothing in the text is taken for another one. -/
theorem roundTrips_iff (s : CString) (sVerbose verboseLevel : Int) (host loc msg : CString)
    {e : SwEvent} (he : e ∈ untilNil eventsArray) (hne : e.codeM ≠ []) :
    EventRoundTrips (swlibUtilnameSet s) sVerbose verboseLevel host loc msg e ↔
      Unmistakable (swlibUtilnameSet s) e loc msg ∧ UtilityPasses (swlibUtilnameSet s) e := by
  have hname := eventName_of_mem e he hne
  have hin : e.codeM <:+: sweventMessage (swlibUtilnameSet s) sVerbose e.valueM host loc msg
      verboseLevel :=
    (hname.infix_message_iff he _ _ _ _ _ _).mpr
      ⟨e.codeM, List.mem_cons_of_mem _ List.mem_cons_self, List.infix_rfl⟩
  rw [EventRoundTrips, sweventGetValue_iff he hne hin, getStructByMessage_iff he hname]
  refine and_congr_left' (forall₃_congr fun e' he' hne' => ?_)
  have hmem : e' ∈ untilNil eventsArray := (List.takeWhile_prefix _).subset he'
  rw [(eventName_of_mem e' hmem hne').infix_message_iff he]
  push Not
  rfl

end

/-- `SWI_MSG`, `swcopy`, and no texts. -/
def swiMsg : SwEvent := ⟨literal "SWI_MSG", 314⟩

def swcopyName : CString := ⟨literal "swcopy", by decide⟩

theorem roundTrips_swiMsg :
    swiMsg ∈ untilNil eventsArray ∧ swiMsg.codeM ≠ [] ∧
      (EventRoundTrips (swlibUtilnameSet swcopyName) 4 4 .empty .empty .empty swiMsg ↔
        Unmistakable (swlibUtilnameSet swcopyName) swiMsg .empty .empty ∧
          UtilityPasses (swlibUtilnameSet swcopyName) swiMsg) := by
  have hmem : swiMsg ∈ untilNil eventsArray := by decide +kernel
  have hne : swiMsg.codeM ≠ [] := by decide
  exact ⟨hmem, hne, roundTrips_iff swcopyName 4 4 .empty .empty .empty hmem hne⟩

/-- `SW_SELECTION_NOT_FOUND_RELATED` is taken for `SW_SELECTION_NOT_FOUND`. -/
theorem not_roundTrips_related :
    ¬∀ (s : CString) (sVerbose verboseLevel : Int) (host loc msg : CString) (e : SwEvent),
      e ∈ untilNil eventsArray → e.codeM ≠ [] →
        EventRoundTrips (swlibUtilnameSet s) sVerbose verboseLevel host loc msg e := by
  intro h
  have hround := h swcopyName 4 4 .empty .empty .empty
    ⟨literal "SW_SELECTION_NOT_FOUND_RELATED", 63⟩ (by decide +kernel) (by decide)
  have hvalue : sweventGetValue eventsArray (sweventMessage (swlibUtilnameSet swcopyName) 4 63 .empty
      .empty .empty 4) = 63 := hround.1
  exact absurd hvalue (by decide +kernel)

end Swbis.Misc
