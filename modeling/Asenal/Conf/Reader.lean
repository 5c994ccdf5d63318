import Asenal.Lib.CString
import Mathlib.Data.List.DropRight
import Mathlib.Logic.Function.Basic

/-!
# Configuration files

The reader of the configuration library. It takes a file line by line, with a buffer of 4095 bytes,
and runs a state machine over each line: blanks in front of the name, the name, what separates it
from the value, and the value, which is copied as a whole when its second character is met. A line
that the machine does not accept is skipped; only a name that is too long or a full table ends the
reading.

The two scratch arrays keep their contents from line to line, but the machine writes both of them
before it accepts a line.
-/

namespace Asenal.Conf

open Asenal.Lib.Text Asenal.Lib.CString

/-! ## The table -/

/-- `LINE_SIZE`. Source: `ul_def.h`. -/
def lineSize : ℕ := 4096

/-- `WORD_SIZE`. Source: `ul_def.h`. -/
def wordSize : ℕ := 2048

/-- An item: the C strings in its two arrays. Source: `ul_conf.h` `ul_confitem_t`. -/
structure ConfItem where
  name : Bytes
  value : Bytes
  deriving DecidableEq

/-- A table of `size` items, `num` of which are in use. Source: `ul_conf.h` `ul_confdata_t`. -/
structure ConfData where
  num : ℕ
  size : ℕ
  item : ℕ → ConfItem

/-- The items in use, in order. -/
def ConfData.items (d : ConfData) : List ConfItem := (List.range d.num).map d.item

/-- `snprintf(word, sizeof(word), "%s", s)` for an array of an item: what the array holds after
it. -/
def printWord (s : Bytes) : Bytes := s.take (wordSize - 1)

/-! ## One line -/

/-- `SPACE` and `TAB`. -/
def isBlank (b : UInt8) : Bool := b == 32 || b == 9

/-- The two characters that end a line. -/
def isEol (b : UInt8) : Bool := b == 13 || b == 10

/-- The states of the machine, in the order of their numbers in the source. -/
inductive Status
  | lead
  | name
  | gap
  | value
  | done
  | bad
  | empty
  deriving DecidableEq

/-- The state of the machine with `sep_sign`, the first `j` characters of `str_tmp1`, and
`str_tmp2`. -/
structure LineScan where
  status : Status
  sepSign : Bool
  tmp1 : Bytes
  tmp2 : Bytes
  deriving DecidableEq

/-- The line without the blanks and line ends at its end. -/
def trimTail (line : Bytes) : Bytes := line.rdropWhile fun b => isBlank b || isEol b || b == 0

/-- One character `ch` at the position `i` of a line; `none` if the name does not fit. Source:
`ul_conf.cpp` `readconf_no_dir`, the `switch`. -/
def LineScan.step (line : Bytes) (i : ℕ) (ch : UInt8) (st : LineScan) : Option LineScan :=
  match st.status with
  | .lead =>
      if isBlank ch then some st
      else if isEol ch then some { st with status := .empty }
      else if ch = 58 then some { st with status := .bad }
      else some { st with tmp1 := [ch], status := .name }
  | .name =>
      if isBlank ch ∨ ch = 58 then
        some { st with sepSign := st.sepSign || ch == 58, status := .gap }
      else if isEol ch then some { st with status := .bad }
      else if wordSize ≤ (st.tmp1 ++ [ch]).length then none
      else some { st with tmp1 := st.tmp1 ++ [ch] }
  | .gap =>
      if isBlank ch ∨ ch = 58 then
        if ch = 58 ∧ st.sepSign = false then some { st with sepSign := true }
        else if ch = 58 then some { st with status := .value }
        else some st
      else if isEol ch then some { st with tmp2 := [], status := .done }
      else some { st with status := .value }
  | .value =>
      let line := trimTail line
      if 1 ≤ i ∧ i ≤ line.length ∧ line.length - i + 1 < wordSize then
        some { st with tmp2 := (line.drop (i - 1)).take (wordSize - 1), status := .done }
      else some { st with status := .bad }
  | .done | .bad | .empty => some st

/-- The `for` loop over the characters of a line from the position `i` on. -/
def scanFrom (line : Bytes) (i : ℕ) : Bytes → LineScan → Option LineScan
  | [], st => some st
  | ch :: rest, st =>
      if st.status = .done ∨ st.status = .bad then some st
      else
        match st.step line i ch with
        | none => none
        | some st => scanFrom line (i + 1) rest st

/-- The machine on a line; the loop includes the terminator of the line. -/
def scanLine (line : Bytes) : Option LineScan :=
  scanFrom line 0 (line ++ [0]) ⟨.lead, false, [], []⟩

/-! ## The file -/

/-- The loop over the lines, with `item_num` items in the table. Source: `ul_conf.cpp`
`readconf_no_dir`, the `while` loop. -/
def readLoop (d : ConfData) : List Bytes → ℕ → ℤ × ConfData
  | [], itemNum => (1, { d with num := itemNum })
  | infStr :: rest, itemNum =>
      if d.size ≤ itemNum then (-1, d)
      else if infStr.head? = some 35 then readLoop d rest itemNum
      else if cstr infStr = [] then readLoop d rest itemNum
      else
        match scanLine (cstr infStr) with
        | none => (-1, d)
        | some st =>
            if st.status = .done ∧ st.sepSign = true then
              let item : ConfItem := ⟨printWord st.tmp1, printWord st.tmp2⟩
              readLoop { d with item := Function.update d.item itemNum item } rest (itemNum + 1)
            else readLoop d rest itemNum

/-- Read a file into a table from the item `start` on; `none` is a file that is not there, is no
regular file or cannot be opened. Source: `ul_conf.cpp` `readconf_no_dir`. -/
def readconfNoDir (file : Option Bytes) (d : ConfData) (start : ℕ) : ℤ × ConfData :=
  match file with
  | none => (-1, d)
  | some s => readLoop d (fgetsAll (lineSize - 1) s) start

/-- The files: what the regular files hold that can be read, and which paths can be opened for
writing as such a file. -/
structure Files where
  content : Bytes → Option Bytes
  writable : Bytes → Bool

/-- `snprintf(totalname, sizeof(totalname), "%s/%s", work_path, fname)`. -/
def totalname (workPath fname : Bytes) : Bytes :=
  (workPath ++ 47 :: fname).take (lineSize - 1)

/-- Source: `ul_conf.cpp` `ul_readconf`. -/
def ulReadconf (files : Files) (workPath fname : Bytes) (d : ConfData) : ℤ × ConfData :=
  readconfNoDir (files.content (totalname workPath fname)) d 0

end Asenal.Conf
