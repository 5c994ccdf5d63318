import Asenal.Lib.Bounded
import Asenal.Lib.Scan

/-!
# The layout of a log line

A line is rendered into the buffer of the event: an optional prefix with the log version and type, and
the fields and characters of the pattern, one behind the other. Each field is printed with the room that
is left, and its untruncated length decides whether the line is at its end.

* `Layout.format` — the line of an event.
* `Layout.fmtpattern` — the pushed pairs, with a pattern of their own.
-/

namespace Asenal.Comlog

open Asenal.Lib.Text Asenal.Lib.Memory Asenal.Lib.Bounded

/-! ## Events -/

structure TimeVal where
  tvSec : Int64
  tvUsec : Int64

/-- The fields of `struct tm` that are printed. -/
structure Tm where
  mon : Int32
  mday : Int32
  hour : Int32
  min : Int32
  sec : Int32

/-- What is rendered of an event. The texts end before their NUL. Source: `event.h` `Event`. -/
structure Event where
  logLevel : UInt32
  logVersion : Int32
  logType : Bytes
  printTime : TimeVal
  procName : Bytes
  threadId : UInt64
  /-- The keys and values that were pushed. -/
  ndcs : List (Bytes × Bytes)
  /-- The first `_msgbuf_len` bytes of the message. -/
  msgbuf : Bytes
  renderMsgbufSize : Int32

/-- What the rest of the process and the C library supply: the level names, the format that
`setTimeFormat` stored, the host name, `localtime_r`, and `strftime` of a local time. What `strftime`
leaves in a buffer that is too small for the text is not specified. -/
structure Env where
  levelName : ℕ → Bytes
  timeFormat : Bytes
  hostname : Bytes
  localtime : Int64 → Tm
  strftime : Bytes → Int64 → Bytes
  strftimeRest : ℕ → Bytes

/-- The patterns of the line and of the pairs. Source: `layout.h` `Layout`. -/
structure Layout where
  pattern : Bytes
  ndcPattern : Bytes

/-! ## Fields -/

/-- `COM_LEVELNUM`. Source: `comlog.h`. -/
def comLevelNum : ℕ := 64

/-- Source: `logcore.cpp` `getLogName`. -/
def getLogName (env : Env) (logid : UInt32) : Bytes := env.levelName (logid.toNat % comLevelNum)

/-- A number of `%0wd`. -/
def zeroPad (w : ℕ) (z : ℤ) : Bytes :=
  let ds := dec z.natAbs
  if z < 0 then 45 :: (List.replicate (w - 1 - ds.length) 48 ++ ds)
  else List.replicate (w - ds.length) 48 ++ ds

/-- `"%02d-%02d %02d:%02d:%02d"`. Source: `xutils.cpp` `xfmtime` of a `time_t`. -/
def xfmtime (env : Env) (now : Int64) : Bytes :=
  let vtm := env.localtime now
  zeroPad 2 (vtm.mon.toInt + 1) ++ 45 :: zeroPad 2 vtm.mday.toInt ++ 32 :: zeroPad 2 vtm.hour.toInt ++
    58 :: zeroPad 2 vtm.min.toInt ++ 58 :: zeroPad 2 vtm.sec.toInt

/-- The same with `":%03d"` behind it. Source: `xutils.cpp` `xfmtime` of a `timeval`. -/
def xfmtimeval (env : Env) (tv : TimeVal) : Bytes :=
  xfmtime env tv.tvSec ++ 58 :: zeroPad 3 (tv.tvUsec.toInt32.toInt.tdiv 1000)

/-- What the character behind a `%` stands for. -/
inductive Spec
  | level | fullTime | thread | time | customTime | millis | process | ndc | host | message | other
  deriving DecidableEq

/-- The cases of the `switch`; `%%` prints nothing, like any other character. -/
def specOf : UInt8 → Spec
  | 76 => .level
  | 65 => .fullTime
  | 84 => .thread
  | 68 => .time
  | 89 => .customTime
  | 85 => .millis
  | 80 => .process
  | 78 => .ndc
  | 72 => .host
  | 82 => .message
  | _ => .other

/-- The space that is left, as the `size_t` that `snprintf` takes. -/
def room (bufsiz ptr : ℕ) : ℕ := if ptr ≤ bufsiz then bufsiz - ptr else 2 ^ 64 - (ptr - bufsiz)

/-- `ret = snprintf(buf + ptr, bufsiz - ptr, "%s", t)`. -/
def printField (bufsiz ptr : ℕ) (b : Buffer) (t : Bytes) : ℕ × Buffer :=
  (t.length, snprintf b ptr (room bufsiz ptr) t)

/-- Source: `xutils.cpp` `xstrcpy`. -/
def xstrcpy (b : Buffer) (pos destsiz : ℕ) (src : Bytes) : ℕ × Buffer :=
  let len := if destsiz ≤ src.length then destsiz - 1 else src.length
  (len, b.put pos (src.take len ++ [0]))

/-- `strftime`: the length of the text, or zero if it does not fit. -/
def strftime (env : Env) (b : Buffer) (pos size : ℕ) (now : Int64) : ℕ × Buffer :=
  let t := env.strftime env.timeFormat now
  if t.length < size then (t.length, b.put pos (t ++ [0]))
  else (0, b.put pos ((env.strftimeRest size).take size))

/-- Where a field ends. -/
inductive Tail
  /-- `ret + ptr` is no `int`. -/
  | overflow
  /-- `ptr = bufsiz; goto end`. -/
  | stop
  /-- `ptr += ret`. -/
  | go (ptr : ℕ)

/-- Source: `layout.cpp` `CHECKTAIL` and the line behind it. -/
def checkTail (bufsiz ptr ret : ℕ) : Tail :=
  if 2 ^ 31 ≤ ret + ptr then .overflow
  else if bufsiz < ret + ptr then .stop
  else .go (ptr + ret)

/-! ## The pairs -/

/-- How a loop of `fmtpattern` ends. -/
inductive Flow
  | overflow
  /-- `return 0`. -/
  | full (b : Buffer)
  /-- `goto end`. -/
  | stop (ptr : ℕ) (b : Buffer)
  | next (ptr : ℕ) (b : Buffer)

/-- One pair; `buf` is at `base`. Source: `layout.cpp` `Layout::fmtpattern`, the inner loop. -/
def fmtNode (ndc : Bytes × Bytes) (base bufsiz : ℕ) : Bytes → ℕ → Buffer → Flow
  | [], ptr, b => .next ptr b
  | c :: pattern, ptr, b =>
      if bufsiz ≤ ptr then .full b
      else if c ≠ 37 then fmtNode ndc base bufsiz pattern (ptr + 1) (b.put (base + ptr) [c])
      else
        match pattern with
        | [] => .next ptr b
        | d :: pattern =>
            if d = 75 ∨ d = 86 then
              let t := if d = 75 then ndc.1 else ndc.2
              let b := snprintf b (base + ptr) (bufsiz - ptr) t
              match checkTail bufsiz ptr t.length with
              | .overflow => .overflow
              | .stop => .stop bufsiz b
              | .go ptr => fmtNode ndc base bufsiz pattern ptr b
            else if d = 37 then
              let b := b.put (base + ptr) [37]
              match checkTail bufsiz ptr 1 with
              | .overflow => .overflow
              | .stop => .stop bufsiz b
              | .go ptr => fmtNode ndc base bufsiz pattern ptr b
            else fmtNode ndc base bufsiz pattern ptr b

/-- All pairs. Source: `layout.cpp` `Layout::fmtpattern`, the outer loop. -/
def fmtNodes (pattern : Bytes) (base bufsiz : ℕ) : List (Bytes × Bytes) → ℕ → Buffer → Flow
  | [], ptr, b => .next ptr b
  | ndc :: ndcs, ptr, b =>
      match fmtNode ndc base bufsiz pattern ptr b with
      | .next ptr b => fmtNodes pattern base bufsiz ndcs ptr b
      | flow => flow

/-- What is behind the label `end`. Source: `layout.cpp` `Layout::fmtpattern`. -/
def fmtEnd (base bufsiz ptr : ℕ) (b : Buffer) : ℕ × Buffer :=
  let ptr := if bufsiz ≤ ptr then ptr - 1 else ptr
  (ptr, b.put (base + ptr) [0])

/-- The pairs of an event; `none` if an addition overflows. Source: `layout.cpp`
`Layout::fmtpattern`. -/
def Layout.fmtpattern (lay : Layout) (evt : Event) (b : Buffer) (base bufsiz : ℕ) :
    Option (ℕ × Buffer) :=
  match fmtNodes lay.ndcPattern base bufsiz evt.ndcs 0 b with
  | .overflow => none
  | .full b => some (0, b)
  | .stop ptr b => some (fmtEnd base bufsiz ptr b)
  | .next ptr b => some (fmtEnd base bufsiz ptr b)

/-! ## The line -/

/-- A field of the line: what it returns. Source: `layout.cpp` `Layout::format`, the `switch`. -/
def fmtField (env : Env) (lay : Layout) (evt : Event) (bufsiz ptr : ℕ) (b : Buffer) :
    Spec → Option (ℕ × Buffer)
  | .level => some (printField bufsiz ptr b (getLogName env evt.logLevel))
  | .fullTime => some (printField bufsiz ptr b (xfmtimeval env evt.printTime))
  | .thread => some (printField bufsiz ptr b (dec evt.threadId.toUInt32.toNat))
  | .time => some (printField bufsiz ptr b (xfmtime env evt.printTime.tvSec))
  | .customTime => some (strftime env b ptr (bufsiz - ptr) evt.printTime.tvSec)
  | .millis => some (printField bufsiz ptr b (dec (evt.printTime.tvUsec / 1000).toUInt64.toNat))
  | .process => some (printField bufsiz ptr b evt.procName)
  | .ndc => lay.fmtpattern evt b ptr (bufsiz - ptr)
  | .host => some (xstrcpy b ptr (bufsiz - ptr) env.hostname)
  | .message => some (xstrcpy b ptr (bufsiz - ptr) evt.msgbuf)
  -- nothing is printed, and nothing checked
  | .other => some (0, b)

/-- The pattern, up to the label `end`. Source: `layout.cpp` `Layout::format`, the loop. -/
def fmtLoop (env : Env) (lay : Layout) (evt : Event) (bufsiz : ℕ) :
    Bytes → ℕ → Buffer → Option (ℕ × Buffer)
  | [], ptr, b => some (ptr, b)
  | c :: pattern, ptr, b =>
      if bufsiz ≤ ptr then some (ptr, b)
      else if c ≠ 37 then fmtLoop env lay evt bufsiz pattern (ptr + 1) (b.put ptr [c])
      else
        match pattern with
        | [] => some (ptr, b)
        | d :: pattern =>
            match fmtField env lay evt bufsiz ptr b (specOf d) with
            | none => none
            | some (ret, b) =>
                match checkTail bufsiz ptr ret with
                | .overflow => none
                | .stop => some (bufsiz, b)
                | .go ptr => fmtLoop env lay evt bufsiz pattern ptr b

/-- One part of the prefix and the space behind it. Source: `layout.cpp` `Layout::format`. -/
def fmtPart (bufsiz ptr : ℕ) (b : Buffer) (t : Bytes) : Tail × Buffer :=
  let r := printField bufsiz ptr b t
  match checkTail bufsiz ptr r.1 with
  | .overflow => (.overflow, r.2)
  | .stop => (.stop, r.2)
  | .go ptr => (.go (ptr + 1), r.2.put ptr [32])

/-- Whether the prefix is printed. -/
def Event.hasPrefix (evt : Event) : Prop := 0 ≤ evt.logVersion ∧ evt.logType ≠ []

instance (evt : Event) : Decidable evt.hasPrefix := inferInstanceAs (Decidable (_ ∧ _))

/-- The log version, as it is printed. -/
def Event.version (evt : Event) : Bytes := decInt evt.logVersion.toInt

/-- The prefix and the pattern, up to the label `end`. Source: `layout.cpp` `Layout::format`. -/
def fmtText (env : Env) (lay : Layout) (evt : Event) (bufsiz : ℕ) (b : Buffer) :
    Option (ℕ × Buffer) :=
  if evt.hasPrefix then
    match fmtPart bufsiz 0 b evt.version with
    | (.overflow, _) => none
    | (.stop, b) => some (bufsiz, b)
    | (.go ptr, b) =>
        match fmtPart bufsiz ptr b evt.logType with
        | (.overflow, _) => none
        | (.stop, b) => some (bufsiz, b)
        | (.go ptr, b) => fmtLoop env lay evt bufsiz lay.pattern ptr b
  else fmtLoop env lay evt bufsiz lay.pattern 0 b

/-- What becomes of an event. -/
inductive Formatted
  /-- The buffer is too small, and the result -1. -/
  | refused
  /-- An addition overflows. -/
  | undefined
  /-- The length of the line, and the buffer. -/
  | line (len : ℕ) (b : Buffer)

/-- What is behind the label `end`: the line is cut for the line feed and the NUL. Source:
`layout.cpp` `Layout::format`. -/
def fmtLine (bufsiz ptr : ℕ) (b : Buffer) : Formatted :=
  let ptr := if bufsiz - 1 ≤ ptr then bufsiz - 2 else ptr
  .line (ptr + 1) ((b.put ptr [10]).put (ptr + 1) [0])

/-- Source: `layout.cpp` `Layout::format`. -/
def Layout.format (env : Env) (lay : Layout) (evt : Event) (b : Buffer) : Formatted :=
  let bufsiz := evt.renderMsgbufSize.toInt.toNat
  if bufsiz < 2 then .refused
  else
    match fmtText env lay evt bufsiz b with
    | none => .undefined
    | some (ptr, b) => fmtLine bufsiz ptr b

end Asenal.Comlog
