import Asenal.Lib.Memory
import Asenal.Lib.Text
import Asenal.Lib.Words

/-!
# Log records

An event is printed by copying its text into a record, behind a header of three words. Records are what
the queues of the appenders hold.

* `record_message` — a record holds the text of its event.
-/

namespace Asenal.Comlog

open Asenal.Lib.Memory Asenal.Lib.Text Asenal.Lib.Words

/-- A log item; `log` is the memory from its message on. Source: `comlogsvr.h` `logitem_t`. -/
structure LogItem where
  handle : UInt32
  time : UInt32
  size : UInt32
  log : Mem UInt8

/-- A record in the queue; an appender is the pointer to it. Source: `netappender.h` `netdata_t`. -/
structure Netdata (α : Type) where
  appender : α
  item : LogItem

/-- `sizeof(logitem_t)`. -/
def logitemSize : ℕ := 12

/-- The bytes of the header of an item. -/
def LogItem.header (it : LogItem) : Bytes :=
  wordBytes it.handle ++ wordBytes it.time ++ wordBytes it.size

/-- The memory from an item on: its header, and its message behind it. -/
def LogItem.memory (it : LogItem) : Mem UInt8 :=
  ofList it.header fun i => it.log (i - logitemSize)

/-- The message of an item. -/
def LogItem.message (it : LogItem) : Bytes := peek it.log 0 it.size.toNat

theorem length_header (it : LogItem) : it.header.length = logitemSize := rfl

variable {α : Type}

/-- The messages of some records. -/
def messages (l : List (Netdata α)) : List Bytes := l.map fun ndt => ndt.item.message

theorem messages_append (l m : List (Netdata α)) : messages (l ++ m) = messages l ++ messages m :=
  List.map_append

/-- An event that is printed; its print time is the second, and its length an `int`.
Source: `event.h` `Event`. -/
structure LogEvent (α : Type) where
  nowapp : α
  printTime : UInt32
  renderMsgbuf : Bytes
  renderMsgbufLen : renderMsgbuf.length < 2 ^ 31

/-- The record of an event, in memory that holds `junk`. Source: `NetAppenderSvr::push`,
`AsyncFileAppender::print`. -/
def record (id : α → Int32) (junk : Mem UInt8) (evt : LogEvent α) : Netdata α :=
  { appender := evt.nowapp
    item :=
      { handle := (id evt.nowapp).toUInt32
        time := evt.printTime
        size := UInt32.ofNat evt.renderMsgbuf.length
        log := ofList evt.renderMsgbuf junk } }

/-- **A record holds the text of its event.** -/
theorem record_message (id : α → Int32) (junk : Mem UInt8) (evt : LogEvent α) :
    (record id junk evt).item.message = evt.renderMsgbuf := by
  have hsize : (record id junk evt).item.size.toNat = evt.renderMsgbuf.length :=
    UInt32.toNat_ofNat_of_lt' (evt.renderMsgbufLen.trans (by decide))
  unfold LogItem.message
  rw [hsize]
  exact peek_poke_self junk 0 evt.renderMsgbuf

end Asenal.Comlog
