import Stepwise.Error.Basic
/-!
# Output

What a session writes goes to a sink. A sink may have room for a number of bytes only: it keeps
what fits of a text, and the write fails if that is not all of it.
-/

namespace Stepwise

/-- Where output goes. -/
structure Sink where
  written : ByteArray
  /-- How many bytes fit in all; `none` if there is no limit. -/
  capacity : Option Nat

namespace Sink

/-- A sink into which nothing was written. -/
def empty (capacity : Option Nat) : Sink :=
  ⟨.empty, capacity⟩

/-- How many of `size` bytes fit. -/
def room (sink : Sink) (size : Nat) : Nat :=
  match sink.capacity with
  | none => size
  | some n => min size (n - sink.written.size)

/-- Writes a text, as much of it as fits. -/
def write (sink : Sink) (text : String) : Except StreamError Unit × Sink :=
  let bytes := text.toUTF8
  let room := sink.room bytes.size
  if room = bytes.size then (.ok (), { sink with written := sink.written ++ bytes })
  else (.error .full, { sink with written := sink.written ++ bytes.extract 0 room })

/-- Writes a text and ends its line. -/
def writeLine (sink : Sink) (text : String) : Except StreamError Unit × Sink :=
  sink.write (text ++ "\n")

/-- Without a limit every write succeeds. -/
theorem write_of_unlimited {sink : Sink} (h : sink.capacity = none) (text : String) :
    sink.write text = (.ok (), { sink with written := sink.written ++ text.toUTF8 }) := by
  simp [write, room, h]

/-- A write keeps the capacity. -/
@[simp]
theorem capacity_write (sink : Sink) (text : String) :
    (sink.write text).2.capacity = sink.capacity := by
  simp only [write]
  split <;> rfl

end Sink

end Stepwise
