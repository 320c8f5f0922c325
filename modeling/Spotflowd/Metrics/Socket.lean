import Spotflowd.Lib.Channel
import Spotflowd.Lib.LineStream
import Spotflowd.Lib.Tokens
import Spotflowd.Metrics.Aggregator

open lines str
open spotflowd.metrics.aggregator

namespace spotflowd.metrics.socket

/-- A message as it is read from a line. -/
structure IncomingMetric where
  name : String
  value : ℚ
  labels : HashMap String String
deriving DecidableEq

/-- `serde_json::from_str::<IncomingMetric>`. -/
abbrev FromStr := String → Option IncomingMetric

/-- The sample of a message: its labels, met in some order, sorted by key. -/
def IncomingMetric.sample (iteration : Iteration String) (self : IncomingMetric) : MetricSample where
  name := self.name
  value := .Float self.value
  labels := (iteration.iter self.labels).insertionSort fun a b => a.1 ≤ b.1
  counter := false
  raw := false

/-- What `lines` does with the end of a line. -/
def strip_newline (line : Str) : Str :=
  if line.getLast? = some '\n' then
    if line.dropLast.getLast? = some '\r' then line.dropLast.dropLast else line.dropLast
  else line

/-- What a line that was read makes the loop do: end, go on with the next line, or send. -/
inductive Turn where
  | ended
  | skipped
  | received (msg : IncomingMetric)

/-- The line a connection has read: none at the end of the stream, an error if it is not UTF-8, and
otherwise blank, not a message, or a message. -/
def turn (from_str : FromStr) (bytes : Bytes) : Turn :=
  if bytes = [] then .ended
  else
    match cbor.ofUtf8 bytes with
    | none => .ended
    | some line =>
      let line := trim (strip_newline line.toList)
      if line = [] then .skipped
      else
        match from_str (String.ofList line) with
        | some msg => .received msg
        | none => .skipped

/-- Where `handle_connection` stands: in its loop, or out of it because nothing more can be
read or because a sample could not be sent. -/
inductive Pc where
  | reading
  | finished
  | refused
deriving DecidableEq

/-- A client that has connected and the task that serves it. `read` is a history variable: what
the task has read. -/
structure Connection where
  unread : Bytes
  closed : Bool
  pc : Pc
  read : Bytes
deriving DecidableEq

namespace Connection

def new : Connection := ⟨[], false, .reading, []⟩

/-- A line can be read once it is whole, or nothing more will come. -/
def Ready (self : Connection) : Prop := self.pc = .reading ∧ (NEWLINE ∈ self.unread ∨ self.closed = true)

instance (self : Connection) : Decidable self.Ready :=
  inferInstanceAs (Decidable (_ ∧ (_ ∨ _)))

/-- `next_line`: the line, and the connection it is read from. -/
def next_line (self : Connection) : Option (Bytes × Connection) :=
  if self.Ready then
    let line := lines.next_line self.unread
    some (line, { self with unread := self.unread.drop line.length, read := self.read ++ line })
  else none

end Connection

/-- Capacity of the channel from the connections to the metrics loop. -/
abbrev CHANNEL_CAPACITY : Nat := 1024

/-- The body of the loop of `handle_connection` after a line was read. Sending does not wait:
it fails when the channel is full, and once the receiver is gone. -/
def handle (from_str : FromStr) (iteration : Iteration String) (receiver : Bool) (line : Bytes)
    (connection : Connection) (channel : Channel CHANNEL_CAPACITY MetricSample) :
    Connection × Channel CHANNEL_CAPACITY MetricSample × List MetricSample :=
  match turn from_str line with
  | .ended => ({ connection with pc := .finished }, channel, [])
  | .skipped => (connection, channel, [])
  | .received msg =>
    let sample := msg.sample iteration
    match if receiver then channel.send sample else none with
    | some channel => (connection, channel, [sample])
    | none => ({ connection with pc := .refused }, channel, [])

/-- Different orders of the labels give the same sample. -/
theorem IncomingMetric.sample_eq (self : IncomingMetric) (iteration other : Iteration String) :
    self.sample iteration = self.sample other := by
  have hperm : (other.iter self.labels).Perm (iteration.iter self.labels) :=
    (other.iter_perm self.labels).trans (iteration.iter_perm self.labels).symm
  unfold sample
  rw [sorted_perm (iteration.nodup_iter self.labels) hperm]

/-- The samples in some lines, up to a line that is not UTF-8. -/
def said (from_str : FromStr) (iteration : Iteration String) : List Bytes → List MetricSample
  | [] => []
  | line :: more =>
    match turn from_str line with
    | .ended => []
    | .skipped => said from_str iteration more
    | .received msg => msg.sample iteration :: said from_str iteration more

/-- None of some lines ends the loop. -/
def Legible (from_str : FromStr) (lines : List Bytes) : Prop :=
  ∀ line ∈ lines, turn from_str line ≠ .ended

/-- The samples of one line. -/
def Turn.samples (iteration : Iteration String) : Turn → List MetricSample
  | .ended => []
  | .skipped => []
  | .received msg => [msg.sample iteration]

theorem Turn.samples_eq (self : Turn) (iteration other : Iteration String) :
    self.samples iteration = self.samples other := by
  cases self with
  | ended => rfl
  | skipped => rfl
  | received msg => exact congrArg (fun sample => [sample]) (msg.sample_eq iteration other)

theorem said_append {from_str : FromStr} {lines : List Bytes} (hlegible : Legible from_str lines)
    (iteration : Iteration String) (more : List Bytes) :
    said from_str iteration (lines ++ more) =
      said from_str iteration lines ++ said from_str iteration more := by
  induction lines with
  | nil => rfl
  | cons line lines ih =>
    obtain ⟨hline, hrest⟩ := List.forall_mem_cons.mp hlegible
    have ih := ih hrest
    rw [List.cons_append, said, said]
    cases hturn : turn from_str line with
    | ended => exact absurd hturn hline
    | skipped => exact ih
    | received msg => exact congrArg _ ih

theorem said_singleton (from_str : FromStr) (iteration : Iteration String) (line : Bytes) :
    said from_str iteration [line] = (turn from_str line).samples iteration := by
  rw [said]
  cases turn from_str line <;> rfl

end spotflowd.metrics.socket
