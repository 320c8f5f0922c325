import Spotflowd.Lib.Simulation
import Spotflowd.Metrics.Run
import Spotflowd.Metrics.Socket

open lines
open spotflowd.config
open spotflowd.metrics.aggregator spotflowd.metrics.socket

namespace spotflowd.metrics

/-- The metrics loop with the socket it has spawned. `drained` is what the current tick has taken
out of the channel; `accepted` is a history variable: what the channel has taken in, each
sample with the number of its connection. -/
structure Subsystem where
  runner : Runner
  listening : Bool
  connections : List Connection
  channel : Channel CHANNEL_CAPACITY MetricSample
  drained : List MetricSample
  accepted : List (Nat × MetricSample)

namespace Subsystem

/-- What can happen next: a client connects, writes or closes its side; the task that serves a
connection reads a line; a tick takes a sample out of the channel, or goes on when there
is none; the listener stops; the loop ends. -/
inductive Event where
  | connect
  | write (connection : Nat) (bytes : Bytes)
  | close (connection : Nat)
  | serve (connection : Nat) (iteration : Iteration String)
  | try_recv
  | tick (tick : Tick) (handled_at : Nat → Instant)
  | stop_listening
  | shutdown (iteration : Iteration String) (verdicts : List fs.Verdict)

/-- The samples, each with the instant at which it is handled. -/
def stamped (handled_at : Nat → Instant) (samples : List MetricSample) : List (MetricSample × Instant) :=
  samples.zipIdx.map fun sample => (sample.1, handled_at sample.2)

/-- The task of a connection goes through its loop once. -/
def serve (from_str : FromStr) (number : Nat) (iteration : Iteration String) (self : Subsystem) :
    Option Subsystem := do
  let connection ← self.connections[number]?
  let (line, connection) ← connection.next_line
  let (connection, channel, sent) :=
    handle from_str iteration (!self.runner.stopped) line connection self.channel
  return { self with
    connections := self.connections.set number connection
    channel := channel
    accepted := self.accepted ++ sent.map fun sample => (number, sample) }

/-- Something happens at the other end of a connection. -/
def client (number : Nat) (f : Connection → Connection) (self : Subsystem) : Option Subsystem :=
  self.connections[number]?.bind fun connection =>
    if connection.closed then none
    else some { self with connections := self.connections.set number (f connection) }

/-- `try_recv` finds a sample. -/
def try_recv (cfg : MetricsConfig) (self : Subsystem) : Option Subsystem :=
  if cfg.custom.enabled && !self.runner.stopped then
    self.channel.recv.map fun received => { self with
      channel := received.2
      drained := self.drained ++ [received.1] }
  else none

/-- The rest of a tick, once `try_recv` finds no sample. -/
def tick (c : Ciborium) (cfg : MetricsConfig) (tick : Tick) (handled_at : Nat → Instant)
    (self : Subsystem) : Option Subsystem :=
  if self.channel.queue = [] then
    ((run c cfg).step self.runner (.tick { tick with custom := stamped handled_at self.drained })).map
      fun runner => { self with runner := runner, drained := [] }
  else none

def step (c : Ciborium) (cfg : MetricsConfig) (from_str : FromStr) (self : Subsystem) :
    Event → Option Subsystem
  | .connect =>
    if self.listening then some { self with connections := self.connections ++ [.new] } else none
  | .write number bytes => self.client number fun connection =>
      { connection with unread := connection.unread ++ bytes }
  | .close number => self.client number fun connection => { connection with closed := true }
  | .serve number iteration => self.serve from_str number iteration
  | .try_recv => self.try_recv cfg
  | .tick tick handled_at => self.tick c cfg tick handled_at
  | .stop_listening => some { self with listening := false }
  | .shutdown iteration verdicts =>
    if self.drained = [] then
      ((run c cfg).step self.runner (.shutdown iteration verdicts)).map fun runner =>
        { self with runner := runner }
    else none

/-- The metrics loop before its first tick; `bound` tells whether the socket could be set up. -/
def start (cfg : MetricsConfig) (runner : Runner) (bound : Bool) : Subsystem where
  runner := runner
  listening := cfg.custom.enabled && bound
  connections := []
  channel := .empty
  drained := []
  accepted := []

end Subsystem

/-- The metrics loop and its clients, in any order of their steps. -/
def subsystem (c : Ciborium) (cfg : MetricsConfig) (from_str : FromStr) :
    Machine Subsystem Subsystem.Event where
  step := Subsystem.step c cfg from_str

end spotflowd.metrics
