import Spotflowd.Lib.Channel
import Spotflowd.Lib.Simulation
import Spotflowd.Orchestrator.Shutdown

open effect fs chunked
open spotflowd.buffer spotflowd.config spotflowd.log_entry spotflowd.mqtt

namespace spotflowd.orchestrator

/-- The log sources `run` spawns. -/
inductive Source where
  | journald
  | syslog
deriving DecidableEq

/-- The log section with the switches of the sources. -/
structure SourcesConfig where
  journald : Bool
  syslog : Bool

def SourcesConfig.spawned (cfg : SourcesConfig) : List Source :=
  (if cfg.journald then [.journald] else []) ++ if cfg.syslog then [.syslog] else []

/-- Where the ingestion task stands. -/
inductive Ingester where
  /-- at `select!` -/
  | receiving
  /-- an entry is out of the channel, the lock not yet held -/
  | locking (entry : LogEntry)
  | finished
deriving DecidableEq

/-- The entry the ingestion task holds. -/
def Ingester.holding : Ingester → List LogEntry
  | .locking entry => [entry]
  | _ => []

/-- Capacity of the channel from the sources to the ingestion task. -/
abbrev CHANNEL_CAPACITY : Nat := 4096

/-- All of `run`: the sources that still hold a sender, the channel, the ingestion task and
the log path. `sent` and `taken` are history variables: what the channel has accepted, and
what the ingestion task has called `push` with. After the ingestion task has ended, the
queue is what it never received. -/
structure Pipeline where
  live : List Source
  channel : Channel CHANNEL_CAPACITY LogEntry
  ingester : Ingester
  signalled : Bool
  system : System
  sent : List (Source × LogEntry)
  taken : List LogEntry

namespace Pipeline

/-- What can happen next: a source sends or ends, the ingestion task receives, pushes or ends
(all senders gone, or shutdown seen), the signal comes, the log path takes a step. -/
inductive Event where
  | send (source : Source) (entry : LogEntry)
  | leave (source : Source)
  | receive
  | push
  | close
  | stop
  | signal
  | daemon (event : orchestrator.Event)
deriving DecidableEq

/-- `blocking_send`: waits while the channel is full; once the receiver is gone it fails and
the source ends. -/
def send (source : Source) (entry : LogEntry) (self : Pipeline) : Option Pipeline :=
  if source ∈ self.live then
    if self.ingester = .finished then some { self with live := self.live.erase source }
    else (self.channel.send entry).map fun channel => { self with
      channel := channel
      sent := self.sent ++ [(source, entry)] }
  else none

def receive (self : Pipeline) : Option Pipeline :=
  if self.ingester = .receiving then
    self.channel.recv.map fun received => { self with
      channel := received.2
      ingester := .locking received.1 }
  else none

def push (c : Ciborium) (self : Pipeline) : Option Pipeline :=
  match self.ingester with
  | .locking entry => (ingest c entry self.system).map fun system => { self with
      system := system
      ingester := .receiving
      taken := self.taken ++ [entry] }
  | _ => none

/-- A step of the log path other than a push. Shutdown is seen after the signal. -/
def daemon (c : Ciborium) (self : Pipeline) : orchestrator.Event → Option Pipeline
  | .push _ => none
  | .shutdown =>
    if self.signalled then
      ((orchestrator.run c).step self.system .shutdown).map fun system => { self with system := system }
    else none
  | event => ((orchestrator.run c).step self.system event).map fun system => { self with system := system }

def run (c : Ciborium) : Machine Pipeline Event where
  step self
    | .send source entry => self.send source entry
    | .leave source =>
      if source ∈ self.live then some { self with live := self.live.erase source } else none
    | .receive => self.receive
    | .push => self.push c
    | .close =>
      if self.ingester = .receiving ∧ self.channel.queue = [] ∧ self.live = [] then
        some { self with ingester := .finished }
      else none
    | .stop =>
      if self.ingester = .receiving ∧ self.signalled then some { self with ingester := .finished }
      else none
    | .signal => some { self with signalled := true }
    | .daemon event => self.daemon c event

/-- The daemon at start: the sources that are switched on, an empty channel, the spool of
an earlier run. -/
def start (sources : SourcesConfig) (cfg : ValidBufferConfig) (fs : Fs) (publisher : MqttPublisher) :
    Pipeline where
  live := sources.spawned
  channel := .empty
  ingester := .receiving
  signalled := false
  system := orchestrator.start cfg fs publisher
  sent := []
  taken := []

end Pipeline

end spotflowd.orchestrator
