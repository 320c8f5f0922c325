import Spotflowd.Sources.Crashdump.Removal

open cbor chunked effect fs
open spotflowd.log_entry spotflowd.mqtt

namespace spotflowd.sources.crashdump

/-- One message of a crash dump, as its receiver sees it. -/
structure Fragment where
  id : UInt64
  ordinal : Nat
  content : Bytes
  is_last : Bool
  build_id : Option String
deriving DecidableEq

def nat_from_value : Value → Option Nat
  | .Integer n => if 0 ≤ n then some n.toNat else none
  | _ => none

def bytes_from_value : Value → Option Bytes
  | .Bytes content => some content
  | _ => none

/-- A flag that is only sent when it is set. -/
def flag_from_value : Option Value → Option Bool
  | none => some false
  | some (.Bool value) => some value
  | some _ => none

def read_fragment (pairs : List (Value × Value)) : Option Fragment := do
  let id ← (numbered 9 pairs).bind u64_from_value
  let ordinal ← (numbered 10 pairs).bind nat_from_value
  let content ← (numbered 11 pairs).bind bytes_from_value
  let is_last ← flag_from_value (numbered 12 pairs)
  let build_id ← option_from_value text_from_value (numbered 14 pairs)
  return { id, ordinal, content, is_last, build_id }

def receive (c : Ciborium) (message : Message) : Option Fragment :=
  match c.value_from_reader message.payload with
  | some (.Map pairs) => read_fragment pairs
  | _ => none

theorem read_fragment_chunk_map (f : Fragment) :
    read_fragment (chunk_map f.id f.ordinal f.content f.is_last f.build_id) = some f := by
  obtain ⟨id, ordinal, content, is_last, build_id⟩ := f
  have hid : (numbered 9 (chunk_map id ordinal content is_last build_id)).bind u64_from_value = some id :=
    Option.bind_eq_some_iff.mpr ⟨_, rfl, u64_from_to_value id⟩
  have hflag : flag_from_value (numbered 12 (chunk_map id ordinal content is_last build_id)) =
      some is_last := by
    cases is_last <;> cases build_id <;> rfl
  have hbuild : option_from_value text_from_value
      (numbered 14 (chunk_map id ordinal content is_last build_id)) = some build_id := by
    cases is_last <;> cases build_id <;> rfl
  rw [read_fragment, hid, hflag, hbuild]
  rfl

/-- The message of a fragment. -/
def fragment_message (c : Ciborium) (f : Fragment) : Except String Message :=
  (encode_chunk c f.id f.ordinal f.content f.is_last f.build_id).map
    fun payload => ⟨INGEST_TOPIC, .AtMostOnce, false, payload⟩

theorem receive_fragment_message {c : Ciborium} (hround : c.ValueRoundTrips) {f : Fragment}
    {message : Message} (hmessage : fragment_message c f = .ok message) : receive c message = some f := by
  unfold fragment_message at hmessage
  cases hencode : encode_chunk c f.id f.ordinal f.content f.is_last f.build_id with
  | error e =>
    rw [hencode] at hmessage
    cases hmessage
  | ok payload =>
    rw [hencode] at hmessage
    cases hmessage
    rw [receive, hround _ _ (encode_chunk_ok hencode)]
    exact read_fragment_chunk_map f

/-- The client has accepted the messages of these fragments, in this order. -/
def Sent (c : Ciborium) (fragments : List Fragment) (s t : World) : Prop :=
  ∃ sent, t.publisher.accepted = s.publisher.accepted ++ sent ∧
    sent.map Except.ok = fragments.map (fragment_message c) ∧
    sent.map (receive c) = fragments.map some

theorem Sent.nil {c : Ciborium} {s t : World} (haccepted : t.publisher.accepted = s.publisher.accepted) :
    Sent c [] s t :=
  ⟨[], by rw [haccepted, List.append_nil], rfl, rfl⟩

theorem Sent.cons {c : Ciborium} (hround : c.ValueRoundTrips) {f : Fragment} {fragments : List Fragment}
    {message : Message} {s t u : World} (hmessage : fragment_message c f = .ok message)
    (hfirst : t.publisher.accepted = s.publisher.accepted ++ [message]) (hrest : Sent c fragments t u) :
    Sent c (f :: fragments) s u := by
  obtain ⟨sent, haccepted, hmessages, hreceived⟩ := hrest
  refine ⟨message :: sent, ?_, ?_, ?_⟩
  · rw [haccepted, hfirst, List.append_assoc, List.singleton_append]
  · rw [List.map_cons, List.map_cons, hmessages, hmessage]
  · rw [List.map_cons, List.map_cons, hreceived, receive_fragment_message hround hmessage]

/-- Position of the first of these fragments that is not sent: one that does not encode, one
during whose publish the process dies, or one the client answers with an error. -/
def first_failure (c : Ciborium) : List Fragment → List Moment → List Bool → Option Nat
  | [], _, _ => none
  | f :: fragments, moments, outcomes =>
    match fragment_message c f with
    | .error _ => some 0
    | .ok _ =>
      if moments.head?.any Moment.crash || outcomes.head? == some false then some 0
      else (first_failure c fragments moments.tail outcomes.tail).map (· + 1)

/-- A publish is accepted unless the process dies before or the client answers with an error. -/
theorem publish_payload_cases (payload : Bytes) (s : World) :
    ((s.moments.head?.any Moment.crash || s.publisher.outcomes.head? == some false) = false ∧
      ∃ t, publish_payload payload s = .ok () t ∧ t.moments = s.moments.tail ∧
        t.publisher.outcomes = s.publisher.outcomes.tail ∧
        t.publisher.accepted = s.publisher.accepted ++ [⟨INGEST_TOPIC, .AtMostOnce, false, payload⟩]) ∨
    ((s.moments.head?.any Moment.crash || s.publisher.outcomes.head? == some false) = true ∧
      ∃ e t, publish_payload payload s = .error e t ∧
        t.publisher.accepted = s.publisher.accepted) := by
  rw [publish_payload, bind_run, call_run, ← s.next_crash]
  by_cases hcrash : s.next.1.crash = true
  · rw [if_pos hcrash]
    exact Or.inr ⟨by rw [hcrash, Bool.true_or], _, _, rfl, by rw [s.next_publisher]⟩
  · rw [if_neg hcrash, Bool.eq_false_iff.mpr hcrash, Bool.false_or]
    simp only [zoom, s.next_publisher, MqttPublisher.publish_payload]
    rcases houtcomes : s.publisher.outcomes with _ | ⟨_ | _, outcomes⟩
    · exact Or.inl ⟨rfl, _, rfl, s.next_moments, rfl, rfl⟩
    · exact Or.inr ⟨rfl, _, _, rfl, rfl⟩
    · exact Or.inl ⟨rfl, _, rfl, s.next_moments, rfl, rfl⟩

/-- The fragments of the pieces from the `i`-th of `n` on. -/
def fragments_from (id : UInt64) (n : Nat) (build_id : Option String) (i : Nat) (pieces : List Bytes) :
    List Fragment :=
  pieces.mapIdx fun j piece => ⟨id, i + j, piece, i + j = n - 1, build_id⟩

theorem fragments_from_cons (id : UInt64) (n : Nat) (build_id : Option String) (i : Nat) (piece : Bytes)
    (pieces : List Bytes) : fragments_from id n build_id i (piece :: pieces) =
      ⟨id, i, piece, i = n - 1, build_id⟩ :: fragments_from id n build_id (i + 1) pieces := by
  unfold fragments_from
  rw [List.mapIdx_cons]
  simp only [Nat.add_zero, Nat.add_assoc, Nat.add_comm 1]

/-- The loop sends the fragments up to the first failure. -/
theorem publish_chunks_sends {c : Ciborium} (hround : c.ValueRoundTrips) (id : UInt64) (n : Nat)
    (build_id : Option String) (i : Nat) (pieces : List Bytes) (s : World) :
    match first_failure c (fragments_from id n build_id i pieces) s.moments s.publisher.outcomes with
    | none => ∃ t, publish_chunks c id n build_id i pieces s = .ok () t ∧
        Sent c (fragments_from id n build_id i pieces) s t
    | some k => k < pieces.length ∧ ∃ e t, publish_chunks c id n build_id i pieces s = .error e t ∧
        Sent c ((fragments_from id n build_id i pieces).take k) s t := by
  induction pieces generalizing i s with
  | nil => exact ⟨s, rfl, .nil rfl⟩
  | cons piece pieces ih =>
    rw [fragments_from_cons, first_failure, publish_chunks]
    cases hencode : encode_chunk c id i piece (i = n - 1) build_id with
    | error e =>
      have hmessage : fragment_message c ⟨id, i, piece, i = n - 1, build_id⟩ = .error e := by
        rw [fragment_message, hencode]
        rfl
      rw [hmessage]
      exact ⟨Nat.succ_pos _, .failed e, s, rfl, .nil rfl⟩
    | ok payload =>
      have hmessage : fragment_message c ⟨id, i, piece, i = n - 1, build_id⟩ =
          .ok ⟨INGEST_TOPIC, .AtMostOnce, false, payload⟩ := by
        rw [fragment_message, hencode]
        rfl
      rw [hmessage]
      obtain ⟨hgoes, t, hok, hmoments, houtcomes, haccepted⟩ | ⟨hfails, e, t, herror, haccepted⟩ :=
        publish_payload_cases payload s
      · have hrest := ih (i + 1) t
        rw [hmoments, houtcomes] at hrest
        simp only [hgoes, Bool.false_eq_true, if_false, bind_of_ok hok]
        cases hfailure : first_failure c (fragments_from id n build_id (i + 1) pieces) s.moments.tail
            s.publisher.outcomes.tail with
        | none =>
          rw [hfailure] at hrest
          obtain ⟨u, hpublished, hsent⟩ := hrest
          exact ⟨u, hpublished, .cons hround hmessage haccepted hsent⟩
        | some k =>
          rw [hfailure] at hrest
          obtain ⟨hk, e, u, hpublished, hsent⟩ := hrest
          exact ⟨Nat.succ_lt_succ hk, e, u, hpublished, .cons hround hmessage haccepted hsent⟩
      · simp only [hfails, if_true, bind_of_error herror]
        exact ⟨Nat.succ_pos _, e, t, rfl, .nil haccepted⟩

/-- The fragments of a dump. -/
def fragments (id : UInt64) (content : Bytes) (chunk_bytes : Nat) (build_id : Option String) :
    List Fragment :=
  let pieces := chunks (max chunk_bytes 1) content
  fragments_from id pieces.length build_id 0 pieces

/-- These fragments, put one after another, are the content, and they say so. -/
structure Complete (id : UInt64) (content : Bytes) (max_chunk : Nat) (fragments : List Fragment) :
    Prop where
  some_fragment : 1 ≤ fragments.length
  same_id : ∀ f ∈ fragments, f.id = id
  ordinals : fragments.map Fragment.ordinal = List.range fragments.length
  contents : fragments.flatMap Fragment.content = content
  sizes : ∀ f ∈ fragments, 1 ≤ f.content.length ∧ f.content.length ≤ max_chunk
  last : ∀ f ∈ fragments, f.is_last = true ↔ f.ordinal + 1 = fragments.length

theorem length_fragments_from (id : UInt64) (n : Nat) (build_id : Option String) (i : Nat)
    (pieces : List Bytes) : (fragments_from id n build_id i pieces).length = pieces.length :=
  List.length_mapIdx

theorem map_content_fragments_from (id : UInt64) (n : Nat) (build_id : Option String) (i : Nat)
    (pieces : List Bytes) : (fragments_from id n build_id i pieces).map Fragment.content = pieces := by
  induction pieces generalizing i with
  | nil => rfl
  | cons piece pieces ih => rw [fragments_from_cons, List.map_cons, ih]

theorem map_ordinal_fragments_from (id : UInt64) (n : Nat) (build_id : Option String) (i : Nat)
    (pieces : List Bytes) :
    (fragments_from id n build_id i pieces).map Fragment.ordinal = List.range' i pieces.length := by
  induction pieces generalizing i with
  | nil => rfl
  | cons piece pieces ih =>
    rw [fragments_from_cons, List.map_cons, ih, List.length_cons, List.range'_succ]

theorem mem_fragments_from {id : UInt64} {n : Nat} {build_id : Option String} {i : Nat}
    {pieces : List Bytes} {f : Fragment} (hmem : f ∈ fragments_from id n build_id i pieces) :
    f.id = id ∧ f.content ∈ pieces ∧ (f.is_last = true ↔ f.ordinal = n - 1) := by
  obtain ⟨j, hj, rfl⟩ := List.mem_mapIdx.mp hmem
  exact ⟨rfl, List.getElem_mem hj, decide_eq_true_iff⟩

theorem fragments_complete (id : UInt64) {content : Bytes} (hcontent : content ≠ []) (chunk_bytes : Nat)
    (build_id : Option String) :
    Complete id content (max chunk_bytes 1) (fragments id content chunk_bytes build_id) := by
  have hsize : 0 < max chunk_bytes 1 := Nat.lt_of_lt_of_le Nat.zero_lt_one (Nat.le_max_right _ _)
  have hpieces : 1 ≤ (chunks (max chunk_bytes 1) content).length := by
    rw [chunks_eq_cons hsize hcontent, List.length_cons]
    exact Nat.succ_pos _
  unfold fragments
  refine ⟨?_, ?_, ?_, ?_, ?_, ?_⟩
  · rwa [length_fragments_from]
  · exact fun f hf => (mem_fragments_from hf).1
  · rw [map_ordinal_fragments_from, length_fragments_from, List.range_eq_range']
  · rw [List.flatMap_def, map_content_fragments_from, flatten_chunks hsize]
  · exact fun f hf => length_of_mem_chunks hsize (mem_fragments_from hf).2.1
  · intro f hf
    rw [(mem_fragments_from hf).2.2, length_fragments_from]
    omega

/-- Crash dumps reassemble. The fragments of a dump are complete, and they depend on nothing but
the dump and its settings. When all publishes succeed, all of them have been sent, in their
order; when a publish fails, those before it have been sent, and the dump ends with an error. -/
theorem crash_dump_reassembles {c : Ciborium} (hround : c.ValueRoundTrips) (id : UInt64)
    {content : Bytes} (hcontent : content ≠ []) (chunk_bytes : Nat) (build_id : Option String) :
    Complete id content (max chunk_bytes 1) (fragments id content chunk_bytes build_id) ∧
    ∀ s : World, match first_failure c (fragments id content chunk_bytes build_id) s.moments
        s.publisher.outcomes with
      | none => ∃ t, publish_core_dump c id content chunk_bytes build_id s =
            .ok (fragments id content chunk_bytes build_id).length t ∧
          Sent c (fragments id content chunk_bytes build_id) s t
      | some k => k < (fragments id content chunk_bytes build_id).length ∧
          ∃ e t, publish_core_dump c id content chunk_bytes build_id s = .error e t ∧
            Sent c ((fragments id content chunk_bytes build_id).take k) s t := by
  refine ⟨fragments_complete id hcontent chunk_bytes build_id, ?_⟩
  intro s
  have hloop := publish_chunks_sends hround id (chunks (max chunk_bytes 1) content).length build_id 0
    (chunks (max chunk_bytes 1) content) s
  have hlength : (fragments id content chunk_bytes build_id).length =
      (chunks (max chunk_bytes 1) content).length := length_fragments_from _ _ _ _ _
  rw [publish_core_dump, hlength]
  simp only [fragments]
  split
  · next hnone =>
    rw [hnone] at hloop
    obtain ⟨t, hok, hsent⟩ := hloop
    exact ⟨t, by rw [bind_of_ok hok]; rfl, hsent⟩
  · next k hsome =>
    rw [hsome] at hloop
    obtain ⟨hk, e, t, herror, hsent⟩ := hloop
    exact ⟨hk, e, t, bind_of_error herror, hsent⟩

/-- A client that answers the coming publishes in this way. -/
def answering (outcomes : List Bool) : World :=
  { Task.idle.world with publisher := ⟨true, outcomes, [], []⟩ }

/-- Five bytes in chunks of two. The second publish fails; a second attempt sends all three. -/
theorem crash_dump_reassembles_retried :
    (∃ e t, publish_core_dump .wire 7 [1, 2, 3, 4, 5] 2 none (answering [true, false]) = .error e t ∧
      Sent .wire [⟨7, 0, [1, 2], false, none⟩] (answering [true, false]) t) ∧
    ∃ t, publish_core_dump .wire 7 [1, 2, 3, 4, 5] 2 none (answering []) = .ok 3 t ∧
      Sent .wire [⟨7, 0, [1, 2], false, none⟩, ⟨7, 1, [3, 4], false, none⟩, ⟨7, 2, [5], true, none⟩]
        (answering []) t := by
  have hfragments : fragments 7 [1, 2, 3, 4, 5] 2 none =
      [⟨7, 0, [1, 2], false, none⟩, ⟨7, 1, [3, 4], false, none⟩, ⟨7, 2, [5], true, none⟩] := by
    decide
  have hcontent : ([1, 2, 3, 4, 5] : Bytes) ≠ [] := List.cons_ne_nil _ _
  have hsends := (crash_dump_reassembles Ciborium.wire_valueRoundTrips 7 hcontent 2 none).2
  rw [hfragments] at hsends
  have hcut := hsends (answering [true, false])
  have hall := hsends (answering [])
  rw [show first_failure .wire _ _ _ = some 1 by rfl] at hcut
  rw [show first_failure .wire _ _ _ = none by rfl] at hall
  exact ⟨hcut.2, hall⟩

end spotflowd.sources.crashdump
