import Logvine.Base.Runs
import Logvine.Network.Client

/-!
# A connection between a client and the server

One client and the server exchange lines over two FIFO channels. The server answers the
requests in the order they arrive, line by line; other connections may change the engine
at any time. A call holds the client's lock from its request to its end, so the calls of a
client come one after the other.

- `Connection`: both sides and what is in flight, each line with the call it belongs to;
- `act`: what either side, or the consumer of a range read, can do next;
- `Stream`: lines that a range read takes one after the other up to its end;
- `Inv`: what is in flight and still to be written is what the current call waits for.

Nothing but the order of the lines tells the client which request a line answers. A range
read that its consumer closes leaves the rest of its lines to the next call (`left`).
-/

namespace Logvine

open Json Runs LogvineClient

/-- A line in flight, with the call it belongs to, which neither side sees. -/
structure Line where
  call : Nat
  bytes : Bytes
deriving DecidableEq

/-- Where the client is: between calls, reading the response of a call, reading the next
message of a range read, or in a range read whose consumer has an item, with the items of
the message that are left. -/
inductive ClientState where
  | idle
  | waiting
  | receiving
  | suspended (items : List Json)

/-- Both sides of a connection and what is in flight. -/
structure Connection (E : Type) where
  engine : E
  /-- The client. -/
  client : ClientState
  /-- The calls that have written a request. -/
  calls : Nat
  requests : List Line
  /-- The server: the call whose request it took last, and what is to be written for it. -/
  answering : Nat
  pending : List Bytes
  closed : Bool
  responses : List Line
  /-- A call has ended before the end of its response. -/
  left : Bool

namespace Connection

/-- What can happen next. `read` finds so many bytes of the next line in the client's buffer;
`next` and `close` are what the consumer of a range read does with the generator. -/
inductive Action (E : Type) where
  | call (call : Call)
  | serve
  | write
  | read (arrived : Nat)
  | next
  | close
  | others (engine : E)

/-- A line that is written by the server, and one that is taken by a call of the client. -/
inductive Event where
  | wrote (line : Line)
  | took (call : Nat) (line : Line)
deriving DecidableEq

/-- What a range read does with the items of a message that are left. -/
def yieldNext : List Json → ClientState
  | [] => .receiving
  | item :: items =>
    match unpack item with
    | .ok _ => .suspended items
    | .error _ => .idle

/-- Where the client is after a line. A call with one response returns or raises. -/
def afterLine (line : Bytes) : ClientState → ClientState
  | .receiving =>
    match readJsonLine line with
    | .error _ => .idle
    | .ok msg =>
      match rangeStep msg with
      | .items items => yieldNext items
      | .done | .raises _ => .idle
  | _ => .idle

section

variable {E : Type} [Python] [StorageEngine E]

/-- A connection right after it was opened. -/
def opened (e : E) : Connection E :=
  { engine := e, client := .idle, calls := 0, requests := [], answering := 0, pending := [], closed := false,
    responses := [], left := false }

/-- The client writes a request. -/
def send (s : Connection E) (call : Call) : Connection E :=
  { s with
    client := if call.IsRange then .receiving else .waiting
    calls := s.calls + 1
    requests := s.requests ++ [⟨s.calls + 1, jsonLine call.request⟩] }

/-- The server takes the next request, when it has answered the one before. -/
def serve (s : Connection E) : Connection E :=
  match s.closed, s.pending, s.requests with
  | false, [], request :: requests =>
    match Lines.attempt newline lineLimit request.bytes with
    | .wait => s
    | .tooLong _ => { s with requests := requests, closed := true }
    | .line line _ =>
      match LogvineServer.handleLine s.engine line with
      | (e, none) => { s with engine := e, requests := requests, closed := true }
      | (e, some lines) => { s with engine := e, requests := requests, answering := request.call, pending := lines }
  | _, _, _ => s

/-- The client looks for a line in what has arrived. -/
def read (s : Connection E) (arrived : Nat) : Connection E × List Event :=
  match s.responses with
  | [] => (if s.closed then { s with client := .idle } else s, [])
  | line :: responses =>
    -- what is left of the line stays in the stream
    let responsesAfter (rest : Bytes) :=
      if rest ++ line.bytes.drop arrived = [] then responses
      else ⟨line.call, rest ++ line.bytes.drop arrived⟩ :: responses
    match Lines.attempt newline lineLimit (line.bytes.take arrived) with
    | .wait => (s, [])
    | .tooLong rest =>
      ({ s with client := .idle, responses := responsesAfter rest, left := true }, [.took s.calls line])
    | .line bytes rest =>
      ({ s with client := afterLine bytes s.client, responses := responsesAfter rest }, [.took s.calls line])

/-- One action and what it shows. -/
def act (s : Connection E) : Action E → Connection E × List Event
  | .call call =>
    match s.client with
    | .idle => (if call.Raises then s else s.send call, [])
    | _ => (s, [])
  | .serve => (s.serve, [])
  | .write =>
    match s.pending with
    | [] => (s, [])
    | line :: pending =>
      ({ s with pending := pending, responses := s.responses ++ [⟨s.answering, line⟩] }, [.wrote ⟨s.answering, line⟩])
  | .read arrived =>
    match s.client with
    | .waiting | .receiving => s.read arrived
    | _ => (s, [])
  | .next =>
    match s.client with
    | .suspended items => ({ s with client := yieldNext items }, [])
    | _ => (s, [])
  | .close =>
    match s.client with
    | .suspended _ => ({ s with client := .idle, left := true }, [])
    | _ => (s, [])
  | .others e => ({ s with engine := e }, [])

def step (s : Connection E) (a : Action E) : Connection E := (s.act a).1

def out (s : Connection E) (a : Action E) : List Event := (s.act a).2

end

variable {E : Type}

/-! ## What a range read takes -/

/-- The lines of a stream as the client takes them: messages with pairs, then one that ends
the range read. -/
inductive Stream : List Bytes → Prop where
  | done {j : Json} (h : rangeStep (readBack j) = .done) : Stream [jsonLine j]
  | raises {j : Json} {err : ClientError} (h : rangeStep (readBack j) = .raises err) : Stream [jsonLine j]
  | items {j : Json} {items : List Json} {lines : List Bytes} (h : rangeStep (readBack j) = .items items)
      (hitems : ∀ item ∈ items, ∃ pair, unpack item = .ok pair) (hlines : Stream lines) :
      Stream (jsonLine j :: lines)

/-- The documents of a stream are such lines. -/
theorem stream_of_streamed {startKey endKey : Bytes} {chunkId : Nat} {docs : List Json}
    (h : Controller.Streamed (.readKeyRange startKey endKey) chunkId docs) : Stream (docs.map jsonLine) := by
  induction h with
  | @chunk chunkId items docs hitems hdocs ih =>
    refine .items (rangeStep_chunk startKey endKey items chunkId) ?_ ih
    intro item hitem
    rw [readBackItems_eq_map, List.map_map] at hitem
    obtain ⟨pair, -, rfl⟩ := List.mem_map.mp hitem
    exact ⟨_, unpack_pair pair⟩
  | done => exact .done (rangeStep_done startKey endKey)
  | terminated error => exact .raises (rangeStep_error startKey endKey error)

/-- What the client waits for, given where it is. -/
def Expects : ClientState → List Bytes → Prop
  | .idle, lines => lines = []
  | .waiting, lines => ∃ j, lines = [jsonLine j]
  | .receiving, lines => Stream lines
  | .suspended items, lines => (∀ item ∈ items, ∃ pair, unpack item = .ok pair) ∧ Stream lines

theorem expects_yieldNext {items : List Json} {lines : List Bytes}
    (hitems : ∀ item ∈ items, ∃ pair, unpack item = .ok pair) (hlines : Stream lines) :
    Expects (yieldNext items) lines := by
  cases items with
  | nil => exact hlines
  | cons item items =>
    obtain ⟨pair, hpair⟩ := hitems item List.mem_cons_self
    rw [yieldNext, hpair]
    exact ⟨fun item hitem => hitems item (List.mem_cons_of_mem _ hitem), hlines⟩

/-- Whatever the client waits for is a line with a document. -/
theorem exists_json_of_expects {client : ClientState} {line : Bytes} {lines : List Bytes}
    (h : Expects client (line :: lines)) : ∃ j, line = jsonLine j := by
  have hstream : Stream (line :: lines) → ∃ j, line = jsonLine j := by
    intro hstream
    cases hstream <;> exact ⟨_, rfl⟩
  cases client with
  | idle => cases h
  | waiting =>
    obtain ⟨j, hj⟩ := h
    exact ⟨j, (List.cons.inj hj).1⟩
  | receiving => exact hstream h
  | suspended items => exact hstream h.2

/-- Taking the next line leaves the client waiting for the others. -/
theorem expects_afterLine {client : ClientState} {line : Bytes} {lines : List Bytes}
    (hreading : client = .waiting ∨ client = .receiving) (h : Expects client (line :: lines)) :
    Expects (afterLine line client) lines := by
  rcases hreading with rfl | rfl
  · obtain ⟨j, hj⟩ := h
    exact (List.cons.inj hj).2
  · cases h with
    | done hstep => simp only [afterLine, readJsonLine_jsonLine, hstep, Expects]
    | raises hstep => simp only [afterLine, readJsonLine_jsonLine, hstep, Expects]
    | items hstep hitems hlines =>
      simp only [afterLine, readJsonLine_jsonLine, hstep]
      exact expects_yieldNext hitems hlines

/-! ## The lines of each call -/

/-- The lines that a call has taken. -/
def taken (n : Nat) (events : List Event) : List Bytes :=
  events.filterMap fun
    | .took m line => if m = n then some line.bytes else none
    | .wrote _ => none

/-- The lines that the server has written for the request of a call. -/
def written (n : Nat) (events : List Event) : List Bytes :=
  events.filterMap fun
    | .took _ _ => none
    | .wrote line => if line.call = n then some line.bytes else none

theorem taken_wrote (n : Nat) (events : List Event) (line : Line) :
    taken n (events ++ [.wrote line]) = taken n events := by
  simp [taken]

theorem written_took (n m : Nat) (events : List Event) (line : Line) :
    written n (events ++ [.took m line]) = written n events := by
  simp [written]

theorem taken_took (n m : Nat) (events : List Event) (line : Line) :
    taken n (events ++ [.took m line]) = taken n events ++ if m = n then [line.bytes] else [] := by
  rw [taken, List.filterMap_append]
  by_cases h : m = n <;> simp [h, taken]

theorem written_wrote (n : Nat) (events : List Event) (line : Line) :
    written n (events ++ [.wrote line]) = written n events ++ if line.call = n then [line.bytes] else [] := by
  rw [written, List.filterMap_append]
  by_cases h : line.call = n <;> simp [h, written]

/-! ## The invariant -/

/-- What is in flight for the current call. -/
inductive Phase (s : Connection E) : Prop where
  /-- Its request is on the way. -/
  | asked (call : Call) (hopen : s.closed = false) (hrequests : s.requests = [⟨s.calls, jsonLine call.request⟩])
      (hpending : s.pending = []) (hresponses : s.responses = [])
      (hclient : s.client = if call.IsRange then .receiving else .waiting)
  /-- The client waits for the lines in flight and those still to be written. -/
  | answered (hopen : s.closed = false) (hrequests : s.requests = []) (hpending : s.pending ≠ [] → s.answering = s.calls)
      (hresponses : ∀ line ∈ s.responses, line.call = s.calls)
      (hexpects : Expects s.client (s.responses.map Line.bytes ++ s.pending))
  /-- The server has closed the connection, between two requests. -/
  | closed (hclosed : s.closed = true) (hpending : s.pending = []) (hresponses : s.responses = [])
      (hclient : ∀ items, s.client ≠ .suspended items)

/-- A call was left before its end, and no other has begun. -/
structure Left (s : Connection E) : Prop where
  left : s.left = true
  client : s.client = .idle
  requests : s.requests = []
  pending : s.pending ≠ [] → s.answering = s.calls

/-- The lines that were taken and those in flight. -/
structure Inv (s : Connection E) (events : List Event) : Prop where
  own : ∀ n line, .took n line ∈ events → line.call = n
  earlier : ∀ n < s.calls, taken n events = written n events
  later : ∀ n, s.calls < n → taken n events = [] ∧ written n events = []
  current : s.Left ∨ s.left = false ∧ s.Phase ∧
    taken s.calls events ++ s.responses.map Line.bytes = written s.calls events

theorem inv_opened (e : E) : (opened e).Inv [] where
  own _ _ h := absurd h List.not_mem_nil
  earlier _ _ := rfl
  later _ _ := ⟨rfl, rfl⟩
  current := .inr ⟨rfl, .answered rfl rfl (fun h => absurd rfl h) (fun _ h => absurd h List.not_mem_nil) rfl, rfl⟩

/-- A step that neither writes nor takes a line. -/
theorem Inv.of_phase {s s' : Connection E} {events : List Event} (h : s.Inv events) (hleft : s.left = false)
    (hleft' : s'.left = false) (hcalls : s'.calls = s.calls) (hresponses : s'.responses = s.responses)
    (hphase : s'.Phase) : s'.Inv events where
  own := h.own
  earlier := hcalls ▸ h.earlier
  later := hcalls ▸ h.later
  current := by
    rcases h.current with hl | ⟨-, -, hlines⟩
    · cases hl.left.symm.trans hleft
    · exact .inr ⟨hleft', hphase, by rw [hcalls, hresponses, hlines]⟩

/-- Between two calls nothing is in flight. -/
theorem Phase.idle {s : Connection E} (h : s.Phase) (hidle : s.client = .idle) :
    s.responses = [] ∧ s.pending = [] ∧ (s.closed = false → s.requests = []) := by
  cases h with
  | asked call _ _ _ _ hclient =>
    rw [hidle] at hclient
    split at hclient <;> cases hclient
  | answered _ hrequests _ _ hexpects =>
    rw [hidle] at hexpects
    obtain ⟨hresponses, hpending⟩ := List.append_eq_nil_iff.mp hexpects
    exact ⟨List.map_eq_nil_iff.mp hresponses, hpending, fun _ => hrequests⟩
  | closed hclosed hpending hresponses _ =>
    exact ⟨hresponses, hpending, fun hopen => by cases hopen.symm.trans hclosed⟩

/-! ## The steps -/

theorem inv_send {s : Connection E} {events : List Event} (h : s.Inv events) (hleft : s.left = false)
    (hidle : s.client = .idle) (call : Call) : (s.send call).Inv events := by
  rcases h.current with hl | ⟨-, hphase, hlines⟩
  · cases hl.left.symm.trans hleft
  obtain ⟨hresponses, hpending, hrequests⟩ := hphase.idle hidle
  rw [hresponses, List.map_nil, List.append_nil] at hlines
  have hnew := h.later (s.calls + 1) (Nat.lt_succ_self _)
  refine ⟨h.own, ?_, fun n hn => h.later n (Nat.lt_of_succ_lt hn), .inr ⟨hleft, ?_, ?_⟩⟩
  · intro n hn
    rcases Nat.lt_succ_iff_lt_or_eq.mp hn with hn | rfl
    · exact h.earlier n hn
    · exact hlines
  · cases hclosed : s.closed with
    | false =>
      refine .asked call hclosed ?_ hpending hresponses rfl
      rw [send, hrequests hclosed]
      rfl
    | true =>
      refine .closed hclosed hpending hresponses fun items hsuspended => ?_
      simp only [send] at hsuspended
      split at hsuspended <;> cases hsuspended
  · rw [send, hresponses, hnew.1, hnew.2]
    rfl

theorem inv_write {s : Connection E} {events : List Event} {line : Bytes} {pending : List Bytes} (h : s.Inv events)
    (hpending : s.pending = line :: pending) :
    Inv { s with pending := pending, responses := s.responses ++ [⟨s.answering, line⟩] }
      (events ++ [.wrote ⟨s.answering, line⟩]) := by
  have hanswering : s.answering = s.calls := by
    have hne : s.pending ≠ [] := hpending ▸ List.cons_ne_nil line pending
    rcases h.current with hl | ⟨-, hphase, -⟩
    · exact hl.pending hne
    · cases hphase with
      | asked _ _ _ hnone => exact absurd hnone hne
      | answered _ _ hanswer => exact hanswer hne
      | closed _ hnone => exact absurd hnone hne
  have hother : ∀ n ≠ s.calls, written n (events ++ [.wrote ⟨s.answering, line⟩]) = written n events := by
    intro n hn
    rw [written_wrote, if_neg fun heq => hn (heq.symm.trans hanswering), List.append_nil]
  refine ⟨?_, ?_, ?_, ?_⟩
  · intro n taken hmem
    rcases List.mem_append.mp hmem with hmem | hmem
    · exact h.own n taken hmem
    · cases List.mem_singleton.mp hmem
  · intro n hn
    rw [taken_wrote, hother n (Nat.ne_of_lt hn)]
    exact h.earlier n hn
  · intro n hn
    rw [taken_wrote, hother n (Nat.ne_of_gt hn)]
    exact h.later n hn
  · rcases h.current with hl | ⟨hleft, hphase, hlines⟩
    · exact .inl ⟨hl.left, hl.client, hl.requests, fun _ => hanswering⟩
    · refine .inr ⟨hleft, ?_, ?_⟩
      · cases hphase with
        | asked _ _ _ hnone => cases hnone.symm.trans hpending
        | answered hopen hrequests _ hresponses hexpects =>
          refine .answered hopen hrequests (fun _ => hanswering) ?_ ?_
          · intro response hmem
            rcases List.mem_append.mp hmem with hmem | hmem
            · exact hresponses response hmem
            · rw [List.mem_singleton.mp hmem]
              exact hanswering
          · rw [hpending] at hexpects
            rw [List.map_append, List.append_assoc]
            exact hexpects
        | closed _ hnone => cases hnone.symm.trans hpending
      · rw [taken_wrote, written_wrote, if_pos hanswering, List.map_append, ← List.append_assoc, hlines]
        rfl

/-- A step in which the current call takes a line of its own. -/
theorem Inv.of_took {s s' : Connection E} {events : List Event} {line : Line} (h : s.Inv events)
    (hcalls : s'.calls = s.calls) (hline : line.call = s.calls)
    (hcurrent : s'.Left ∨ s'.left = false ∧ s'.Phase ∧
      taken s.calls events ++ line.bytes :: s'.responses.map Line.bytes = written s.calls events) :
    s'.Inv (events ++ [.took s.calls line]) where
  own := by
    intro n taken hmem
    rcases List.mem_append.mp hmem with hmem | hmem
    · exact h.own n taken hmem
    · cases List.mem_singleton.mp hmem
      exact hline
  earlier := by
    intro n hn
    rw [hcalls] at hn
    rw [taken_took, if_neg (Nat.ne_of_gt hn), List.append_nil, written_took]
    exact h.earlier n hn
  later := by
    intro n hn
    rw [hcalls] at hn
    rw [taken_took, if_neg (Nat.ne_of_lt hn), List.append_nil, written_took]
    exact h.later n hn
  current := by
    rcases hcurrent with hl | ⟨hleft, hphase, hlines⟩
    · exact .inl hl
    · refine .inr ⟨hleft, hphase, ?_⟩
      rw [hcalls, taken_took, if_pos rfl, written_took, List.append_assoc, List.singleton_append, hlines]

theorem inv_read {s : Connection E} {events : List Event} (h : s.Inv events)
    (hreading : s.client = .waiting ∨ s.client = .receiving) (arrived : Nat) :
    (s.read arrived).1.Inv (events ++ (s.read arrived).2) := by
  rcases h.current with hl | ⟨hleft, hphase, hlines⟩
  · rcases hreading with hclient | hclient <;> cases hl.client.symm.trans hclient
  unfold read
  split
  · next hnone =>
    rw [List.append_nil]
    split
    · next hclosed =>
      refine h.of_phase hleft hleft rfl rfl ?_
      cases hphase with
      | asked _ hopen => cases hopen.symm.trans hclosed
      | answered hopen => cases hopen.symm.trans hclosed
      | closed _ hpending hresponses _ =>
        exact .closed hclosed hpending hresponses fun items hsuspended => by cases hsuspended
    · exact h
  · next line responses hresponses =>
    cases hphase with
    | asked _ _ _ _ hnone => cases hnone.symm.trans hresponses
    | closed _ _ hnone => cases hnone.symm.trans hresponses
    | answered hopen hrequests hpending hcalls hexpects =>
      rw [hresponses] at hlines hexpects hcalls
      have hline : line.call = s.calls := hcalls line List.mem_cons_self
      obtain ⟨j, hj⟩ := exists_json_of_expects hexpects
      simp only
      split
      · rw [List.append_nil]
        exact h
      · exact h.of_took rfl hline (.inl ⟨rfl, rfl, hrequests, hpending⟩)
      · next bytes rest hattempt =>
        -- the line was there as a whole, and nothing of it stays
        obtain ⟨rfl, hrest⟩ := Lines.eq_of_attempt_line (newline_notMem_jsonBytes j)
          ((List.take_append_drop arrived line.bytes).trans hj) hattempt
        rw [if_pos hrest]
        refine h.of_took rfl hline (.inr ⟨hleft, .answered hopen hrequests hpending ?_ ?_, hlines⟩)
        · exact fun response hmem => hcalls response (List.mem_cons_of_mem _ hmem)
        · rw [List.map_cons, List.cons_append, hj] at hexpects
          exact expects_afterLine hreading hexpects

theorem inv_next {s : Connection E} {events : List Event} {items : List Json} (h : s.Inv events)
    (hclient : s.client = .suspended items) : Inv { s with client := yieldNext items } events := by
  rcases h.current with hl | ⟨hleft, hphase, -⟩
  · cases hl.client.symm.trans hclient
  · cases hphase with
    | asked call _ _ _ _ hreading =>
      rw [hclient] at hreading
      split at hreading <;> cases hreading
    | answered hopen hrequests hpending hresponses hexpects =>
      rw [hclient] at hexpects
      exact h.of_phase hleft hleft rfl rfl
        (.answered hopen hrequests hpending hresponses (expects_yieldNext hexpects.1 hexpects.2))
    | closed _ _ _ hnot => exact absurd hclient (hnot items)

theorem inv_close {s : Connection E} {events : List Event} {items : List Json} (h : s.Inv events)
    (hclient : s.client = .suspended items) : Inv { s with client := .idle, left := true } events := by
  refine ⟨h.own, h.earlier, h.later, .inl ?_⟩
  rcases h.current with hl | ⟨-, hphase, -⟩
  · cases hl.client.symm.trans hclient
  · cases hphase with
    | asked call _ _ _ _ hreading =>
      rw [hclient] at hreading
      split at hreading <;> cases hreading
    | answered _ hrequests hpending _ _ => exact ⟨rfl, rfl, hrequests, hpending⟩
    | closed _ _ _ hnot => exact absurd hclient (hnot items)

theorem inv_others {s : Connection E} {events : List Event} (h : s.Inv events) (e : E) :
    Inv { s with engine := e } events := by
  refine ⟨h.own, h.earlier, h.later, ?_⟩
  rcases h.current with hl | ⟨hleft, hphase, hlines⟩
  · exact .inl ⟨hl.left, hl.client, hl.requests, hl.pending⟩
  · refine .inr ⟨hleft, ?_, hlines⟩
    cases hphase with
    | asked call hopen hrequests hpending hresponses hclient =>
      exact .asked call hopen hrequests hpending hresponses hclient
    | answered hopen hrequests hpending hresponses hexpects =>
      exact .answered hopen hrequests hpending hresponses hexpects
    | closed hclosed hpending hresponses hclient => exact .closed hclosed hpending hresponses hclient

section

variable [Python] [StorageEngine E]

/-- The lines that answer a call are the ones it waits for. -/
theorem expects_answer (e : E) (call : Call) {lines : List Bytes}
    (h : (LogvineServer.handleLine e (jsonLine call.request)).2 = some lines) :
    Expects (if call.IsRange then .receiving else .waiting) lines := by
  split
  · next hrange =>
    obtain ⟨docs, hdocs, hshape⟩ := answer_range e hrange
    cases hdocs.symm.trans h
    rcases hshape with ⟨startKey, endKey, hstreamed⟩ | ⟨err, rfl⟩
    · exact stream_of_streamed hstreamed
    · obtain ⟨argument, hstep⟩ := rangeStep_errorResponse err
      exact .raises hstep
  · next hsingle =>
    obtain ⟨doc, hdoc⟩ := answer_single e hsingle
    cases hdoc.symm.trans h
    exact ⟨doc, rfl⟩

theorem inv_serve {s : Connection E} {events : List Event} (h : s.Inv events) : s.serve.Inv events := by
  unfold serve
  split
  · next request requests hopen hpending hrequests =>
    rcases h.current with hl | ⟨hleft, hphase, -⟩
    · cases hl.requests.symm.trans hrequests
    cases hphase with
    | asked call _ hasked _ hresponses hclient =>
      cases hasked.symm.trans hrequests
      have hclosed : ∀ e : E, Phase { s with engine := e, requests := [], closed := true } := by
        refine fun e => .closed rfl hpending hresponses fun items hsuspended => ?_
        rw [hclient] at hsuspended
        split at hsuspended <;> cases hsuspended
      split
      · exact h
      · exact h.of_phase hleft hleft rfl rfl (hclosed s.engine)
      · next line rest hline =>
        split
        · next e hanswer => exact h.of_phase hleft hleft rfl rfl (hclosed e)
        · next e lines hanswer =>
          refine h.of_phase hleft hleft rfl rfl (.answered hopen rfl (fun _ => rfl) ?_ ?_)
          · intro line hmem
            rw [hresponses] at hmem
            exact absurd hmem List.not_mem_nil
          · obtain ⟨rfl, -⟩ := Lines.eq_of_attempt_line (newline_notMem_jsonBytes _) (List.append_nil _) hline
            rw [hresponses, hclient]
            exact expects_answer s.engine call (congrArg Prod.snd hanswer)
    | answered _ hnone => cases hnone.symm.trans hrequests
    | closed hclosed => cases hopen.symm.trans hclosed
  · exact h

/-- A call begins only if none was left before its end. -/
def Kept (s : Connection E) : Action E → Prop
  | .call _ => s.left = false
  | .serve | .write | .read _ | .next | .close | .others _ => True

/-- **Every step keeps the invariant.** -/
theorem inv_step {s : Connection E} {a : Action E} {events : List Event} (h : s.Inv events) (hkept : s.Kept a) :
    (s.step a).Inv (events ++ s.out a) := by
  cases a with
  | call call =>
    simp only [step, out, act]
    split
    · next hidle =>
      rw [List.append_nil]
      split
      · exact h
      · exact inv_send h hkept hidle call
    · rw [List.append_nil]
      exact h
  | serve =>
    simp only [step, out, act, List.append_nil]
    exact inv_serve h
  | write =>
    simp only [step, out, act]
    split
    · rw [List.append_nil]
      exact h
    · next line pending hpending => exact inv_write h hpending
  | read arrived =>
    simp only [step, out, act]
    split
    · next hclient => exact inv_read h (.inl hclient) arrived
    · next hclient => exact inv_read h (.inr hclient) arrived
    · rw [List.append_nil]
      exact h
  | next =>
    simp only [step, out, act]
    split
    · next items hclient =>
      rw [List.append_nil]
      exact inv_next h hclient
    · rw [List.append_nil]
      exact h
  | close =>
    simp only [step, out, act]
    split
    · next items hclient =>
      rw [List.append_nil]
      exact inv_close h hclient
    · rw [List.append_nil]
      exact h
  | others e =>
    simp only [step, out, act, List.append_nil]
    exact inv_others h e

instance (s : Connection E) (a : Action E) : Decidable (s.Kept a) :=
  match a with
  | .call _ => inferInstanceAs (Decidable (s.left = false))
  | .serve | .write | .read _ | .next | .close | .others _ => .isTrue trivial

/-- A call has begun and has ended by its own response, or by the end of the connection. -/
def Ended (s : Connection E) (n : Nat) : Prop := n < s.calls ∨ n = s.calls ∧ s.client = .idle ∧ s.left = false

/-- **Each call takes the lines that answer it.** In every run in which no call begins after
one was left before its end, a call takes no line of another, and has taken all lines that
were written for it when it ends. -/
theorem own_lines_run {e : E} {as : List (Action E)} (h : Along step Kept (opened e) as) :
    (∀ n line, .took n line ∈ collect step out (opened e) as → line.call = n) ∧
      ∀ n, (run step (opened e) as).Ended n →
        taken n (collect step out (opened e) as) = written n (collect step out (opened e) as) := by
  have hinv : (run step (opened e) as).Inv ([] ++ collect step out (opened e) as) :=
    run_collect_invariant (fun s a done hs hkept => inv_step hs hkept) (inv_opened e) h
  rw [List.nil_append] at hinv
  refine ⟨hinv.own, ?_⟩
  rintro n (hn | ⟨rfl, hidle, hleft⟩)
  · exact hinv.earlier n hn
  · rcases hinv.current with hl | ⟨-, hphase, hlines⟩
    · cases hl.left.symm.trans hleft
    · rw [(hphase.idle hidle).1, List.map_nil, List.append_nil] at hlines
      exact hlines

end

/-! ## Some runs -/

/-- A connection to an engine without entries. -/
def toEmpty : Connection (LSMStorageEngine Wal) := opened ⟨"db", 100, .init 100, .init .absent, .fresh⟩

/-- A value is put; then a range read is begun and its first message is read. -/
def putAndRange : List (Action (LSMStorageEngine Wal)) :=
  [.call (.put (text "a") (text "1")), .serve, .write, .read 200,
    .call (.readKeyRange (text "a") (text "b")), .serve, .write, .read 200]

/-- The range read is read to its end, and the value is read. -/
theorem own_lines_run_toEnd :
    letI := Python.plain
    let events := collect step out toEmpty
      (putAndRange ++ [.next, .write, .read 200, .call (.get (text "a")), .serve, .write, .read 200])
    taken 2 events = written 2 events ∧ (taken 2 events).length = 2 :=
  letI := Python.plain
  ⟨(own_lines_run (by decide +kernel)).2 2 (.inl (by decide +kernel)), by decide +kernel⟩

/-- The range read is closed at its first item: the next call takes its last line. -/
theorem own_lines_run_fails :
    ¬∀ (_ : Python) (as : List (Action (LSMStorageEngine Wal))) (n : Nat) (line : Line),
      .took n line ∈ collect step out toEmpty as → line.call = n := by
  intro h
  have htook := h .plain (putAndRange ++ [.close, .write, .call (.get (text "a")), .read 200]) 3
    ⟨2, jsonLine (RequestOperation.toStreamDone (.readKeyRange [97] [98]))⟩ (by decide +kernel)
  exact absurd htook (by decide)

end Connection

end Logvine
