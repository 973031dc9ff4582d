import Logvine.Network.ServedCalls
import Logvine.Network.ServedConnection
import Logvine.Storage.BackgroundWork

/-!
# Clients of one server

Any number of clients, each with its connection to one server. The server takes up one
request at a time and works on it without a break; everything else happens in any order.
The steps of a flush and of a compaction, with their exceptions, come between two requests.

- `Service`, `step`: the server with its connections, and what can happen next;
- `Linear`: calls served one after the other, each of which came to what it gives on a map;
- `Agrees`: the map, and what the engine would answer without the compaction under way;
- `Linearizes`: what a run comes to;
- `service_linearizes`: every run has such a history in which no call begins after a range
  read was left before its end or a response line was too long, and none reads while a
  compaction is removing entries.

A request has no number that its response could name (`client.py`, `_send_request` and
`read_key_range`), so what a connection has left unread belongs to whoever reads next. The
server runs on one event loop, and no call of the engine awaits anything (`controller.py`,
`handle_request`): nothing of another client comes between its parts, only the threads that
flush and compact.
-/

namespace Logvine

open CompactionManager Json Layer LSMStorageEngine LogvineClient Runs

/-- A server: its engine with the threads that work on it, and its connections. -/
structure Service where
  workers : Workers Wal
  connections : Nat → Connection (LSMStorageEngine Wal)

namespace Service

/-- What can happen next: something on a connection, or a step of a background thread. -/
inductive Action where
  | call (client : Nat) (call : Call)
  | serve (client : Nat)
  | write (client : Nat)
  | read (client arrived : Nat)
  | next (client : Nat)
  | close (client : Nat)
  | flush (nowMs : Nat)
  | raise (nowMs : Nat) (content : Option Bytes)
  | flushPart (nowMs : Nat) (content : Option Bytes)
  | compact (timeNs nowMs : Nat)
  | compactPart (timeNs : Nat) (content : Option Bytes)
  | compactRaise (timeNs : Nat) (content : Option Bytes)
  | passOver

/-- The connection an action is about, and what happens there. -/
def onConnection : Action → Option (Nat × Connection.Action (LSMStorageEngine Wal))
  | .call client call => some (client, .call call)
  | .serve client => some (client, .serve)
  | .write client => some (client, .write)
  | .read client arrived => some (client, .read arrived)
  | .next client => some (client, .next)
  | .close client => some (client, .close)
  | _ => none

/-- What a background thread does. -/
def background : Action → Option (Work Wal)
  | .flush nowMs => some (.thread (.flush nowMs))
  | .raise nowMs content => some (.thread (.raise nowMs content))
  | .flushPart nowMs content => some (.flushPart nowMs content)
  | .compact timeNs nowMs => some (.compact timeNs nowMs)
  | .compactPart timeNs content => some (.compactPart timeNs content)
  | .compactRaise timeNs content => some (.compactRaise timeNs content)
  | .passOver => some .passOver
  | _ => none

/-- The engine now. -/
def engine (s : Service) : LSMStorageEngine Wal := s.workers.config.engine

/-- The connection of a client with the engine as it is now. -/
def connection (s : Service) (client : Nat) : Connection (LSMStorageEngine Wal) :=
  { s.connections client with engine := s.engine }

/-- The threads go on with another engine. -/
def withEngine (c : Workers Wal) (e : LSMStorageEngine Wal) : Workers Wal :=
  { c with config := { c.config with engine := e } }

variable [Python]

/-- One action. -/
def step (s : Service) (a : Action) : Service :=
  match onConnection a with
  | some (client, a) =>
    { workers := withEngine s.workers ((s.connection client).step a).engine
      connections := Function.update s.connections client ((s.connection client).step a) }
  | none =>
    match background a with
    | some work => { s with workers := s.workers.act work }
    | none => s

/-- What it shows, and on which connection. -/
def out (s : Service) (a : Action) : List (Nat × Shown) :=
  match onConnection a with
  | some (client, a) => (shown (s.connection client) a).map (client, ·)
  | none => []

/-- A server right after it was started on an engine, before any client has called. -/
def opened (e : LSMStorageEngine Wal) : Service := ⟨Workers.opened e, fun _ => .opened e⟩

/-! ## The history of served calls -/

/-- A call that was served: whose it was, and the lines that answer it. -/
structure Served where
  client : Nat
  number : Nat
  call : Call
  answer : List Bytes
deriving DecidableEq

/-- Each call came to what it gives on the map that the calls before it have left. -/
inductive Linear (limit : Int) (m : Contents) : List Served → Contents → Prop
  | nil : Linear limit m [] m
  | concat {history : List Served} {m' m'' : Contents} {s : Served} (h : Linear limit m history m')
      (hs : Gives limit m' s.call (s.call.outcome s.answer) m'') : Linear limit m (history ++ [s]) m''

/-- What has shown on the connection of a client. -/
def shownOn (client : Nat) (events : List (Nat × Shown)) : List Shown :=
  events.filterMap fun event => if event.1 = client then some event.2 else none

/-- The calls served, in order, with their answers. -/
def servings (events : List (Nat × Shown)) : List (Nat × Nat × List Bytes) :=
  events.filterMap fun
    | (client, .served number answer) => some (client, number, answer)
    | _ => none

/-- A history of what was called and served. -/
structure History (events : List (Nat × Shown)) (history : List Served) : Prop where
  servings : servings events = history.map fun s => (s.client, s.number, s.answer)
  called : ∀ s ∈ history, (s.client, .called s.number s.call) ∈ events

/-- A call is served after it has begun, and takes nothing before it is served. -/
def Ordered (events : List (Nat × Shown)) : Prop :=
  ∀ before after client number answer, events = before ++ (client, .served number answer) :: after →
    (∃ call, (client, .called number call) ∈ before) ∧
      ∀ line, (client, .line (.took number line)) ∉ before

omit [Python] in
theorem shownOn_append (client : Nat) (events events' : List (Nat × Shown)) :
    shownOn client (events ++ events') = shownOn client events ++ shownOn client events' := List.filterMap_append

omit [Python] in
theorem mem_shownOn {client : Nat} {events : List (Nat × Shown)} {x : Shown} :
    x ∈ shownOn client events ↔ (client, x) ∈ events := by
  rw [shownOn, List.mem_filterMap]
  constructor
  · rintro ⟨⟨client', x'⟩, hmem, heq⟩
    split at heq
    · next hclient =>
      obtain rfl := Option.some.inj heq
      exact hclient ▸ hmem
    · cases heq
  · exact fun hmem => ⟨_, hmem, if_pos rfl⟩

omit [Python] in
/-- What is shown on one connection. -/
theorem shownOn_map (client client' : Nat) (es : List Shown) :
    shownOn client (es.map (client', ·)) = if client = client' then es else [] := by
  rw [shownOn, List.filterMap_map]
  split
  · next heq =>
    subst heq
    have hall : ∀ x ∈ es, ((fun event : Nat × Shown => if event.1 = client then some event.2 else none) ∘
        (client, ·)) x = some x := fun _ _ => if_pos rfl
    rw [List.filterMap_congr hall, List.filterMap_some]
  · next hne => exact List.filterMap_eq_nil_iff.mpr fun _ _ => if_neg fun heq => hne heq.symm

/-! ## Runs -/

/-- On a connection a call begins only if no range read was left before its end, and no
response line was too long for its reader: what is left of either would be read by the next
call. -/
def Kept (s : Service) (a : Action) : Prop :=
  match onConnection a with
  | some (client, a) => (s.connection client).Kept a
  | none => True

instance (s : Service) (a : Action) : Decidable (Kept s a) :=
  match h : onConnection a with
  | some (client, a) => decidable_of_iff ((s.connection client).Kept a) (by rw [Kept, h])
  | none => .isTrue (by rw [Kept, h]; trivial)

/-- No read is served while a compaction is removing entries, nor does an exception end the
compaction then. -/
def Steady (s : Service) : Action → Prop
  | .serve client =>
    ∀ request ∈ (s.connections client).requests.head?, AsksToRead request.bytes → ¬Window s.workers.compaction
  | .compactRaise _ _ => ¬Window s.workers.compaction
  | _ => True

instance (s : Service) : (a : Action) → Decidable (Steady s a)
  | .serve client => inferInstanceAs (Decidable (∀ request ∈ (s.connections client).requests.head?, _ → _))
  | .compactRaise _ _ => inferInstanceAs (Decidable (¬Window s.workers.compaction))
  | .call _ _ | .write _ | .read _ _ | .next _ | .close _ | .flush _ | .raise _ _ | .flushPart _ _ | .compact _ _
  | .compactPart _ _ | .passOver => .isTrue trivial

/-- The path an action writes a table to, and whether the table is complete then. -/
def names (s : Service) (a : Action) : List (Bool × Path) := (background a).elim [] s.workers.names

/-- The reading of the clock an action records for its table. -/
def created (s : Service) (a : Action) : List Nat := (background a).elim [] s.workers.created

/-- No path is used again that a complete table was written to, and the clock moves on;
both hold for what is listed at the start too. -/
structure Clocked (s : Service) (as : List Action) : Prop where
  distinct : (collect step names s as).Pairwise Workers.Later
  unused : ∀ name ∈ collect step names s as, ¬s.workers.tables.Listed name.2
  increasing : (collect step created s as).Pairwise (· < ·)
  later : ∀ nowMs ∈ collect step created s as, Newer s.workers.tables nowMs

/-! ## The map -/

/-- Without the compaction under way the engine answers as the map, and batches are held to
the limit; the paths and readings that are still to come are new. -/
structure Agrees (limit : Int) (c : Workers Wal) (g : Workers.Ghost) (m : Contents) (paths : List (Bool × Path))
    (readings : List Nat) : Prop where
  limit : c.config.engine.memtableMaxSize = limit
  shadow : Workers.Shadow c g
  awaits : Workers.Awaits c g paths readings
  live : ∀ key, Reading.live ((Workers.shadowStore c g).view key) = m key
  texts : OfTexts m

section Map

variable {limit : Int} {c : Workers Wal} {g : Workers.Ghost} {m : Contents} {paths : List (Bool × Path)}
  {readings : List Nat}

omit [Python] in
theorem Agrees.shows_without (h : Agrees limit c g m paths readings) :
    Shows { c.config.engine with tables := g.without } m :=
  ⟨⟨h.shadow.config.readable, h.shadow.distinct⟩, h.live, h.texts⟩

omit [Python] in
/-- As long as no compaction is removing entries, the engine itself answers as the map. -/
theorem Agrees.shows (h : Agrees limit c g m paths readings) (hwindow : ¬Window c.compaction) : Shows c.config.engine m := by
  have hsettled := h.shadow.settled hwindow
  refine ⟨⟨hsettled.readable, hsettled.distinct⟩, fun key => ?_, h.texts⟩
  have hview : view c.config.engine = (Workers.shadowStore c g).view := congrArg (above _) hsettled.layer
  rw [hview]
  exact h.live key

omit [Python] in
/-- The engine after a request. -/
theorem Agrees.served (h : Agrees limit c g m paths readings) {e : LSMStorageEngine Wal} {m' : Contents}
    (hshows : Shows { e with tables := g.without } m') (hspares : Spares c.config.engine e) :
    Agrees limit (withEngine c e) g m' paths readings := by
  have hpath : Workers.newPath (withEngine c e) g = Workers.newPath c g :=
    congrArg (compactedPath · g.timeNs) hspares.storagePath
  have htables : (withEngine c e).tables = c.tables := hspares.tables
  refine ⟨hspares.memtableMaxSize.trans h.limit,
    ⟨⟨h.shadow.config.readable, h.shadow.config.flush.later hspares.extended⟩, ?_, ?_, ?_, h.shadow.distinct,
    h.shadow.newest⟩, ⟨h.awaits.unlisted, h.awaits.flushing, ?_, h.awaits.newer, h.awaits.described, h.awaits.stamped⟩,
    hshows.live, hshows.texts⟩
  · intro path hmem
    obtain ⟨nameMs, hname⟩ := h.shadow.named path hmem
    refine ⟨nameMs, hname.trans ?_⟩
    exact congrArg (sstablePath · nameMs) hspares.storagePath.symm
  · rw [hpath, htables]
    exact h.shadow.compaction
  · rw [hpath]
    exact h.shadow.fresh
  · rw [hpath]
    exact h.awaits.compacting

omit [Python] in
/-- A step of a background thread leaves the map. -/
theorem Agrees.act {work : Work Wal}
    (h : Agrees limit c g m (Workers.names c work ++ paths) (Workers.created c work ++ readings))
    (hpaths : (Workers.names c work ++ paths).Pairwise Workers.Later)
    (hreadings : (Workers.created c work ++ readings).Pairwise (· < ·)) (hsteady : Workers.Steady c work)
    (hquiet : c.event work = .quiet) : ∃ g', Agrees limit (c.act work) g' m paths readings := by
  obtain ⟨g', hstepped⟩ := Workers.stepped_act h.shadow h.awaits hpaths hreadings hsteady
  have hview := LayeredStore.view_step hstepped.step
  rw [hquiet] at hview
  refine ⟨g', (Workers.memtableMaxSize_act c work).trans h.limit, hstepped.shadow, hstepped.awaits, fun key => ?_, h.texts⟩
  rw [← h.live key]
  exact congrArg (fun f => Reading.live (f key)) hview

omit [Python] in
theorem agrees_opened {e : LSMStorageEngine Wal} (h : Shows e m) (hunused : ∀ path ∈ paths, ¬e.tables.Listed path.2)
    (hlater : ∀ nowMs ∈ readings, Newer e.tables nowMs) : ∃ g, Agrees e.memtableMaxSize (Workers.opened e) g m paths readings := by
  obtain ⟨g, hwithout, hshadow, hawaits⟩ := Workers.shadow_opened h.sound hunused hlater
  refine ⟨g, rfl, hshadow, hawaits, fun key => ?_, h.texts⟩
  rw [← h.live key, Workers.shadowStore, hwithout]
  rfl

end Map

/-! ## The invariant -/

/-- What holds throughout a run that began with the map `m₀`; the paths and readings are
those still to come. -/
structure Inv (limit : Int) (m₀ : Contents) (s : Service) (events : List (Nat × Shown)) (paths : List (Bool × Path))
    (readings : List Nat) : Prop where
  tracked : ∀ client, Tracked (s.connections client) (shownOn client events)
  history : ∃ history m g, History events history ∧ Linear limit m₀ history m ∧
    Agrees limit s.workers g m paths readings
  ordered : Ordered events

omit [Python] in
theorem ordered_append {events new : List (Nat × Shown)} (h : Ordered events)
    (hnew : ∀ client number answer, (client, .served number answer) ∈ new →
      new = [(client, .served number answer)] ∧ (∃ call, (client, .called number call) ∈ events) ∧
        ∀ line, (client, .line (.took number line)) ∉ events) : Ordered (events ++ new) := by
  intro before after client number answer heq
  rcases List.append_eq_append_iff.mp heq with ⟨more, hbefore, hafter⟩ | ⟨more, hevents, hrest⟩
  · -- the call is served now
    obtain ⟨hsingle, hcalled⟩ := hnew client number answer
      (hafter ▸ List.mem_append_right _ List.mem_cons_self)
    have hmore : more = [] := by
      rw [hsingle] at hafter
      cases more with
      | nil => rfl
      | cons event more => cases more <;> cases hafter
    rw [hmore, List.append_nil] at hbefore
    exact hbefore ▸ hcalled
  · cases more with
    | nil =>
      rw [List.append_nil] at hevents
      rw [List.nil_append] at hrest
      obtain ⟨-, hcalled⟩ := hnew client number answer (hrest.symm ▸ List.mem_cons_self)
      exact hevents ▸ hcalled
    | cons event more =>
      obtain ⟨rfl, -⟩ := List.cons.inj hrest
      exact h before more client number answer hevents

omit [Python] in
theorem servings_append (events events' : List (Nat × Shown)) :
    servings (events ++ events') = servings events ++ servings events' := List.filterMap_append

omit [Python] in
/-- Events that serve no call leave the history. -/
theorem History.append {events new : List (Nat × Shown)} {history : List Served} (h : History events history)
    (hnew : ∀ client number answer, (client, .served number answer) ∉ new) : History (events ++ new) history := by
  have hnone : Service.servings new = [] := by
    refine List.filterMap_eq_nil_iff.mpr fun event hmem => ?_
    obtain ⟨client, x⟩ := event
    cases x with
    | served number answer => exact absurd hmem (hnew client number answer)
    | called number call => rfl
    | line event => rfl
  exact ⟨by rw [servings_append, hnone, List.append_nil, h.servings],
    fun s hs => List.mem_append_left _ (h.called s hs)⟩

/-- A call that is served now comes last in the history. -/
theorem history_served {limit : Int} {m₀ : Contents} {c : Workers Wal} {events : List (Nat × Shown)} {paths : List (Bool × Path)}
    {readings : List Nat} {client number : Nat} {call : Call} {e : LSMStorageEngine Wal} {answer : List Bytes}
    (h : ∃ history m g, History events history ∧ Linear limit m₀ history m ∧ Agrees limit c g m paths readings)
    (hcall : (client, .called number call) ∈ events) (hread : call.Reads → ¬Window c.compaction)
    (hanswer : LogvineServer.handleLine c.config.engine (jsonLine call.request) = (e, some answer)) :
    ∃ history m g, History (events ++ [(client, .served number answer)]) history ∧ Linear limit m₀ history m ∧
      Agrees limit (withEngine c e) g m paths readings := by
  obtain ⟨history, m, g, hhistory, hlinear, hagrees⟩ := h
  obtain ⟨e', answer', m', hhandle, hgives, hshows, hspares⟩ :=
    gives_answer hagrees.shows_without call fun hreads => hagrees.shows (hread hreads)
  obtain ⟨rfl, hlines⟩ := Prod.mk.inj (hhandle.symm.trans hanswer)
  obtain rfl := Option.some.inj hlines
  have hgives : Gives limit m call (call.outcome answer') m' := hagrees.limit ▸ hgives
  refine ⟨history ++ [⟨client, number, call, answer'⟩], m', g, ⟨?_, ?_⟩, hlinear.concat hgives,
    hagrees.served hshows hspares⟩
  · rw [servings_append, hhistory.servings, List.map_append]
    rfl
  · intro s hs
    rcases List.mem_append.mp hs with hs | hs
    · exact List.mem_append_left _ (hhistory.called s hs)
    · rw [List.mem_singleton.mp hs]
      exact List.mem_append_left _ hcall

/-- **Every step keeps the history.** -/
theorem inv_step {limit : Int} {m₀ : Contents} {s : Service} {events : List (Nat × Shown)} {paths : List (Bool × Path)}
    {readings : List Nat} {a : Action} (h : Inv limit m₀ s events (names s a ++ paths) (created s a ++ readings))
    (hpaths : (names s a ++ paths).Pairwise Workers.Later) (hreadings : (created s a ++ readings).Pairwise (· < ·))
    (hkept : Kept s a) (hsteady : Steady s a) : Inv limit m₀ (step s a) (events ++ out s a) paths readings := by
  cases hon : onConnection a with
  | none =>
    obtain ⟨work, hback⟩ : ∃ work, background a = some work := by cases a <;> first | exact ⟨_, rfl⟩ | cases hon
    rw [names, hback] at h hpaths
    rw [created, hback] at h hreadings
    obtain ⟨history, m, g, hhistory, hlinear, hagrees⟩ := h.history
    have hwork : Workers.Steady s.workers work ∧ s.workers.event work = .quiet := by
      cases a <;> cases hback <;> exact ⟨hsteady, rfl⟩
    obtain ⟨g', hagrees'⟩ := hagrees.act hpaths hreadings hwork.1 hwork.2
    rw [out, step, hon, hback, List.append_nil]
    exact ⟨h.tracked, ⟨history, m, g', hhistory, hlinear, hagrees'⟩, h.ordered⟩
  | some on =>
    obtain ⟨client, a'⟩ := on
    have hback : background a = none := by cases a <;> first | rfl | cases hon
    have hothers : ∀ e, a' ≠ .others e := by
      rintro e rfl
      cases a <;> cases hon
    rw [names, created, hback] at h
    have htracked : Tracked (s.connection client) (shownOn client events) := (h.tracked client).engine s.engine
    rw [Kept, hon] at hkept
    rw [out, step, hon]
    simp only
    have hshown : ∀ client', Tracked
        (Function.update s.connections client ((s.connection client).step a') client')
        (shownOn client' (events ++ (shown (s.connection client) a').map (client, ·))) := by
      intro client'
      rw [shownOn_append, shownOn_map]
      by_cases heq : client' = client
      · subst heq
        rw [Function.update_self, if_pos rfl]
        exact tracked_step htracked hkept
      · rw [Function.update_of_ne heq, if_neg heq, List.append_nil]
        exact h.tracked client'
    rcases engine_step htracked hothers with ⟨hengine, hnone⟩ |
      ⟨number, call, e, answer, rfl, ⟨request, hrequest, hbytes⟩, hserved, hcall, htook, hanswer, hengine⟩
    · have hnew : ∀ client' number answer,
          (client', .served number answer) ∉ (shown (s.connection client) a').map (client, ·) := by
        intro client' number answer hmem
        obtain ⟨x, hx, heq⟩ := List.mem_map.mp hmem
        cases heq
        exact hnone number answer hx
      obtain ⟨history, m, g, hhistory, hlinear, hagrees⟩ := h.history
      refine ⟨hshown, ⟨history, m, g, hhistory.append hnew, hlinear, ?_⟩, ?_⟩
      · rw [hengine]
        exact hagrees
      · exact ordered_append h.ordered fun client' number answer hmem => absurd hmem (hnew client' number answer)
    · have hread : call.Reads → ¬Window s.workers.compaction := by
        intro hreads
        obtain rfl : a = .serve client := by cases a <;> cases hon; rfl
        refine hsteady request hrequest ?_
        rw [hbytes]
        exact asksToRead_request.mpr hreads
      rw [hserved] at hshown ⊢
      refine ⟨hshown, ?_, ?_⟩
      · rw [hengine]
        exact history_served h.history (mem_shownOn.mp hcall) hread hanswer
      · refine ordered_append h.ordered fun client' number' answer' hmem => ?_
        cases List.mem_singleton.mp hmem
        exact ⟨rfl, ⟨call, mem_shownOn.mp hcall⟩, fun line hmem => htook line (mem_shownOn.mpr hmem)⟩

/-- **Every run keeps the history.** -/
theorem inv_run {limit : Int} {m₀ : Contents} {s : Service} {events : List (Nat × Shown)} {as : List Action}
    (h : Inv limit m₀ s events (collect step names s as) (collect step created s as))
    (hpaths : (collect step names s as).Pairwise Workers.Later)
    (hreadings : (collect step created s as).Pairwise (· < ·)) (hkept : Along step Kept s as)
    (hsteady : Along step Steady s as) : Inv limit m₀ (run step s as) (events ++ collect step out s as) [] [] := by
  induction as generalizing s events with
  | nil =>
    rw [collect, List.append_nil]
    exact h
  | cons a as ih =>
    rw [collect] at h hpaths
    rw [collect] at h hreadings
    rw [run_cons, collect, ← List.append_assoc]
    exact ih (inv_step h hpaths hreadings hkept.1 hsteady.1) (List.pairwise_append.mp hpaths).2.1
      (List.pairwise_append.mp hreadings).2.1 hkept.2 hsteady.2

/-- What a run of the server comes to: a history of the calls served, in the order in which
they were served, each of which came to what it gives on the map that the calls before it
have left, and the engine answers as the map they leave. A number stands for one call of its
client, which is served at most once, between its beginning and its first line; a call that has
ended was served by the lines it took, unless the server closed the connection. -/
structure Linearizes (limit : Int) (m₀ : Contents) (s : Service) (events : List (Nat × Shown)) (history : List Served) :
    Prop where
  served : History events history
  linear : ∃ m, Linear limit m₀ history m ∧ (¬Window s.workers.compaction → Shows s.engine m)
  unique : ∀ client number call call', (client, .called number call) ∈ events →
    (client, .called number call') ∈ events → call = call'
  once : (history.map fun served => (served.client, served.number)).Nodup
  ordered : Ordered events
  ended : ∀ client number call, (client, .called number call) ∈ events → (s.connections client).Ended number →
    ⟨client, number, call, Connection.taken number (lines (shownOn client events))⟩ ∈ history ∨
      (s.connections client).closed = true ∧ Connection.taken number (lines (shownOn client events)) = [] ∧
        ∀ served ∈ history, ¬(served.client = client ∧ served.number = number)

omit [Python] in
/-- The calls served on the connection of a client. -/
theorem servedNumbers_shownOn (client : Nat) (events : List (Nat × Shown)) :
    servedNumbers (shownOn client events) =
      ((servings events).filter fun served => served.1 = client).map fun served => served.2.1 := by
  induction events with
  | nil => rfl
  | cons event events ih =>
    obtain ⟨client', x⟩ := event
    rw [← List.singleton_append, shownOn_append, servedNumbers_append, servings_append, List.filter_append,
      List.map_append, ih]
    refine congrArg (· ++ _) ?_
    by_cases heq : client' = client
    · have hshown : shownOn client [(client', x)] = [x] := List.filterMap_cons_some (if_pos heq)
      rw [hshown]
      cases x with
      | served number answer =>
        have hone : (servings [(client', .served number answer)]).filter (fun served => served.1 = client) =
            [(client', number, answer)] := List.filter_cons_of_pos (decide_eq_true heq)
        rw [hone]
        rfl
      | called number call => rfl
      | line event => rfl
    · have hshown : shownOn client [(client', x)] = [] := List.filterMap_cons_none (if_neg heq)
      rw [hshown]
      cases x with
      | served number answer =>
        have hnone : (servings [(client', .served number answer)]).filter (fun served => served.1 = client) = [] :=
          List.filter_cons_of_neg (by simpa using heq)
        rw [hnone]
        rfl
      | called number call => rfl
      | line event => rfl

omit [Python] in
theorem History.servedNumbers_eq {events : List (Nat × Shown)} {history : List Served} (h : History events history)
    (client : Nat) : servedNumbers (shownOn client events) =
      (history.filter fun served => served.client = client).map Served.number := by
  rw [servedNumbers_shownOn, h.servings, List.filter_map, List.map_map]
  rfl

omit [Python] in
theorem linearizes_of_inv {limit : Int} {m₀ : Contents} {s : Service} {events : List (Nat × Shown)} {paths : List (Bool × Path)}
    {readings : List Nat} (h : Inv limit m₀ s events paths readings) : ∃ history, Linearizes limit m₀ s events history := by
  obtain ⟨history, m, g, hhistory, hlinear, hagrees⟩ := h.history
  have hserved : ∀ {client number answer}, (client, .served number answer) ∈ events →
      ∃ call, ⟨client, number, call, answer⟩ ∈ history := by
    intro client number answer hmem
    have hone : (client, number, answer) ∈ servings events := List.mem_filterMap.mpr ⟨_, hmem, rfl⟩
    rw [hhistory.servings] at hone
    obtain ⟨⟨_, _, call, _⟩, hmem', heq⟩ := List.mem_map.mp hone
    cases heq
    exact ⟨call, hmem'⟩
  refine ⟨history, hhistory, ⟨m, hlinear, hagrees.shows⟩, ?_, ?_, h.ordered, ?_⟩
  · exact fun client number call call' hcall hcall' =>
      (h.tracked client).unique number call call' (mem_shownOn.mpr hcall) (mem_shownOn.mpr hcall')
  · rw [List.Nodup, List.pairwise_map, List.pairwise_iff_getElem]
    intro i j hi hj hij heq
    have hdistinct := (h.tracked history[i].client).distinct.of_append_left
    rw [hhistory.servedNumbers_eq, List.Nodup, List.pairwise_map, List.pairwise_filter,
      List.pairwise_iff_getElem] at hdistinct
    obtain ⟨hclient, hnumber⟩ := Prod.mk.inj heq
    exact hdistinct i j hi hj hij (decide_eq_true rfl) (decide_eq_true hclient.symm) hnumber
  · intro client number call hcall hended
    have hcalled := mem_shownOn.mpr hcall
    rcases taken_of_ended (h.tracked client) hcalled hended with hmem | ⟨hnot, hclosed, hnone⟩
    · obtain ⟨call', hmem'⟩ := hserved (mem_shownOn.mp hmem)
      have hcall' := mem_shownOn.mpr (hhistory.called _ hmem')
      obtain rfl := (h.tracked client).unique number call call' hcalled hcall'
      exact .inl hmem'
    · refine .inr ⟨hclosed, hnone, fun served hserved' hsame => hnot ?_⟩
      rw [hhistory.servedNumbers_eq]
      exact List.mem_map.mpr ⟨served, List.mem_filter.mpr ⟨hserved', decide_eq_true hsame.1⟩, hsame.2⟩

omit [Python] in
theorem inv_opened {e : LSMStorageEngine Wal} {m : Contents} (h : Shows e m) {paths : List (Bool × Path)}
    {readings : List Nat} (hunused : ∀ path ∈ paths, ¬e.tables.Listed path.2)
    (hlater : ∀ nowMs ∈ readings, Newer e.tables nowMs) : Inv e.memtableMaxSize m (opened e) [] paths readings where
  tracked _ := tracked_opened _
  history := by
    obtain ⟨g, hagrees⟩ := agrees_opened h hunused hlater
    exact ⟨[], m, g, ⟨rfl, List.forall_mem_nil _⟩, .nil, hagrees⟩
  ordered before after client number answer heq := by cases before <;> cases heq

omit [Python] in
/-- An engine that holds nothing. -/
theorem shows_fresh (storagePath : Path) (memtableMaxSize : Int) : Shows (fresh storagePath memtableMaxSize) fun _ => none :=
  ⟨sound_fresh storagePath memtableMaxSize, fun _ => rfl, by rintro _ _ ⟨⟩⟩

/-- **The clients see one map.** Whatever the clients of a server do, in whatever order their
requests arrive, are served and are answered, and whatever steps flushes and compactions
take in between, what the calls return is what they give one after the other on one map. -/
theorem service_linearizes {e : LSMStorageEngine Wal} {m : Contents} (h : Shows e m) (as : List Action)
    (hkept : Along step Kept (opened e) as) (hsteady : Along step Steady (opened e) as) (hclock : Clocked (opened e) as) :
    ∃ history, Linearizes e.memtableMaxSize m (run step (opened e) as) (collect step out (opened e) as) history :=
  linearizes_of_inv (inv_run (inv_opened h hclock.unused hclock.later) hclock.distinct hclock.increasing hkept hsteady)

omit [Python] in
/-- Events tell the history when a number stands for one call. -/
theorem History.unique {events : List (Nat × Shown)} {history history' : List Served} (h : History events history)
    (h' : History events history') (hcalls : ∀ client number call call',
      (client, .called number call) ∈ events → (client, .called number call') ∈ events → call = call') :
    history = history' := by
  have hmaps := h.servings.symm.trans h'.servings
  have hlen : history.length = history'.length := by simpa using congrArg List.length hmaps
  refine List.ext_getElem hlen fun i hi hi' => ?_
  have hsame : (history[i].client, history[i].number, history[i].answer) =
      (history'[i].client, history'[i].number, history'[i].answer) := by
    have hget := congrArg (·[i]?) hmaps
    simpa [hi, hi'] using hget
  have hcalled := h.called _ (List.getElem_mem hi)
  have hcalled' := h'.called _ (List.getElem_mem hi')
  generalize history[i] = s at hsame hcalled
  generalize history'[i] = s' at hsame hcalled'
  obtain ⟨client, number, call, answer⟩ := s
  obtain ⟨client', number', call', answer'⟩ := s'
  cases hsame
  rw [hcalls client number call call' hcalled hcalled']

/-- One client puts a value and another a batch, before which the memtable is rotated; the
buffer is flushed and its table compacted. A value is read while the tables are merged, a
batch is refused for its size while the merged table is removed, and a range is read when
that is done. -/
def twoClients : List Action :=
  [.call 0 (.put (text "a") (text "1")), .serve 0, .call 1 (.batchPut [text "b", text "b"] [text "1", text "2"]),
    .serve 1, .write 0, .read 0 200, .write 1, .read 1 200, .flush 0, .flush 0, .flush 1, .flush 2, .flush 0, .flush 0,
    .flush 0, .flush 0, .flush 0, .flush 0, .call 1 (.get (text "a")), .compact 0 0, .compact 5 0, .serve 1, .write 1,
    .read 1 200, .compact 0 6, .compact 0 0, .compact 0 0,
    .call 0 (.batchPut [text "c", text "d", text "e"] [text "", text "", text ""]), .compact 0 0, .serve 0,
    .compact 0 0, .compact 0 0, .write 0, .read 0 200, .call 1 (.readKeyRange (text "a") (text "c")), .serve 1,
    .write 1, .read 1 200, .next 1, .next 1, .write 1, .read 1 200, .next 1]

/-- Its calls in the order in which they are served, with their answers. -/
def twoClientsHistory : List Served :=
  [⟨0, 1, .put (text "a") (text "1"), [jsonLine ((RequestOperation.put [97] [49]).toResponse (text "OK"))]⟩,
    ⟨1, 1, .batchPut [text "b", text "b"] [text "1", text "2"],
      [jsonLine ((RequestOperation.batchPut [[98], [98]] [[49], [50]]).toResponse (text "OK (2 items)"))]⟩,
    ⟨1, 2, .get (text "a"), [jsonLine ((RequestOperation.get [97]).toResponse (text "1"))]⟩,
    ⟨0, 2, .batchPut [text "c", text "d", text "e"] [text "", text "", text ""],
      [jsonLine (Controller.errorResponse (.batchTooLarge (text ("Input batch (195 bytes) exceeds maximum " ++
        "allowed (132 bytes). Consider splitting into multiple requests."))))]⟩,
    ⟨1, 3, .readKeyRange (text "a") (text "c"),
      [jsonLine (chunkDoc [97] [99] ([(text "a", text "1"), (text "b", text "2")], 1)),
        jsonLine (doneDoc [97] [99])]⟩]

omit [Python] in
theorem service_linearizes_twoClients :
    letI := Python.plain
    Linearizes 132 (fun _ => none) (run step (opened (fresh "db" 132)) twoClients)
      (collect step out (opened (fresh "db" 132)) twoClients) twoClientsHistory := by
  obtain ⟨history, h⟩ := @service_linearizes .plain _ _ (shows_fresh "db" 132) twoClients (by decide +kernel)
    (by decide +kernel) (@Clocked.mk .plain _ _ (by decide +kernel) (by decide +kernel) (by decide +kernel)
      (by decide +kernel))
  have heq : history = twoClientsHistory := h.served.unique ⟨by decide +kernel, by decide +kernel⟩ h.unique
  exact heq ▸ h

end Service

end Logvine
