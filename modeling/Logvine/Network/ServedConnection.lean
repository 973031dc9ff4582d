import Logvine.Network.Connection

/-!
# The calls served on a connection

What a connection shows beyond its lines: when a call begins, and when its request is
served, with the lines that answer it.

- `Shown`, `shown`: what an action shows;
- `Tracked`: the calls that have begun, those that were served, their lines that are
  written, and what is still under way;
- `tracked_step`: every step keeps track;
- `engine_step`: a step changes the engine only when it serves a call that has begun, has not
  been served before and has taken nothing;
- `taken_of_ended`: a call that has ended took the lines it was served by.

The client's lock spans a call from its request to its last line (`client.py`, 52–55 and
91–114), and the server writes the lines of one request before it reads the next
(`server.py`, 54–65).
-/

namespace Logvine

open Json LogvineClient

namespace Service

/-- What shows on a connection: a call begins, its request is served by these lines, or a
line is written or taken. -/
inductive Shown where
  | called (number : Nat) (call : Call)
  | served (number : Nat) (lines : List Bytes)
  | line (event : Connection.Event)
deriving DecidableEq

section

variable {E : Type} [Python] [StorageEngine E]

/-- What an action on a connection shows. -/
def shown (c : Connection E) (a : Connection.Action E) : List Shown :=
  (match a with
    | .call call => if c.calls < (c.step a).calls then [.called (c.step a).calls call] else []
    | .serve =>
      if (c.step a).requests.length < c.requests.length ∧ (c.step a).closed = false then
        [.served (c.step a).answering (c.step a).pending]
      else []
    | _ => []) ++ (c.out a).map .line

end

variable [Python]

/-! ## One connection -/

/-- The lines written and taken on a connection. -/
def lines (es : List Shown) : List Connection.Event :=
  es.filterMap fun
    | .line event => some event
    | .called _ _ | .served _ _ => none

/-- The numbers of the calls that were served, in order. -/
def servedNumbers (es : List Shown) : List Nat :=
  es.filterMap fun
    | .served number _ => some number
    | .called _ _ | .line _ => none

omit [Python] in
theorem lines_append (es es' : List Shown) : lines (es ++ es') = lines es ++ lines es' := List.filterMap_append

omit [Python] in
theorem servedNumbers_append (es es' : List Shown) : servedNumbers (es ++ es') = servedNumbers es ++ servedNumbers es' :=
  List.filterMap_append

omit [Python] in
theorem mem_servedNumbers {es : List Shown} {n : Nat} : n ∈ servedNumbers es ↔ ∃ answer, .served n answer ∈ es := by
  simp only [servedNumbers, List.mem_filterMap]
  constructor
  · rintro ⟨event, hmem, heq⟩
    cases event with
    | served number answer =>
      obtain rfl := Option.some.inj heq
      exact ⟨answer, hmem⟩
    | called number call => cases heq
    | line event => cases heq
  · rintro ⟨answer, hmem⟩
    exact ⟨_, hmem, rfl⟩

/-- What has shown on a connection, and what is under way. -/
structure Tracked {E : Type} (c : Connection E) (es : List Shown) : Prop where
  inv : c.Inv (lines es)
  number : ∀ n call, .called n call ∈ es → n ≤ c.calls
  unique : ∀ n call call', .called n call ∈ es → .called n call' ∈ es → call = call'
  requested : ∀ request ∈ c.requests, ∃ call, .called request.call call ∈ es ∧ request.bytes = jsonLine call.request
  distinct : (servedNumbers es ++ c.requests.map Line.call).Nodup
  answered : ∀ n answer, .served n answer ∈ es →
    (∃ call, .called n call ∈ es) ∧
      Connection.written n (lines es) ++ (if c.answering = n then c.pending else []) = answer
  unanswered : ∀ n ∉ servedNumbers es,
    Connection.written n (lines es) = [] ∧ (c.answering = n → c.pending = [])
  outstanding : c.closed = false → ∀ n call, .called n call ∈ es →
    n ∈ servedNumbers es ∨ ∃ request ∈ c.requests, request.call = n

section Tracked

variable {E : Type} {c : Connection E} {es : List Shown}

omit [Python] in
theorem tracked_opened (e : E) : Tracked (.opened e) [] where
  inv := Connection.inv_opened e
  number _ _ h := absurd h List.not_mem_nil
  unique _ _ _ h := absurd h List.not_mem_nil
  requested _ h := absurd h List.not_mem_nil
  distinct := List.nodup_nil
  answered _ _ h := absurd h List.not_mem_nil
  unanswered _ _ := ⟨rfl, fun _ => rfl⟩
  outstanding _ _ _ h := absurd h List.not_mem_nil

omit [Python] in
/-- The engine is not on the connection. -/
theorem Tracked.engine (h : Tracked c es) (e : E) : Tracked { c with engine := e } es :=
  ⟨Connection.inv_others h.inv e, h.number, h.unique, h.requested, h.distinct, h.answered, h.unanswered,
    h.outstanding⟩

omit [Python] in
/-- A step that shows lines only and leaves the requests alone. -/
theorem Tracked.of_lines (h : Tracked c es) {c' : Connection E} {events : List Connection.Event}
    (hinv : c'.Inv (lines es ++ events)) (hcalls : c'.calls = c.calls) (hrequests : c'.requests = c.requests)
    (hclosed : c'.closed = c.closed) (hanswering : c'.answering = c.answering)
    (hwritten : ∀ n, Connection.written n (lines es ++ events) ++ (if c.answering = n then c'.pending else []) =
      Connection.written n (lines es) ++ if c.answering = n then c.pending else []) :
    Tracked c' (es ++ events.map .line) := by
  have hlines : lines (es ++ events.map .line) = lines es ++ events := by
    rw [lines_append, lines, lines, List.filterMap_map]
    exact congrArg (_ ++ ·) (List.filterMap_some)
  have hcalled : ∀ {n call}, .called n call ∈ es ++ events.map .line → .called n call ∈ es := by
    intro n call hmem
    rcases List.mem_append.mp hmem with hmem | hmem
    · exact hmem
    · obtain ⟨_, -, heq⟩ := List.mem_map.mp hmem
      cases heq
  have hserved : ∀ {n answer}, .served n answer ∈ es ++ events.map .line → .served n answer ∈ es := by
    intro n answer hmem
    rcases List.mem_append.mp hmem with hmem | hmem
    · exact hmem
    · obtain ⟨_, -, heq⟩ := List.mem_map.mp hmem
      cases heq
  have hnumbers : servedNumbers (es ++ events.map .line) = servedNumbers es := by
    rw [servedNumbers_append, servedNumbers, servedNumbers, List.filterMap_map]
    have hnone : events.filterMap ((fun
        | .served number _ => some number
        | .called _ _ | .line _ => none : Shown → Option Nat) ∘ Shown.line) = [] :=
      List.filterMap_eq_nil_iff.mpr fun _ _ => rfl
    rw [hnone, List.append_nil]
  refine ⟨by rwa [hlines], ?_, ?_, ?_, ?_, ?_, ?_, ?_⟩
  · rw [hcalls]
    exact fun n call hmem => h.number n call (hcalled hmem)
  · exact fun n call call' hmem hmem' => h.unique n call call' (hcalled hmem) (hcalled hmem')
  · rw [hrequests]
    intro request hmem
    obtain ⟨call, hcall, hbytes⟩ := h.requested request hmem
    exact ⟨call, List.mem_append_left _ hcall, hbytes⟩
  · rw [hnumbers, hrequests]
    exact h.distinct
  · intro n answer hmem
    obtain ⟨⟨call, hcall⟩, hanswer⟩ := h.answered n answer (hserved hmem)
    refine ⟨⟨call, List.mem_append_left _ hcall⟩, ?_⟩
    rw [hlines, hanswering, hwritten n, hanswer]
  · rw [hnumbers, hlines, hanswering]
    intro n hn
    obtain ⟨hnone, hpending⟩ := h.unanswered n hn
    have hsame := hwritten n
    rw [hnone, List.nil_append] at hsame
    by_cases heq : c.answering = n
    · rw [if_pos heq, if_pos heq, hpending heq] at hsame
      obtain ⟨hw, hp⟩ := List.append_eq_nil_iff.mp hsame
      exact ⟨hw, fun _ => hp⟩
    · rw [if_neg heq, if_neg heq, List.append_nil] at hsame
      exact ⟨hsame, fun heq' => absurd heq' heq⟩
  · rw [hclosed, hnumbers, hrequests]
    exact fun hopen n call hmem => h.outstanding hopen n call (hcalled hmem)

omit [Python] in
/-- A step that shows nothing on the connection leaves what was shown. -/
theorem Tracked.of_fields (h : Tracked c es) {c' : Connection E} (hinv : c'.Inv (lines es)) (hcalls : c'.calls = c.calls)
    (hrequests : c'.requests = c.requests) (hclosed : c'.closed = c.closed) (hanswering : c'.answering = c.answering)
    (hpending : c'.pending = c.pending) : Tracked c' es := by
  have hkept : Tracked c' (es ++ List.map Shown.line []) :=
    h.of_lines (by rwa [List.append_nil]) hcalls hrequests hclosed hanswering
      fun n => by rw [List.append_nil, hpending]
  rwa [List.map_nil, List.append_nil] at hkept

omit [Python] in
theorem not_mem_of_lt (h : Tracked c es) {n : Nat} (hn : c.calls < n) (call : Call) : .called n call ∉ es :=
  fun hmem => Nat.not_le_of_lt hn (h.number n call hmem)

omit [Python] in
/-- Only calls are served. -/
theorem le_of_served (h : Tracked c es) {n : Nat} (hn : n ∈ servedNumbers es ++ c.requests.map Line.call) :
    n ≤ c.calls := by
  rcases List.mem_append.mp hn with hn | hn
  · obtain ⟨answer, hserved⟩ := mem_servedNumbers.mp hn
    obtain ⟨⟨call, hcall⟩, -⟩ := h.answered n answer hserved
    exact h.number n call hcall
  · obtain ⟨request, hrequest, rfl⟩ := List.mem_map.mp hn
    obtain ⟨call, hcall, -⟩ := h.requested request hrequest
    exact h.number _ call hcall

omit [Python] in
/-- A call begins. -/
theorem tracked_send (h : Tracked c es) {call : Call} (hinv : (c.send call).Inv (lines es)) :
    Tracked (c.send call) (es ++ [.called (c.calls + 1) call]) := by
  have hlines : lines (es ++ [.called (c.calls + 1) call]) = lines es := by
    rw [lines_append]
    exact List.append_nil _
  have hnumbers : servedNumbers (es ++ [.called (c.calls + 1) call]) = servedNumbers es := by
    rw [servedNumbers_append]
    exact List.append_nil _
  have hserved : ∀ {n answer}, .served n answer ∈ es ++ [.called (c.calls + 1) call] → .served n answer ∈ es := by
    intro n answer hmem
    rcases List.mem_append.mp hmem with hmem | hmem
    · exact hmem
    · cases List.mem_singleton.mp hmem
  have hcalled : ∀ {n call'}, .called n call' ∈ es ++ [.called (c.calls + 1) call] →
      .called n call' ∈ es ∨ n = c.calls + 1 ∧ call' = call := by
    intro n call' hmem
    rcases List.mem_append.mp hmem with hmem | hmem
    · exact .inl hmem
    · cases List.mem_singleton.mp hmem
      exact .inr ⟨rfl, rfl⟩
  refine ⟨by rwa [hlines], ?_, ?_, ?_, ?_, ?_, ?_, ?_⟩
  · intro n call' hmem
    rcases hcalled hmem with hmem | ⟨rfl, -⟩
    · exact Nat.le_succ_of_le (h.number n call' hmem)
    · exact Nat.le_refl _
  · intro n call' call'' hmem hmem'
    rcases hcalled hmem with hmem | ⟨rfl, rfl⟩
    · rcases hcalled hmem' with hmem' | ⟨rfl, -⟩
      · exact h.unique n call' call'' hmem hmem'
      · exact absurd hmem (not_mem_of_lt h (Nat.lt_succ_self _) _)
    · rcases hcalled hmem' with hmem' | ⟨-, rfl⟩
      · exact absurd hmem' (not_mem_of_lt h (Nat.lt_succ_self _) _)
      · rfl
  · intro request hmem
    rcases List.mem_append.mp hmem with hmem | hmem
    · obtain ⟨call', hcall, hbytes⟩ := h.requested request hmem
      exact ⟨call', List.mem_append_left _ hcall, hbytes⟩
    · rw [List.mem_singleton.mp hmem]
      exact ⟨call, List.mem_append_right _ (List.mem_singleton_self _), rfl⟩
  · rw [hnumbers]
    show (servedNumbers es ++ (c.requests ++ [_]).map Line.call).Nodup
    rw [List.map_append, ← List.append_assoc, List.map_singleton, List.nodup_append]
    refine ⟨h.distinct, List.nodup_singleton _, fun n hn n' hn' => ?_⟩
    rw [List.mem_singleton.mp hn']
    exact Nat.ne_of_lt (Nat.lt_succ_of_le (le_of_served h hn))
  · intro n answer hmem
    obtain ⟨⟨call', hcall⟩, hanswer⟩ := h.answered n answer (hserved hmem)
    exact ⟨⟨call', List.mem_append_left _ hcall⟩, by rw [hlines]; exact hanswer⟩
  · rw [hnumbers, hlines]
    exact h.unanswered
  · intro hopen n call' hmem
    rw [hnumbers]
    rcases hcalled hmem with hmem | ⟨rfl, -⟩
    · refine (h.outstanding hopen n call' hmem).imp_right ?_
      rintro ⟨request, hrequest, heq⟩
      exact ⟨request, List.mem_append_left _ hrequest, heq⟩
    · exact .inr ⟨_, List.mem_append_right _ (List.mem_singleton_self _), rfl⟩

variable [StorageEngine E]

/-- What the server does when it looks for the next request: nothing, or the line is too long
and it closes the connection, or it serves the call that wrote the line. -/
theorem serve_cases (h : Tracked c es) :
    c.serve = c ∨
      (∃ request requests, c.requests = request :: requests ∧ c.serve = { c with requests := requests, closed := true }) ∨
      ∃ request requests call e answer, c.requests = request :: requests ∧ .called request.call call ∈ es ∧
        request.bytes = jsonLine call.request ∧ c.closed = false ∧ c.pending = [] ∧
        LogvineServer.handleLine c.engine (jsonLine call.request) = (e, some answer) ∧
        c.serve = { c with engine := e, requests := requests, answering := request.call, pending := answer } := by
  unfold Connection.serve
  split
  · next request requests hopen hpending hrequests =>
    obtain ⟨call, hcall, hbytes⟩ := h.requested request (hrequests ▸ List.mem_cons_self)
    split
    · exact .inl rfl
    · exact .inr (.inl ⟨request, requests, hrequests, rfl⟩)
    · next line rest hattempt =>
      obtain ⟨rfl, -⟩ := Lines.eq_of_attempt_line (newline_notMem_jsonBytes call.request)
        ((List.append_nil _).trans hbytes) hattempt
      have hanswer := handleLine_request c.engine call
      rw [jsonLine] at hanswer
      split
      · next e hnone =>
        rw [hanswer] at hnone
        cases congrArg Prod.snd hnone
      · next e answer hsome =>
        exact .inr (.inr ⟨request, requests, call, e, answer, hrequests, hcall, hbytes, hopen, hpending, hsome, rfl⟩)
  · exact .inl rfl

theorem tracked_serve (h : Tracked c es) (hinv : c.serve.Inv (lines es)) :
    Tracked c.serve (es ++ shown c .serve) := by
  have hshown : shown c .serve =
      if c.serve.requests.length < c.requests.length ∧ c.serve.closed = false then
        [.served c.serve.answering c.serve.pending]
      else [] := List.append_nil _
  rw [hshown]
  rcases serve_cases h with hsame | ⟨request, requests, hrequests, hserve⟩ |
    ⟨request, requests, call, e, answer, hrequests, hcall, -, hopen, hpending, -, hserve⟩
  · rw [hsame, if_neg (fun hless => Nat.lt_irrefl _ hless.1), List.append_nil]
    exact h
  · rw [hserve] at hinv ⊢
    rw [if_neg (by rintro ⟨-, ⟨⟩⟩), List.append_nil]
    refine ⟨hinv, h.number, h.unique, ?_, ?_, h.answered, h.unanswered, fun hopen => by cases hopen⟩
    · exact fun request' hmem => h.requested request' (hrequests ▸ List.mem_cons_of_mem _ hmem)
    · have hdistinct := h.distinct
      rw [hrequests, List.map_cons] at hdistinct
      exact hdistinct.sublist (List.Sublist.append_left (List.sublist_cons_self _ _) _)
  · rw [hserve] at hinv ⊢
    rw [if_pos ⟨by rw [hrequests]; exact Nat.lt_succ_self _, hopen⟩]
    have hlines : lines (es ++ [.served request.call answer]) = lines es := by
      rw [lines_append]
      exact List.append_nil _
    have hnumbers : servedNumbers (es ++ [.served request.call answer]) = servedNumbers es ++ [request.call] :=
      servedNumbers_append ..
    have hdistinct := h.distinct
    rw [hrequests, List.map_cons] at hdistinct
    have hnew : request.call ∉ servedNumbers es := by
      intro hmem
      exact (List.nodup_append.mp hdistinct).2.2 _ hmem _ List.mem_cons_self rfl
    obtain ⟨hnone, -⟩ := h.unanswered request.call hnew
    have hcalled : ∀ {n call'}, .called n call' ∈ es ++ [.served request.call answer] → .called n call' ∈ es := by
      intro n call' hmem
      rcases List.mem_append.mp hmem with hmem | hmem
      · exact hmem
      · cases List.mem_singleton.mp hmem
    refine ⟨by rwa [hlines], fun n call' hmem => h.number n call' (hcalled hmem),
      fun n call' call'' hmem hmem' => h.unique n call' call'' (hcalled hmem) (hcalled hmem'), ?_, ?_, ?_, ?_, ?_⟩
    · intro request' hmem
      obtain ⟨call', hcall', hbytes⟩ := h.requested request' (hrequests ▸ List.mem_cons_of_mem _ hmem)
      exact ⟨call', List.mem_append_left _ hcall', hbytes⟩
    · rw [hnumbers, List.append_assoc, List.singleton_append]
      exact hdistinct
    · intro n answer' hmem
      rw [hlines]
      rcases List.mem_append.mp hmem with hmem | hmem
      · -- the answer to an earlier call has been written
        obtain ⟨⟨call', hcall'⟩, hanswer⟩ := h.answered n answer' hmem
        refine ⟨⟨call', List.mem_append_left _ hcall'⟩, ?_⟩
        have hne : request.call ≠ n := fun heq => hnew (heq ▸ mem_servedNumbers.mpr ⟨answer', hmem⟩)
        rw [hpending, ite_self, List.append_nil] at hanswer
        rw [if_neg hne, List.append_nil, hanswer]
      · cases List.mem_singleton.mp hmem
        exact ⟨⟨call, List.mem_append_left _ hcall⟩, by rw [if_pos rfl, hnone, List.nil_append]⟩
    · intro n hn
      rw [hnumbers, List.mem_append, List.mem_singleton, not_or] at hn
      rw [hlines]
      exact ⟨(h.unanswered n hn.1).1, fun heq => absurd heq.symm hn.2⟩
    · intro _ n call' hmem
      rw [hnumbers]
      rcases h.outstanding hopen n call' (hcalled hmem) with hserved | ⟨request', hmem', heq⟩
      · exact .inl (List.mem_append_left _ hserved)
      · rw [hrequests] at hmem'
        rcases List.mem_cons.mp hmem' with rfl | hmem'
        · exact .inl (List.mem_append_right _ (heq ▸ List.mem_singleton_self _))
        · exact .inr ⟨request', hmem', heq⟩

omit [Python] [StorageEngine E] in
/-- What a look at the stream leaves alone. -/
theorem read_same (c : Connection E) (arrived : Nat) :
    (c.read arrived).1.calls = c.calls ∧ (c.read arrived).1.requests = c.requests ∧
      (c.read arrived).1.closed = c.closed ∧ (c.read arrived).1.answering = c.answering ∧
      (c.read arrived).1.pending = c.pending ∧
      ∀ n es, Connection.written n (es ++ (c.read arrived).2) = Connection.written n es := by
  unfold Connection.read
  split
  · split <;> exact ⟨rfl, rfl, rfl, rfl, rfl, fun n es => by rw [List.append_nil]⟩
  · dsimp only
    split
    · exact ⟨rfl, rfl, rfl, rfl, rfl, fun n es => by rw [List.append_nil]⟩
    · exact ⟨rfl, rfl, rfl, rfl, rfl, fun n es => Connection.written_took ..⟩
    · exact ⟨rfl, rfl, rfl, rfl, rfl, fun n es => Connection.written_took ..⟩

/-- **Every step on a connection** keeps track of what it shows. -/
theorem tracked_step (h : Tracked c es) {a : Connection.Action E} (hkept : c.Kept a) :
    Tracked (c.step a) (es ++ shown c a) := by
  have hinv := Connection.inv_step h.inv hkept
  have hquiet : ∀ {c' : Connection E}, c'.Inv (lines es) → c'.calls = c.calls → c'.requests = c.requests →
      c'.closed = c.closed → c'.answering = c.answering → c'.pending = c.pending → Tracked c' (es ++ []) := by
    intro c' hinv hcalls hrequests hclosed hanswering hpending
    rw [List.append_nil]
    exact h.of_fields hinv hcalls hrequests hclosed hanswering hpending
  cases a with
  | call call =>
    cases hclient : c.client with
    | idle =>
      simp only [shown, Connection.step, Connection.out, Connection.act, hclient, List.append_nil] at hinv ⊢
      by_cases hraises : call.Raises
      · rw [if_pos hraises] at hinv ⊢
        rw [if_neg (Nat.lt_irrefl _)]
        exact hquiet hinv rfl rfl rfl rfl rfl
      · rw [if_neg hraises] at hinv ⊢
        have hmore : c.calls < (c.send call).calls := Nat.lt_succ_self _
        rw [if_pos hmore]
        exact tracked_send h hinv
    | waiting | receiving | suspended items =>
      simp only [shown, Connection.step, Connection.out, Connection.act, hclient, List.append_nil] at hinv ⊢
      rw [if_neg (Nat.lt_irrefl _)]
      exact hquiet hinv rfl rfl rfl rfl rfl
  | serve =>
    rw [Connection.out, Connection.act, List.append_nil] at hinv
    exact tracked_serve h hinv
  | write =>
    simp only [shown, Connection.step, Connection.out, Connection.act] at hinv ⊢
    split at hinv
    · rw [List.append_nil] at hinv
      exact hquiet hinv rfl rfl rfl rfl rfl
    · next line pending hpending =>
      refine h.of_lines hinv rfl rfl rfl rfl fun n => ?_
      rw [Connection.written_wrote, hpending, List.append_assoc]
      by_cases heq : c.answering = n
      · rw [if_pos heq, if_pos heq, if_pos heq, List.singleton_append]
      · rw [if_neg heq, if_neg heq, if_neg heq, List.append_nil]
  | read arrived =>
    obtain ⟨hcalls, hrequests, hclosed, hanswering, hpending, hwritten⟩ := read_same c arrived
    simp only [shown, Connection.step, Connection.out, Connection.act] at hinv ⊢
    split at hinv
    · exact h.of_lines hinv hcalls hrequests hclosed hanswering fun n => by rw [hwritten, hpending]
    · exact h.of_lines hinv hcalls hrequests hclosed hanswering fun n => by rw [hwritten, hpending]
    · rw [List.append_nil] at hinv
      exact hquiet hinv rfl rfl rfl rfl rfl
  | next =>
    simp only [shown, Connection.step, Connection.out, Connection.act] at hinv ⊢
    split at hinv <;>
    · rw [List.append_nil] at hinv
      exact hquiet hinv rfl rfl rfl rfl rfl
  | close =>
    simp only [shown, Connection.step, Connection.out, Connection.act] at hinv ⊢
    split at hinv <;>
    · rw [List.append_nil] at hinv
      exact hquiet hinv rfl rfl rfl rfl rfl
  | others e => exact hquiet (Connection.inv_others h.inv e) rfl rfl rfl rfl rfl

omit [Python] [StorageEngine E] in
/-- **A call that has ended** was served by the lines it took, or the connection was closed
before it was served. -/
theorem taken_of_ended (h : Tracked c es) {n : Nat} {call : Call} (hcall : .called n call ∈ es) (hended : c.Ended n) :
    .served n (Connection.taken n (lines es)) ∈ es ∨
      n ∉ servedNumbers es ∧ c.closed = true ∧ Connection.taken n (lines es) = [] := by
  have hlast : Connection.taken n (lines es) = Connection.written n (lines es) ∧ (c.answering = n → c.pending = []) ∧
      (c.closed = false → ∀ request ∈ c.requests, request.call ≠ n) := by
    rcases hended with hlt | ⟨rfl, hidle, hleft⟩
    · have hne : n ≠ c.calls := Nat.ne_of_lt hlt
      refine ⟨h.inv.earlier n hlt, ?_⟩
      rcases h.inv.current with hl | ⟨-, hphase, -⟩
      · refine ⟨fun heq => ?_, fun _ request hmem => ?_⟩
        · by_contra hpending
          exact hne (heq.symm.trans (hl.pending hpending))
        · rw [hl.requests] at hmem
          exact absurd hmem List.not_mem_nil
      · cases hphase with
        | asked call' hopen hrequests hpending =>
          refine ⟨fun _ => hpending, fun _ request hmem => ?_⟩
          rw [hrequests] at hmem
          rw [List.mem_singleton.mp hmem]
          exact hne.symm
        | answered hopen hrequests hanswering =>
          refine ⟨fun heq => ?_, fun _ request hmem => ?_⟩
          · by_contra hpending
            exact hne (heq.symm.trans (hanswering hpending))
          · rw [hrequests] at hmem
            exact absurd hmem List.not_mem_nil
        | closed hclosed hpending =>
          exact ⟨fun _ => hpending, fun hopen => by cases hopen.symm.trans hclosed⟩
    · rcases h.inv.current with hl | ⟨-, hphase, hlines⟩
      · cases hl.left.symm.trans hleft
      · obtain ⟨hresponses, hpending, hrequests⟩ := hphase.idle hidle
        rw [hresponses, List.map_nil, List.append_nil] at hlines
        refine ⟨hlines, fun _ => hpending, fun hopen request hmem => ?_⟩
        rw [hrequests hopen] at hmem
        exact absurd hmem List.not_mem_nil
  obtain ⟨hall, hpending, hrequests⟩ := hlast
  by_cases hserved : n ∈ servedNumbers es
  · obtain ⟨answer, hmem⟩ := mem_servedNumbers.mp hserved
    obtain ⟨-, hanswer⟩ := h.answered n answer hmem
    have hnone : (if c.answering = n then c.pending else []) = [] := by
      split
      · next heq => exact hpending heq
      · rfl
    rw [hnone, List.append_nil, ← hall] at hanswer
    exact .inl (hanswer ▸ hmem)
  · refine .inr ⟨hserved, ?_, hall.trans (h.unanswered n hserved).1⟩
    by_contra hopen
    rw [Bool.not_eq_true] at hopen
    rcases h.outstanding hopen n call hcall with hmem | ⟨request, hmem, heq⟩
    · exact hserved hmem
    · exact hrequests hopen request hmem heq

end Tracked

/-! ## The steps -/

section Steps

variable {E : Type} [StorageEngine E] {c : Connection E} {es : List Shown}

omit [Python] [StorageEngine E] in
/-- A call that was not served has taken nothing. -/
theorem not_taken (h : Tracked c es) {request : Line} (hrequest : request ∈ c.requests)
    (hserved : request.call ∉ servedNumbers es) (line : Line) : .line (.took request.call line) ∉ es := by
  obtain ⟨hwritten, -⟩ := h.unanswered _ hserved
  have htaken : Connection.taken request.call (lines es) = [] := by
    rcases Nat.lt_or_eq_of_le (le_of_served h (List.mem_append_right _ (List.mem_map_of_mem hrequest))) with hlt | heq
    · rw [h.inv.earlier _ hlt, hwritten]
    · rcases h.inv.current with hl | ⟨-, -, hlines⟩
      · rw [hl.requests] at hrequest
        exact absurd hrequest List.not_mem_nil
      · rw [← heq, hwritten] at hlines
        exact (List.append_eq_nil_iff.mp hlines).1
  intro hmem
  have hline : line.bytes ∈ Connection.taken request.call (lines es) :=
    List.mem_filterMap.mpr ⟨.took request.call line, List.mem_filterMap.mpr ⟨_, hmem, rfl⟩, if_pos rfl⟩
  rw [htaken] at hline
  exact absurd hline List.not_mem_nil

/-- **What a step on a connection does to the engine**: nothing, or it serves one call. -/
theorem engine_step (h : Tracked c es) {a : Connection.Action E} (ha : ∀ e, a ≠ .others e) :
    ((c.step a).engine = c.engine ∧ ∀ n answer, .served n answer ∉ shown c a) ∨
      ∃ n call e answer, a = .serve ∧ (∃ request ∈ c.requests.head?, request.bytes = jsonLine call.request) ∧
        shown c a = [.served n answer] ∧ .called n call ∈ es ∧
        (∀ line, .line (.took n line) ∉ es) ∧
        LogvineServer.handleLine c.engine (jsonLine call.request) = (e, some answer) ∧ (c.step a).engine = e := by
  have hnone : ∀ {events : List Connection.Event} (n : Nat) (answer : List Bytes),
      .served n answer ∉ events.map Shown.line := by
    intro events n answer hmem
    obtain ⟨_, -, heq⟩ := List.mem_map.mp hmem
    cases heq
  cases a with
  | serve =>
    have hshown : shown c .serve =
        if c.serve.requests.length < c.requests.length ∧ c.serve.closed = false then
          [.served c.serve.answering c.serve.pending]
        else [] := List.append_nil _
    rw [hshown, Connection.step, Connection.act]
    rcases serve_cases h with hsame | ⟨request, requests, hrequests, hserve⟩ |
      ⟨request, requests, call, e, answer, hrequests, hcall, hbytes, hopen, hpending, hanswer, hserve⟩
    · rw [hsame, if_neg (fun hless => Nat.lt_irrefl _ hless.1)]
      exact .inl ⟨rfl, fun _ _ => List.not_mem_nil⟩
    · rw [hserve, if_neg (by rintro ⟨-, ⟨⟩⟩)]
      exact .inl ⟨rfl, fun _ _ => List.not_mem_nil⟩
    · have hmem : request ∈ c.requests := hrequests ▸ List.mem_cons_self
      have hserved : request.call ∉ servedNumbers es := by
        intro hmem'
        exact (List.nodup_append.mp h.distinct).2.2 _ hmem' _ (List.mem_map_of_mem hmem) rfl
      rw [hserve, if_pos ⟨by rw [hrequests]; exact Nat.lt_succ_self _, hopen⟩]
      refine .inr ⟨request.call, call, e, answer, rfl, ⟨request, ?_, hbytes⟩, rfl, hcall, not_taken h hmem hserved,
        hanswer, rfl⟩
      rw [hrequests]
      rfl
  | call call =>
    refine .inl ⟨?_, fun n answer hmem => ?_⟩
    · rw [Connection.step, Connection.act]
      split
      · dsimp only
        split <;> rfl
      · rfl
    · rcases List.mem_append.mp hmem with hmem | hmem
      · dsimp only at hmem
        split at hmem
        · cases List.mem_singleton.mp hmem
        · exact absurd hmem List.not_mem_nil
      · exact hnone n answer hmem
  | write =>
    refine .inl ⟨?_, hnone⟩
    rw [Connection.step, Connection.act]
    split <;> rfl
  | read arrived =>
    refine .inl ⟨?_, hnone⟩
    have hread : (c.read arrived).1.engine = c.engine := by
      unfold Connection.read
      split
      · split <;> rfl
      · dsimp only
        split <;> rfl
    rw [Connection.step, Connection.act]
    split
    · exact hread
    · exact hread
    · rfl
  | next =>
    refine .inl ⟨?_, hnone⟩
    rw [Connection.step, Connection.act]
    split <;> rfl
  | close =>
    refine .inl ⟨?_, hnone⟩
    rw [Connection.step, Connection.act]
    split <;> rfl
  | others e => exact absurd rfl (ha e)

end Steps

end Service

end Logvine
