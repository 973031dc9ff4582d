import Mathlib

/-!
# Lines of a stream

A stream of lines, each ended by a separator, is received in pieces. The reader looks for
the next separator in what has arrived, and gives a line up when more than `limit`
elements stand before it.

- `attempt`: what the reader finds in its buffer;
- `readLines`: line after line, while the pieces arrive;
- `readLines_eq_linesWithin`: what is read does not depend on how the stream is cut.

So a proof about a stream can forget the pieces and speak of lines: that is what the
equation is for.
-/

namespace Logvine

namespace Lines

universe u

variable {α : Type u} [DecidableEq α] (sep : α) (limit : Nat)

/-- What one look into the buffer gives. -/
inductive Attempt (α : Type u) where
  | line (line rest : List α)
  | tooLong (rest : List α)
  | wait
deriving DecidableEq

/-- One look into the buffer. A line that is too long is dropped as far as it has arrived. -/
def attempt (buffer : List α) : Attempt α :=
  let found := buffer.idxOf sep
  if found < buffer.length then
    if found ≤ limit then .line (buffer.take (found + 1)) (buffer.drop (found + 1))
    else .tooLong (buffer.drop (found + 1))
  else if limit < buffer.length then .tooLong [] else .wait

variable {sep limit}

theorem idxOf_line {body : List α} (h : sep ∉ body) (rest : List α) :
    (body ++ sep :: rest).idxOf sep = body.length := by
  rw [List.idxOf_append_of_notMem h, List.idxOf_cons_self, Nat.add_zero]

/-- A line with its separator is in the buffer. -/
theorem attempt_of_line {body : List α} (h : sep ∉ body) (rest : List α) :
    attempt sep limit (body ++ sep :: rest) =
      if body.length ≤ limit then .line (body ++ [sep]) rest else .tooLong rest := by
  have hlt : body.length < (body ++ sep :: rest).length := by
    rw [List.length_append, List.length_cons]
    omega
  have hsplit : body ++ sep :: rest = (body ++ [sep]) ++ rest := by
    rw [List.append_assoc, List.singleton_append]
  have hlength : (body ++ [sep]).length = body.length + 1 := List.length_append
  rw [attempt, idxOf_line h, if_pos hlt, hsplit, ← hlength, List.take_left, List.drop_left]

theorem attempt_line {body : List α} (h : sep ∉ body) (hfit : body.length ≤ limit) (rest : List α) :
    attempt sep limit (body ++ sep :: rest) = .line (body ++ [sep]) rest := by
  rw [attempt_of_line h, if_pos hfit]

theorem attempt_tooLong {body : List α} (h : sep ∉ body) (hlong : limit < body.length) (rest : List α) :
    attempt sep limit (body ++ sep :: rest) = .tooLong rest := by
  rw [attempt_of_line h, if_neg (Nat.not_le.mpr hlong)]

variable (limit) in
theorem attempt_part {part : List α} (h : sep ∉ part) :
    attempt sep limit part = if limit < part.length then .tooLong [] else .wait := by
  rw [attempt, List.idxOf_eq_length h, if_neg (Nat.lt_irrefl _)]

/-- A line that is found is taken off the buffer. -/
theorem length_of_attempt {buffer line rest : List α} (h : attempt sep limit buffer = .line line rest) :
    rest.length < buffer.length := by
  simp only [attempt] at h
  split at h
  · split at h
    · cases h
      rw [List.length_drop]
      omega
    · cases h
  · split at h <;> cases h

variable (sep limit)

/-- The lines that are read one after the other from the buffer and the pieces still to
arrive; `none` stands for a line that is too long, after which nothing is read. -/
def readLines (buffer : List α) (pieces : List (List α)) : List (Option (List α)) :=
  match _h : attempt sep limit buffer with
  | .line line rest => some line :: readLines rest pieces
  | .tooLong _ => [none]
  | .wait =>
    match pieces with
    | [] => []
    | piece :: pieces => readLines (buffer ++ piece) pieces
termination_by (pieces.length, buffer.length)
decreasing_by
  · exact Prod.Lex.right _ (length_of_attempt _h)
  · exact Prod.Lex.left _ _ (Nat.lt_succ_self _)

/-- The lines up to the first that is too long. -/
def linesWithin : List (List α) → List (Option (List α))
  | [] => []
  | body :: bodies => if body.length ≤ limit then some (body ++ [sep]) :: linesWithin bodies else [none]

/-- The stream of some lines. -/
def stream (bodies : List (List α)) : List α := bodies.flatMap fun body => body ++ [sep]

variable {sep limit}

omit [DecidableEq α] in
/-- A buffer at the beginning of a stream ends within the first line or holds all of it. -/
theorem buffer_cases {buffer later body : List α} {bodies : List (List α)}
    (h : buffer ++ later = stream sep (body :: bodies)) :
    (∃ rest, body = buffer ++ rest ∧ later = rest ++ sep :: stream sep bodies) ∨
      ∃ rest, buffer = body ++ sep :: rest ∧ rest ++ later = stream sep bodies := by
  rw [stream, List.flatMap_cons, List.append_assoc, List.singleton_append] at h
  rcases List.append_eq_append_iff.mp h with ⟨rest, hbody, hlater⟩ | ⟨rest, hbuffer, hrest⟩
  · exact .inl ⟨rest, hbody, hlater⟩
  · cases rest with
    | nil =>
      rw [List.append_nil] at hbuffer
      exact .inl ⟨[], by rw [hbuffer, List.append_nil], hrest.symm⟩
    | cons c rest =>
      rw [List.cons_append, List.cons.injEq] at hrest
      exact .inr ⟨rest, by rw [hbuffer, hrest.1], hrest.2.symm⟩

variable (limit) in
/-- What a look into the buffer at the beginning of a stream gives. -/
theorem attempt_cases {bodies : List (List α)} (hsep : ∀ body ∈ bodies, sep ∉ body) {buffer later : List α}
    (h : buffer ++ later = stream sep bodies) :
    (attempt sep limit buffer = .wait ∧ (later = [] → bodies = [])) ∨
      ∃ body more, bodies = body :: more ∧
        (limit < body.length ∧ (∃ rest, attempt sep limit buffer = .tooLong rest) ∨
          body.length ≤ limit ∧
            ∃ rest, attempt sep limit buffer = .line (body ++ [sep]) rest ∧ rest ++ later = stream sep more) := by
  cases bodies with
  | nil =>
    have hbuffer : buffer = [] := (List.append_eq_nil_iff.mp h).1
    refine .inl ⟨?_, fun _ => rfl⟩
    rw [hbuffer, attempt_part limit List.not_mem_nil, List.length_nil, if_neg (Nat.not_lt_zero _)]
  | cons body bodies =>
    have hbody : sep ∉ body := hsep body List.mem_cons_self
    rcases buffer_cases h with ⟨rest, rfl, hlater⟩ | ⟨rest, rfl, hrest⟩
    · have hpart := attempt_part limit fun hmem => hbody (List.mem_append_left rest hmem)
      by_cases hlong : limit < buffer.length
      · rw [if_pos hlong] at hpart
        refine .inr ⟨buffer ++ rest, bodies, rfl, .inl ⟨?_, [], hpart⟩⟩
        rw [List.length_append]
        omega
      · rw [if_neg hlong] at hpart
        refine .inl ⟨hpart, fun hnil => ?_⟩
        rw [hnil] at hlater
        cases rest <;> cases hlater
    · rcases Nat.lt_or_ge limit body.length with hlong | hfit
      · exact .inr ⟨body, bodies, rfl, .inl ⟨hlong, rest, attempt_tooLong hbody hlong rest⟩⟩
      · exact .inr ⟨body, bodies, rfl, .inr ⟨hfit, rest, attempt_line hbody hfit rest, hrest⟩⟩

/-- A line that is found in the buffer when only one line is under way. -/
theorem eq_of_attempt_line {body buffer later line rest : List α} (hsep : sep ∉ body)
    (h : buffer ++ later = body ++ [sep]) (hline : attempt sep limit buffer = .line line rest) :
    line = body ++ [sep] ∧ rest ++ later = [] := by
  have hstream : buffer ++ later = stream sep [body] := h.trans (List.append_nil _).symm
  rcases attempt_cases limit (List.forall_mem_singleton.mpr hsep) hstream with
    ⟨hwait, -⟩ | ⟨body', more, hbodies, ⟨-, rest, hlong⟩ | ⟨-, rest', hfull, hrest⟩⟩
  · cases hwait.symm.trans hline
  · cases hlong.symm.trans hline
  · cases hfull.symm.trans hline
    cases hbodies
    exact ⟨rfl, hrest⟩

/-- **However the stream is cut into pieces**, its lines are read up to the first that is too
long. -/
theorem readLines_eq_linesWithin {bodies : List (List α)} (hsep : ∀ body ∈ bodies, sep ∉ body)
    {buffer : List α} {pieces : List (List α)} (h : buffer ++ pieces.flatten = stream sep bodies) :
    readLines sep limit buffer pieces = linesWithin sep limit bodies := by
  fun_induction readLines sep limit buffer pieces generalizing bodies with
  | case1 buffer pieces line rest hline ih =>
    rcases attempt_cases limit hsep h with
      ⟨hwait, -⟩ | ⟨body, more, rfl, ⟨-, rest, hlong⟩ | ⟨hfit, rest', hfull, hrest⟩⟩
    · cases hwait.symm.trans hline
    · cases hlong.symm.trans hline
    · cases hfull.symm.trans hline
      rw [linesWithin, if_pos hfit, ih (fun body hbody => hsep body (List.mem_cons_of_mem _ hbody)) hrest]
  | case2 buffer pieces rest hlong =>
    rcases attempt_cases limit hsep h with
      ⟨hwait, -⟩ | ⟨body, more, rfl, ⟨hlimit, -⟩ | ⟨-, rest', hfull, -⟩⟩
    · cases hwait.symm.trans hlong
    · rw [linesWithin, if_neg (by omega)]
    · cases hfull.symm.trans hlong
  | case3 buffer hwait =>
    rcases attempt_cases limit hsep h with
      ⟨-, hend⟩ | ⟨body, more, rfl, ⟨-, rest, hlong⟩ | ⟨-, rest, hfull, -⟩⟩
    · rw [hend rfl, linesWithin]
    · cases hlong.symm.trans hwait
    · cases hfull.symm.trans hwait
  | case4 buffer hwait piece pieces ih =>
    rw [List.flatten_cons, ← List.append_assoc] at h
    exact ih hsep h

end Lines

end Logvine
