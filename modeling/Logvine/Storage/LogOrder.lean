import Logvine.Storage.Buffers
import Logvine.Storage.EngineRun
import Logvine.Storage.Threads

/-!
# Log order and memtable order

A write is appended to the log in one critical section and applied to the memtable in
another, so two writes of a key can be logged in one order and applied in the other.

- `InLogOrder`: a writer that applies its records is, of all writers that have appended
  records of one of its keys and not applied them, the one that appended first;
- `LogInv`: the log as a sequence of blocks, each applied or still in the hands of a
  writer. The memtable holds the applied blocks, and no block of a key is applied ahead
  of an earlier one;
- `replay_agrees`: if all records are applied so, the log replays to what is in memory.

The append stands outside of the memtable's lock "to avoid unnecessary blocking"
(`engine.py`, 141–146), and the same in `batch_put` (261–264) and `delete` (197–198). Replay
goes by the log (125–131), readers go by the memtable.
-/

namespace Logvine

open Layer

namespace LSMStorageEngine

/-- The records a writer has appended and not applied yet. -/
def WriterPc.unapplied : WriterPc → List LogRecord
  | .putLogged key value _ => [⟨OperationType.put, key, value⟩]
  | .deleteLogged key _ => [⟨OperationType.delete, key, []⟩]
  | .batchLogged items _ _ => items.map fun item => ⟨OperationType.put, item.1, item.2⟩
  | _ => []

/-- The offset of the last of them. -/
def WriterPc.offset : WriterPc → Nat
  | .putLogged _ _ offset => offset
  | .deleteLogged _ offset => offset
  | .batchLogged _ _ lastOffset => lastOffset
  | _ => 0

/-- Two lists of records share a key. -/
def ShareKey (rs rs' : List LogRecord) : Prop := ∃ r ∈ rs, ∃ r' ∈ rs', r.key = r'.key

theorem logLayer_of_not_mem {rs : List LogRecord} {key : Bytes} (h : ∀ r ∈ rs, r.key ≠ key) :
    logLayer rs key = none := by
  refine resolve_eq_none_iff.mpr ?_
  intro f hf
  obtain ⟨r, hr, rfl⟩ := List.mem_map.mp hf
  have hne := h r (List.mem_reverse.mp hr)
  unfold recordLayer MemTable.entry
  split
  · exact if_neg hne
  · split
    · exact if_neg hne
    · rfl

/-- Records of other keys may change places. -/
theorem logLayer_swap {before rs after : List LogRecord} (h : ¬ShareKey rs after) :
    logLayer (before ++ rs ++ after) = above (logLayer rs) (logLayer (before ++ after)) := by
  rw [logLayer_append, logLayer_append, logLayer_append]
  funext key
  by_cases hkey : ∃ r ∈ rs, r.key = key
  -- a key of the records that move: none behind them has it
  · obtain ⟨r, hr, rfl⟩ := hkey
    have hafter : logLayer after r.key = none :=
      logLayer_of_not_mem fun r' hr' heq => h ⟨r, hr, r', hr', heq.symm⟩
    rw [above_of_none hafter, above_apply, above_apply, above_apply, hafter, Option.none_or]
  · have hnone : logLayer rs key = none := logLayer_of_not_mem fun r hr heq => hkey ⟨r, hr, heq⟩
    rw [above_of_none hnone, above_apply, above_apply, hnone, Option.none_or, above_apply]

/-- A section that lays entries over the memtable. -/
theorem layer_of_step {m m' : MemTable} {u : Layer Bytes Bytes}
    (h : LayeredStore.Step (store m .fresh) (.write u) (store m' .fresh)) : m'.layer = above u m.layer := by
  have hview : ∀ m : MemTable, (store m .fresh).view = m.layer := fun m => above_empty m.layer
  rw [← hview, ← hview, LayeredStore.view_write h]

/-- What a writing section lays over the memtable are its records. -/
theorem layer_writeNext {L : Type} [Log L] (e : LSMStorageEngine L) (pc : WriterPc) :
    (Config.writeNext e pc).1.memtable.layer = above (logLayer pc.unapplied) e.memtable.layer := by
  cases pc with
  | putLogged key value offset =>
    show (putSection e.memtable key value offset).layer = above (logLayer [_]) _
    rw [logLayer_singleton]
    exact layer_of_step (step_putSection ..)
  | deleteLogged key offset =>
    show (e.memtable.delete key).layer = above (logLayer [_]) _
    rw [logLayer_singleton]
    exact layer_of_step (step_delete ..)
  | batchLogged items inputSize lastOffset =>
    show (batchSection e.memtable inputSize items lastOffset).layer = _
    rw [WriterPc.unapplied, ← itemsLayer_eq_logLayer]
    exact layer_of_step (step_batchSection ..)
  | idle | deleteApplied key offset => rfl
  | batchSizing keys values rest inputSize =>
    cases rest with
    | cons item rest => rfl
    | nil =>
      rw [Config.writeNext]
      split
      · rfl
      · rcases Log.appendBatch e.wal OperationType.put keys values with ⟨wal, err | lastOffset⟩ <;> rfl

/-! ## When the two orders agree -/

/-- Of the writers with appended, unapplied records of a key, the one that applies them
appended them first. -/
def InLogOrder {L : Type} (c : Config L) : Action → Prop
  | .write writer => ∀ other, other ≠ writer →
      ShareKey (c.writers writer).unapplied (c.writers other).unapplied →
      (c.writers writer).offset < (c.writers other).offset
  | _ => True

/-- A step of a writer, or a rotation. -/
def Action.Unflushed : Action → Prop
  | .flush _ => False
  | .raise _ _ => False
  | _ => True

instance : (a : Action) → Decidable a.Unflushed
  | .flush _ | .raise _ _ => .isFalse not_false
  | .put _ _ _ | .delete _ _ | .batchPut _ _ _ | .write _ | .rotate => .isTrue trivial

/-- Records appended by one call, the writer that has still to apply them, and the
offset of the last one. -/
structure Block where
  records : List LogRecord
  writer : Option Nat
  offset : Nat

/-- The records of some blocks. -/
def allRecords (blocks : List Block) : List LogRecord := blocks.flatMap Block.records

/-- Those that have been applied. -/
def appliedRecords (blocks : List Block) : List LogRecord :=
  allRecords (blocks.filter fun b => b.writer.isNone)

/-- A block in front of another. -/
structure Block.Ahead (b b' : Block) : Prop where
  once : ∀ writer, b.writer = some writer → b'.writer ≠ some writer
  ordered : b.writer ≠ none → b'.writer = none → ¬ShareKey b.records b'.records
  offset : b.writer ≠ none → b'.writer ≠ none → b.offset < b'.offset

section Threads

variable [Zlib]

/-- The log consists of these blocks, and the memtable holds the applied ones. -/
structure LogInv (c : Config Wal) (blocks : List Block) : Prop where
  holds : c.engine.wal.Holds (allRecords blocks)
  synced : c.engine.wal.Synced
  pending : ∀ b ∈ blocks, ∀ writer, b.writer = some writer → (c.writers writer).unapplied = b.records ∧
    (c.writers writer).offset = b.offset ∧ b.offset < (encodeLog (allRecords blocks)).length
  nonempty : ∀ b ∈ blocks, b.writer ≠ none → b.records ≠ []
  known : ∀ writer, (c.writers writer).unapplied ≠ [] → ∃ b ∈ blocks, b.writer = some writer
  layer : c.engine.memtable.layer = logLayer (appliedRecords blocks)
  sorted : blocks.Pairwise Block.Ahead

/-- A writer without unapplied records owns no block. -/
theorem LogInv.no_block {c : Config Wal} {blocks : List Block} (h : LogInv c blocks) {writer : Nat}
    (hnil : (c.writers writer).unapplied = []) : ∀ b ∈ blocks, b.writer ≠ some writer := by
  intro b hb hwriter
  have := (h.pending b hb writer hwriter).1
  rw [hnil] at this
  exact h.nonempty b hb (by rw [hwriter]; simp) this.symm

/-- Steps that append nothing and apply nothing. -/
theorem LogInv.same {c c' : Config Wal} {blocks : List Block} (h : LogInv c blocks)
    (hholds : c'.engine.wal.Holds (allRecords blocks)) (hsynced : c'.engine.wal.Synced)
    (hlayer : c'.engine.memtable.layer = c.engine.memtable.layer)
    (hwriters : ∀ writer, c'.writers writer = c.writers writer ∨
      (c.writers writer).unapplied = [] ∧ (c'.writers writer).unapplied = []) : LogInv c' blocks := by
  refine ⟨hholds, hsynced, ?_, h.nonempty, ?_, hlayer.trans h.layer, h.sorted⟩
  · intro b hb writer hwriter
    rcases hwriters writer with heq | ⟨hnil, -⟩
    · rw [heq]
      exact h.pending b hb writer hwriter
    · exact absurd hwriter (h.no_block hnil b hb)
  · intro writer hne
    rcases hwriters writer with heq | ⟨-, hnil⟩
    · exact h.known writer (heq ▸ hne)
    · exact absurd hnil hne

omit [Zlib] in
theorem wrote_writers {c : Config Wal} {writer : Nat} (next : LSMStorageEngine Wal × WriterPc)
    (h : (c.writers writer).unapplied = []) (h' : next.2.unapplied = []) (other : Nat) :
    (c.wrote writer next).writers other = c.writers other ∨
      (c.writers other).unapplied = [] ∧ ((c.wrote writer next).writers other).unapplied = [] := by
  by_cases heq : other = writer
  · subst heq
    exact .inr ⟨h, by rwa [Config.writers_wrote]⟩
  · exact .inl (Function.update_of_ne heq ..)

omit [Zlib] in
theorem allRecords_append (blocks blocks' : List Block) :
    allRecords (blocks ++ blocks') = allRecords blocks ++ allRecords blocks' := List.flatMap_append

omit [Zlib] in
theorem allRecords_singleton (b : Block) : allRecords [b] = b.records := List.flatMap_singleton _ _

omit [Zlib] in
theorem appliedRecords_append (blocks blocks' : List Block) :
    appliedRecords (blocks ++ blocks') = appliedRecords blocks ++ appliedRecords blocks' := by
  rw [appliedRecords, List.filter_append, allRecords_append]
  rfl

omit [Zlib] in
theorem appliedRecords_pending {b : Block} (h : b.writer ≠ none) : appliedRecords [b] = [] := by
  rw [appliedRecords, List.filter_singleton, Option.isNone_eq_false_iff.mpr (Option.isSome_iff_ne_none.mpr h)]
  rfl

omit [Zlib] in
theorem appliedRecords_applied {b : Block} (h : b.writer = none) : appliedRecords [b] = b.records := by
  rw [appliedRecords, List.filter_singleton, h]
  exact allRecords_singleton b

omit [Zlib] in
/-- What is shared with the applied records is shared with a block. -/
theorem exists_block_of_shareKey {rs : List LogRecord} {blocks : List Block}
    (h : ShareKey rs (appliedRecords blocks)) : ∃ b ∈ blocks, b.writer = none ∧ ShareKey rs b.records := by
  obtain ⟨r, hr, r', hr', heq⟩ := h
  obtain ⟨b, hb, hmem⟩ := List.mem_flatMap.mp hr'
  obtain ⟨hb, hnone⟩ := List.mem_filter.mp hb
  exact ⟨b, hb, Option.isNone_iff_eq_none.mp hnone, r, hr, r', hmem, heq⟩

/-- An append makes a block of its own, behind all others. -/
theorem LogInv.append {c : Config Wal} {blocks : List Block} (h : LogInv c blocks) {writer : Nat}
    (hnil : (c.writers writer).unapplied = []) {rs : List LogRecord} (hne : rs ≠ []) (hfits : ∀ r ∈ rs, r.Fits)
    {pc : WriterPc} (hpc : pc.unapplied = rs)
    (hoffset : pc.offset = c.engine.wal.tell + (encodeLog rs.dropLast).length) :
    LogInv (c.wrote writer ({ c.engine with wal := c.engine.wal.written (encodeLog rs) }, pc))
      (blocks ++ [⟨rs, some writer, pc.offset⟩]) := by
  have hall : allRecords (blocks ++ [⟨rs, some writer, pc.offset⟩]) = allRecords blocks ++ rs := by
    rw [allRecords_append, allRecords_singleton]
  have htell := Wal.tell_eq h.holds h.synced
  -- the offset of a block is where its last record begins, inside the log
  have hlast : (encodeLog rs.dropLast).length < (encodeLog rs).length := by
    conv_rhs => rw [← List.dropLast_concat_getLast hne, encodeLog_append, List.length_append]
    have := List.length_pos_iff.mpr (encodeRecord_ne_nil (rs.getLast hne))
    rw [encodeLog_cons, encodeLog_nil, List.append_nil]
    omega
  have hno := h.no_block hnil
  refine ⟨?_, Wal.synced_written h.synced _, ?_, ?_, ?_, ?_, ?_⟩
  · rw [hall]
    exact Wal.holds_written h.holds h.synced hfits
  · intro b hb other hother
    rw [hall, encodeLog_append, List.length_append]
    rcases List.mem_append.mp hb with hb | hb
    · have hne' : other ≠ writer := fun heq => hno b hb (heq ▸ hother)
      obtain ⟨hrecords, hoffset, hlt⟩ := h.pending b hb other hother
      have hsame : (c.wrote writer ({ c.engine with wal := c.engine.wal.written (encodeLog rs) }, pc)).writers other =
          c.writers other := Function.update_of_ne hne' ..
      rw [hsame]
      exact ⟨hrecords, hoffset, by omega⟩
    · obtain rfl := List.mem_singleton.mp hb
      obtain rfl := Option.some.inj hother
      rw [Config.writers_wrote]
      refine ⟨hpc, rfl, ?_⟩
      show pc.offset < _
      omega
  · intro b hb hsome
    rcases List.mem_append.mp hb with hb | hb
    · exact h.nonempty b hb hsome
    · rw [List.mem_singleton.mp hb]
      exact hne
  · intro other hunapplied
    by_cases heq : other = writer
    · subst heq
      exact ⟨_, List.mem_append_right _ (List.mem_singleton_self _), rfl⟩
    · have hsame : (c.wrote writer ({ c.engine with wal := c.engine.wal.written (encodeLog rs) }, pc)).writers other =
          c.writers other := Function.update_of_ne heq ..
      rw [hsame] at hunapplied
      obtain ⟨b, hb, hwriter⟩ := h.known other hunapplied
      exact ⟨b, List.mem_append_left _ hb, hwriter⟩
  · rw [appliedRecords_append]
    exact h.layer.trans (congrArg logLayer (List.append_nil _).symm)
  · refine List.pairwise_append.mpr ⟨h.sorted, List.pairwise_singleton _ _, ?_⟩
    intro b hb b' hb'
    obtain rfl := List.mem_singleton.mp hb'
    refine ⟨?_, fun _ hnone => (nomatch hnone), ?_⟩
    · intro other hother heq
      exact hno b hb (Option.some.inj heq ▸ hother)
    · intro hsome _
      obtain ⟨other, hother⟩ := Option.ne_none_iff_exists'.mp hsome
      have := (h.pending b hb other hother).2.2
      show b.offset < pc.offset
      omega

/-- A writer that applies its block in log order. -/
theorem LogInv.apply {c : Config Wal} {blocks : List Block} (h : LogInv c blocks) {writer : Nat}
    (hne : (c.writers writer).unapplied ≠ []) (horder : InLogOrder c (.write writer))
    {next : LSMStorageEngine Wal × WriterPc} (hwal : next.1.wal = c.engine.wal)
    (hlayer : next.1.memtable.layer = above (logLayer (c.writers writer).unapplied) c.engine.memtable.layer)
    (hpc : next.2.unapplied = []) : ∃ blocks', LogInv (c.wrote writer next) blocks' := by
  obtain ⟨b, hb, hwriter⟩ := h.known writer hne
  have hrecords := (h.pending b hb writer hwriter).1
  obtain ⟨before, after, rfl⟩ := List.append_of_mem hb
  obtain ⟨hbefore, hcons, hahead⟩ := List.pairwise_append.mp h.sorted
  obtain ⟨hbehind, hafter⟩ := List.pairwise_cons.mp hcons
  have hpending : b.writer ≠ none := by rw [hwriter]; simp
  let b' : Block := { b with writer := none }
  have hall : allRecords (before ++ b' :: after) = allRecords (before ++ b :: after) := by
    rw [allRecords_append, allRecords_append]
    rfl
  -- all other blocks keep their writers, and these what they have to apply
  have hothers : ∀ x, x ∈ before ∨ x ∈ after → ∀ other, x.writer = some other → other ≠ writer ∧
      (c.wrote writer next).writers other = c.writers other := by
    intro x hx other hother
    have hne' : other ≠ writer := by
      rintro rfl
      rcases hx with hx | hx
      · exact (hahead x hx b List.mem_cons_self).once other hother hwriter
      · exact (hbehind x hx).once other hwriter hother
    exact ⟨hne', Function.update_of_ne hne' ..⟩
  have hmem : ∀ x ∈ before ++ b' :: after, x.writer ≠ none →
      (x ∈ before ∨ x ∈ after) ∧ x ∈ before ++ b :: after := by
    intro x hx hsome
    rcases List.mem_append.mp hx with hx | hx
    · exact ⟨.inl hx, List.mem_append_left _ hx⟩
    · rcases List.mem_cons.mp hx with rfl | hx
      · exact absurd rfl hsome
      · exact ⟨.inr hx, List.mem_append_right _ (List.mem_cons_of_mem _ hx)⟩
  refine ⟨before ++ b' :: after, ?_, ?_, ?_, ?_, ?_, ?_, ?_⟩
  · rw [hall, Config.engine_wrote, hwal]
    exact h.holds
  · rw [Config.engine_wrote, hwal]
    exact h.synced
  · intro x hx other hother
    obtain ⟨hside, hx⟩ := hmem x hx (by rw [hother]; simp)
    rw [hall, (hothers x hside other hother).2]
    exact h.pending x hx other hother
  · intro x hx hsome
    exact h.nonempty x (hmem x hx hsome).2 hsome
  · intro other hunapplied
    have hne' : other ≠ writer := by
      rintro rfl
      rw [Config.writers_wrote] at hunapplied
      exact hunapplied hpc
    rw [show (c.wrote writer next).writers other = c.writers other from Function.update_of_ne hne' ..] at hunapplied
    obtain ⟨x, hx, hother⟩ := h.known other hunapplied
    rcases List.mem_append.mp hx with hx | hx
    · exact ⟨x, List.mem_append_left _ hx, hother⟩
    · rcases List.mem_cons.mp hx with rfl | hx
      · exact absurd (Option.some.inj (hother.symm.trans hwriter)) hne'
      · exact ⟨x, List.mem_append_right _ (List.mem_cons_of_mem _ hx), hother⟩
  · -- nothing applied lies behind the block that shares a key with it
    have hshare : ¬ShareKey b.records (appliedRecords after) := by
      intro hshare
      obtain ⟨x, hx, hnone, hkey⟩ := exists_block_of_shareKey hshare
      exact (hbehind x hx).ordered hpending hnone hkey
    have hnow : appliedRecords (before ++ b' :: after) =
        appliedRecords before ++ b.records ++ appliedRecords after := by
      rw [← List.singleton_append, appliedRecords_append, appliedRecords_append, appliedRecords_applied rfl,
        List.append_assoc]
    have hold : appliedRecords (before ++ b :: after) = appliedRecords before ++ appliedRecords after := by
      rw [← List.singleton_append, appliedRecords_append, appliedRecords_append, appliedRecords_pending hpending,
        List.nil_append]
    rw [Config.engine_wrote, hlayer, hnow, logLayer_swap hshare, h.layer, hold, hrecords]
  · refine List.pairwise_append.mpr ⟨hbefore, List.pairwise_cons.mpr ⟨?_, hafter⟩, ?_⟩
    · intro x hx
      exact ⟨nofun, fun hnone => absurd rfl hnone, fun hnone => absurd rfl hnone⟩
    · intro x hx y hy
      rcases List.mem_cons.mp hy with rfl | hy
      · refine ⟨nofun, ?_, fun _ hnone => absurd rfl hnone⟩
        intro hsome _ hshare
        -- a writer in front that shares a key has the smaller offset
        obtain ⟨other, hother⟩ := Option.ne_none_iff_exists'.mp hsome
        obtain ⟨hother', hoffset, -⟩ := h.pending x (List.mem_append_left _ hx) other hother
        have hlt := (hahead x hx b List.mem_cons_self).offset hsome hpending
        have hshare' : ShareKey (c.writers writer).unapplied (c.writers other).unapplied := by
          obtain ⟨r, hr, r', hr', heq⟩ := hshare
          rw [hrecords, hother']
          exact ⟨r', hr', r, hr, heq.symm⟩
        have := horder other (hothers x (.inl hx) other hother).1 hshare'
        rw [(h.pending b hb writer hwriter).2.1, hoffset] at this
        omega
      · exact hahead x hx y (List.mem_cons_of_mem _ hy)

/-- Appending one record, or refusing it. -/
theorem logInv_append {c : Config Wal} {blocks : List Block} (h : LogInv c blocks) {writer : Nat}
    (hidle : c.writers writer = .idle) {r : LogRecord} {pc : WriterPc} (hpc : pc.unapplied = [r])
    (hoffset : pc.offset = c.engine.wal.tell) {next : LSMStorageEngine Wal × WriterPc}
    (haccepted : r.Fits → next = ({ c.engine with wal := c.engine.wal.written (encodeLog [r]) }, pc))
    (hrefused : ¬r.Fits → next = ({ c.engine with wal := c.engine.wal.opened }, .idle)) :
    ∃ blocks', LogInv (c.wrote writer next) blocks' := by
  have hnil : (c.writers writer).unapplied = [] := by rw [hidle]; rfl
  by_cases hfits : r.Fits
  · rw [haccepted hfits]
    exact ⟨_, h.append hnil (List.cons_ne_nil r []) (fun r' hr' => List.mem_singleton.mp hr' ▸ hfits) hpc hoffset⟩
  · rw [hrefused hfits]
    exact ⟨blocks, h.same h.holds.opened h.synced.opened rfl (wrote_writers _ hnil rfl)⟩

theorem logInv_put {c : Config Wal} {blocks : List Block} (h : LogInv c blocks) {writer : Nat}
    (hidle : c.writers writer = .idle) (key value : Bytes) :
    ∃ blocks', LogInv (c.wrote writer (Config.begin c.engine (.put writer key value))) blocks' := by
  have hrun : Log.append c.engine.wal OperationType.put key value = _ :=
    Wal.append_eq c.engine.wal ⟨OperationType.put, key, value⟩
  have hpc : (WriterPc.putLogged key value c.engine.wal.tell).unapplied = [⟨OperationType.put, key, value⟩] := rfl
  refine logInv_append h hidle hpc rfl ?_ ?_
  · intro hfits
    rw [Config.begin, hrun, if_pos hfits]
  · intro hfits
    rw [Config.begin, hrun, if_neg hfits]

theorem logInv_delete {c : Config Wal} {blocks : List Block} (h : LogInv c blocks) {writer : Nat}
    (hidle : c.writers writer = .idle) (key : Bytes) :
    ∃ blocks', LogInv (c.wrote writer (Config.begin c.engine (.delete writer key))) blocks' := by
  have hrun : Log.append c.engine.wal OperationType.delete key [] = _ :=
    Wal.append_eq c.engine.wal ⟨OperationType.delete, key, []⟩
  have hpc : (WriterPc.deleteLogged key c.engine.wal.tell).unapplied = [⟨OperationType.delete, key, []⟩] := rfl
  refine logInv_append h hidle hpc rfl ?_ ?_
  · intro hfits
    rw [Config.begin, hrun, if_pos hfits]
  · intro hfits
    rw [Config.begin, hrun, if_neg hfits]

/-- The step of a batch that appends. -/
theorem logInv_appendBatch {c : Config Wal} {blocks : List Block} (h : LogInv c blocks) {writer : Nat}
    {keys values : List Bytes} {inputSize : Int} (hpc : c.writers writer = .batchSizing keys values [] inputSize) :
    ∃ blocks', LogInv (c.wrote writer (Config.writeNext c.engine (c.writers writer))) blocks' := by
  have hnil : (c.writers writer).unapplied = [] := by rw [hpc]; rfl
  have hidle : ∀ {wal : Wal}, wal.Holds (allRecords blocks) → wal.Synced →
      LogInv (c.wrote writer ({ c.engine with wal := wal }, .idle)) blocks :=
    fun hholds hsynced => h.same hholds hsynced rfl (wrote_writers _ hnil rfl)
  rw [hpc, Config.writeNext]
  split
  · exact ⟨blocks, hidle h.holds h.synced⟩
  · have hrun : Log.appendBatch c.engine.wal OperationType.put keys values =
        c.engine.wal.appendBatch OperationType.put keys values := rfl
    by_cases hlen : keys.length = values.length
    · rw [hrun, Wal.appendBatch_eq _ _ hlen]
      dsimp only
      by_cases hkeys : keys = []
      · rw [if_pos hkeys]
        refine ⟨blocks, h.same h.holds.opened h.synced.opened rfl (wrote_writers _ hnil ?_)⟩
        rw [hkeys]
        rfl
      · rw [if_neg hkeys]
        by_cases hfits : ∀ r ∈ Wal.batchRecords OperationType.put keys values, r.Fits
        · rw [if_pos hfits]
          -- only a batch with records makes a block
          have hne : Wal.batchRecords OperationType.put keys values ≠ [] := by
            intro hnil
            have := congrArg List.length hnil
            simp only [Wal.batchRecords, List.length_map, List.length_zip, List.length_nil, ← hlen,
              Nat.min_self] at this
            exact hkeys (List.eq_nil_of_length_eq_zero this)
          exact ⟨_, h.append hnil hne hfits rfl rfl⟩
        · rw [if_neg hfits]
          exact ⟨blocks, hidle h.holds.opened h.synced.opened⟩
    · rw [hrun, Wal.appendBatch, if_pos hlen]
      exact ⟨blocks, hidle h.holds h.synced⟩

/-- **Every step** keeps log and memtable in line, if records are applied in log order. -/
theorem log_step {c : Config Wal} {blocks : List Block} (h : LogInv c blocks) {a : Action}
    (horder : InLogOrder c a) (hunflushed : a.Unflushed) : ∃ blocks', LogInv (Config.act c a) blocks' := by
  cases a with
  | put writer key value =>
    rw [Config.act]
    split
    · next hidle =>
      exact logInv_put h hidle key value
    · exact ⟨blocks, h⟩
  | delete writer key =>
    rw [Config.act]
    split
    · next hidle =>
      exact logInv_delete h hidle key
    · exact ⟨blocks, h⟩
  | batchPut writer keys values =>
    rw [Config.act]
    split
    · next hidle =>
      have hnil : (c.writers writer).unapplied = [] := by rw [hidle]; rfl
      rw [Config.begin]
      split <;> exact ⟨blocks, h.same h.holds h.synced rfl (wrote_writers _ hnil rfl)⟩
    · exact ⟨blocks, h⟩
  | write writer =>
    have hlayer := layer_writeNext c.engine (c.writers writer)
    rw [Config.act]
    cases hpc : c.writers writer with
    | putLogged key value offset | deleteLogged key offset =>
      rw [hpc] at hlayer
      exact h.apply (by rw [hpc]; exact List.cons_ne_nil _ _) horder rfl (by rw [hpc]; exact hlayer) rfl
    | batchLogged items inputSize lastOffset =>
      by_cases hitems : items = []
      · refine ⟨blocks, h.same h.holds h.synced ?_ (wrote_writers _ ?_ rfl)⟩
        · rw [Config.engine_wrote, ← hpc, hlayer, hpc, hitems]
          rfl
        · rw [hpc, hitems]
          rfl
      · refine h.apply ?_ horder rfl (by rw [← hpc]; exact hlayer) rfl
        rw [hpc, WriterPc.unapplied, Ne, List.map_eq_nil_iff]
        exact hitems
    | idle | deleteApplied key offset =>
      exact ⟨blocks, h.same h.holds h.synced rfl (wrote_writers _ (by rw [hpc]; rfl) rfl)⟩
    | batchSizing keys values rest inputSize =>
      cases rest with
      | cons item rest => exact ⟨blocks, h.same h.holds h.synced rfl (wrote_writers _ (by rw [hpc]; rfl) rfl)⟩
      | nil =>
        rw [← hpc]
        exact logInv_appendBatch h hpc
  | rotate =>
    exact ⟨blocks, h.same h.holds h.synced (MemTable.layer_rotateUnlocked _) fun _ => .inl rfl⟩
  | flush nowMs | raise nowMs content => exact hunflushed.elim

/-- **Replay agrees with memory.** An engine is started on any log, and any number of
threads write to it, without a flush, each applying its records in log order. Once all
have returned, a replay of the log gives every key the value it has in the memtable. -/
theorem replay_agrees (storagePath : Path) (memtableMaxSize : Int) (disk : NamedFile) (t : Tables)
    (rs : List LogRecord) (hdisk : disk.content.getD [] = encodeLog rs) (hfits : ∀ r ∈ rs, r.Fits)
    (actions : List Action) (hunflushed : ∀ a ∈ actions, a.Unflushed)
    (horder : Runs.Along Config.act InLogOrder (.start (started storagePath memtableMaxSize disk t rs)) actions)
    (hreturned : ∀ writer, (Runs.run Config.act (.start (started storagePath memtableMaxSize disk t rs))
      actions).writers writer = .idle) :
    ∃ m, replayWal (.init memtableMaxSize) (Runs.run Config.act
        (.start (started storagePath memtableMaxSize disk t rs)) actions).engine.wal = .ok m ∧
      ∀ key, m.get key = (Runs.run Config.act
        (.start (started storagePath memtableMaxSize disk t rs)) actions).engine.memtable.get key := by
  have hstart : ∃ blocks, LogInv (.start (started storagePath memtableMaxSize disk t rs)) blocks := by
    have hall : allRecords [⟨rs, none, 0⟩] = rs := allRecords_singleton _
    refine ⟨[⟨rs, none, 0⟩], ?_, Wal.synced_init disk, ?_, ?_, fun _ hne => absurd rfl hne, ?_,
      List.pairwise_singleton _ _⟩
    · rw [hall]
      exact Wal.holds_init hdisk hfits
    · intro b hb writer hwriter
      rw [List.mem_singleton.mp hb] at hwriter
      cases hwriter
    · intro b hb hsome
      rw [List.mem_singleton.mp hb] at hsome
      exact absurd rfl hsome
    · rw [appliedRecords_applied rfl]
      exact layer_replayed memtableMaxSize rs
  have hstep : ∀ (c : Config Wal) a, (∃ blocks, LogInv c blocks) → InLogOrder c a ∧ a.Unflushed →
      ∃ blocks, LogInv (Config.act c a) blocks := fun c a ⟨_, h⟩ ⟨ho, hu⟩ => log_step h ho hu
  obtain ⟨blocks, h⟩ := Runs.run_invariant hstep hstart (horder.and (Runs.along_of_forall hunflushed _))
  -- no block is in the hands of a writer any more
  have happlied : appliedRecords blocks = allRecords blocks := by
    rw [appliedRecords, List.filter_eq_self.mpr]
    intro b hb
    by_contra hsome
    have hpending : b.writer ≠ none := fun hnone => hsome (by rw [hnone]; rfl)
    obtain ⟨writer, hwriter⟩ := Option.ne_none_iff_exists'.mp hpending
    exact h.no_block (by rw [hreturned writer]; rfl) b hb hwriter
  refine ⟨replayed memtableMaxSize (allRecords blocks), ?_, ?_⟩
  · rw [replayWal, h.holds.replay]
    rfl
  · intro key
    rw [MemTable.get_eq_layer, MemTable.get_eq_layer, layer_replayed, h.layer, happlied]

end Threads

/-! ## Two writers of one key -/

/-- Both have logged their records when the first applies its own. -/
def twoPuts : List Action := [.put 0 [97] [49], .put 1 [97] [50], .write 0, .write 1]

/-- The second applies its record first: the log ends with its value, the memtable with
the other. -/
def crossedPuts : List Action := [.put 0 [97] [49], .put 1 [97] [50], .write 1, .write 0]

theorem returned_twoPuts (writer : Nat) :
    (Runs.run Config.act (.start (fresh "db" 1000)) twoPuts).writers writer = .idle := by
  match writer with
  | 0 | 1 => decide +kernel
  | n + 2 => rfl

theorem not_shareKey_idle {rs : List LogRecord} {pc : WriterPc} (h : pc = .idle) : ¬ShareKey rs pc.unapplied := by
  rintro ⟨-, -, r, hr, -⟩
  rw [h] at hr
  cases hr

theorem inLogOrder_twoPuts :
    Runs.Along Config.act InLogOrder (.start (fresh "db" 1000)) twoPuts := by
  refine ⟨trivial, trivial, ?_, ?_, trivial⟩
  · intro other hne hshare
    by_cases heq : other = 1
    · subst heq
      decide +kernel
    · have hidle : (Runs.run Config.act (.start (fresh "db" 1000)) (twoPuts.take 2)).writers other = .idle := by
        show Function.update _ _ _ _ = _
        rw [Function.update_of_ne heq]
        exact Function.update_of_ne hne ..
      exact absurd hshare (not_shareKey_idle hidle)
  · intro other hne hshare
    have hidle : (Runs.run Config.act (.start (fresh "db" 1000)) (twoPuts.take 3)).writers other = .idle := by
      by_cases heq : other = 0
      · subst heq
        decide +kernel
      · show Function.update _ _ _ _ = _
        rw [Function.update_of_ne heq]
        show Function.update _ _ _ _ = _
        rw [Function.update_of_ne hne]
        exact Function.update_of_ne heq ..
    exact absurd hshare (not_shareKey_idle hidle)

theorem replay_agrees_twoPuts :
    ∃ m, replayWal (.init 1000) (Runs.run Config.act (.start (started "db" 1000 .absent .fresh []))
        twoPuts).engine.wal = .ok m ∧
      ∀ key, m.get key = (Runs.run Config.act (.start (started "db" 1000 .absent .fresh []))
        twoPuts).engine.memtable.get key :=
  replay_agrees "db" 1000 .absent .fresh [] rfl nofun twoPuts (by decide) inLogOrder_twoPuts returned_twoPuts

/-- After a restart the other writer has won. -/
theorem replay_agrees_fails :
    ¬ ∀ (storagePath : Path) (memtableMaxSize : Int) (actions : List Action),
      (∀ a ∈ actions, a.Unflushed) →
      (∀ writer, (Runs.run Config.act (.start (fresh storagePath memtableMaxSize)) actions).writers writer =
        .idle) →
      ∃ m, replayWal (.init memtableMaxSize)
          (Runs.run Config.act (.start (fresh storagePath memtableMaxSize)) actions).engine.wal = .ok m ∧
        ∀ key, m.get key =
          (Runs.run Config.act (.start (fresh storagePath memtableMaxSize)) actions).engine.memtable.get key := by
  intro h
  obtain ⟨m, hreplay, hagrees⟩ := h "db" 1000 crossedPuts (by decide) fun writer => by
    match writer with
    | 0 | 1 => decide +kernel
    | n + 2 => rfl
  have hmemory := hagrees [97]
  have hreplayed : (replayWal (.init 1000) (Runs.run Config.act (.start (fresh "db" 1000))
      crossedPuts).engine.wal).toOption.map (fun m => m.get [97]) = some (some [50]) := by
    decide +kernel
  rw [hreplay] at hreplayed
  obtain hlogged : m.get [97] = some [50] := Option.some.inj hreplayed
  rw [hlogged] at hmemory
  revert hmemory
  decide +kernel

end LSMStorageEngine

end Logvine
