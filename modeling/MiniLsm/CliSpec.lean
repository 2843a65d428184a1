import MiniLsm.Cli
import MiniLsm.Sizes

/-!
# What the command line does

What the program is for is a dictionary for each directory, of which one is open (`Dictionaries`).
Whatever the two threads do between one another, the program prints what the dictionaries have, and
the next program on the same directories finds them as they were (`Cli.run_output`).
-/

namespace MiniLsm

open LsmStorageInner Cursor

/-! ## What the program is for -/

/-- A dictionary for each directory, and which one is open. -/
structure Dictionaries (δ : Type) where
  entries : δ → List (Bytes × Bytes)
  current : Option δ

namespace Dictionaries

/-- What a command does to the dictionary that is open, and what is printed. -/
def execDb (es : List (Bytes × Bytes)) : DbCommand → List (Bytes × Bytes) × Bytes
  | .put none => (es, Cli.usage "put <k> <v>")
  | .put (some (k, v)) => (Assoc.insert k v es, Cli.ok)
  | .get none => (es, Cli.usage "get <k>")
  | .get (some k) => (es, Cli.shown ((Assoc.lookup k es).getD []))
  | .delete none => (es, Cli.usage "delete <k>")
  | .delete (some k) => (es.filter fun e => e.1 ≠ k, Cli.ok)
  | .scan none => (es, Cli.usage "scan <lower> <upper>")
  | .scan (some (l, u)) =>
    (es, ((es.filter fun e => (lowerBound l).above e.1 && (upperBound u).below e.1).flatMap fun e =>
      Cli.row e.1 e.2) ++ Cli.ok)
  | .flush => (es, Cli.ok)
  | .compact => (es, Cli.ok)

variable {δ : Type} [DecidableEq δ]

/-- What a command does, and what is printed. -/
def exec (resolve : Bytes → δ) (d : Dictionaries δ) : Command → Dictionaries δ × Bytes
  | .quit => ({ d with current := none }, [])
  | .open none => (d, Cli.usage "open <path>")
  | .open (some path) => ({ d with current := some (resolve path) }, Cli.ok)
  | .unknown cmd => (d, ascii "Unknown command: " ++ cmd ++ ascii "\n")
  | .db cmd =>
    match d.current with
    | none => (d, Cli.notOpened)
    | some dir =>
      ({ d with entries := Function.update d.entries dir (execDb (d.entries dir) cmd).1 },
        (execDb (d.entries dir) cmd).2)

/-- A command on the open directory. -/
theorem exec_db_of_current (resolve : Bytes → δ) {d : Dictionaries δ} {dir : δ}
    (h : d.current = some dir) (cmd : DbCommand) : d.exec resolve (.db cmd) =
      ({ d with entries := Function.update d.entries dir (execDb (d.entries dir) cmd).1 },
        (execDb (d.entries dir) cmd).2) := by
  obtain ⟨entries, current⟩ := d
  cases h
  rfl

/-- What the lines do, up to the one that quits, and what is printed. -/
def run (resolve : Bytes → δ) (d : Dictionaries δ) : List Bytes → Dictionaries δ × Bytes
  | [] => ({ d with current := none }, [])
  | line :: lines =>
    if line.isEmpty then d.run resolve lines
    else if Command.parse line = .quit then ({ d with current := none }, [])
    else
      let r := d.exec resolve (.parse line)
      ((r.1.run resolve lines).1, r.2 ++ (r.1.run resolve lines).2)

end Dictionaries

/-! ## Commands that can be stored -/

/-- The tables and logs can store the entry of a command. -/
def DbCommand.Fits : DbCommand → Prop
  | .put (some (k, v)) => k.length ≤ 65535 ∧ v.length ≤ 65535
  | .delete (some k) => k.length ≤ 65535
  | _ => True

/-- The entries of a command fit the formats. -/
def Command.Fits : Command → Prop
  | .db cmd => cmd.Fits
  | _ => True

/-- Whether they do can be computed. -/
instance : DecidablePred DbCommand.Fits
  | .put (some (k, v)) => inferInstanceAs (Decidable (k.length ≤ 65535 ∧ v.length ≤ 65535))
  | .delete (some k) => inferInstanceAs (Decidable (k.length ≤ 65535))
  | .put none => isTrue trivial
  | .delete none => isTrue trivial
  | .get _ => isTrue trivial
  | .scan _ => isTrue trivial
  | .flush => isTrue trivial
  | .compact => isTrue trivial

/-- So can it be for any command. -/
instance : DecidablePred Command.Fits
  | .db cmd => inferInstanceAs (Decidable cmd.Fits)
  | .quit => isTrue trivial
  | .open _ => isTrue trivial
  | .unknown _ => isTrue trivial

/-! ## Stores with entries -/

namespace Cli

variable {M δ : Type} {E : Extern} {io : ManifestIO M} {log : M → List ManifestRecord}
  {c c' : Machine M Unit} {es es' : List (Bytes × Bytes)} {disk : Disk M}

/-- The entries are a dictionary of the values that are read. -/
structure Shows (E : Extern) (s : LsmStorageInner M) (es : List (Bytes × Bytes)) : Prop where
  sorted : Assoc.Sorted es
  value_ne : ∀ e ∈ es, e.2 ≠ []
  view : ∀ k, s.state.view E k = (Assoc.lookup k es).getD []

/-- A store of the program has the entries. -/
structure Serves (E : Extern) (log : M → List ManifestRecord) (c : Machine M Unit)
    (es : List (Bytes × Bytes)) : Prop where
  session : c.Session E log options
  sound : c.Sound
  weighed : c.store.Weighed E
  shows : Shows E c.store es

/-- A directory without a store has the entries: it is new, or a store has been closed there. -/
def Stored (E : Extern) (io : ManifestIO M) (log : M → List ManifestRecord) (disk : Disk M)
    (es : List (Bytes × Bytes)) : Prop :=
  (disk = Disk.empty ∧ es = []) ∨
    ∃ c, Serves E log c es ∧ c.calls () = none ∧ disk = c.store.shutdown E io

/-- What a store shows depends on its reads only. -/
theorem Shows.congr {s s' : LsmStorageInner M} (h : Shows E s es)
    (hview : ∀ k, s'.state.view E k = s.state.view E k) : Shows E s' es :=
  ⟨h.sorted, h.value_ne, fun k => (hview k).trans (h.view k)⟩

/-- The options of the program have a plain controller. -/
theorem options_plain : options.compaction_options.Plain := trivial

/-- An operation on a store that has entries. -/
theorem Serves.op (h : Serves E log c es) (hE : E.Bounded) (hio : io.Lawful log) {op : Op Unit}
    (hs : op.Storable) (hstep : c.step E io op = some c')
    (hsorted : Assoc.Sorted es') (hne : ∀ e ∈ es', e.2 ≠ [])
    (hes : ∀ k, (Assoc.lookup k es').getD [] = (op.written k).getD ((Assoc.lookup k es).getD [])) :
    Serves E log c' es' := by
  have hc := h.session
  have hp : c.store.options.compaction_options.Plain := by
    rw [hc.options_eq]
    exact options_plain
  have hw := hc.op_weighed hE h.weighed hs hstep
  refine ⟨?_, h.sound.step hc.inv hp hstep hw.small, hw, hsorted, hne, fun k => ?_⟩
  · exact hc.op hio options_plain.valid hs (fun t ht => (generateTask_sound hp ht).2 t rfl)
      (hc.appends_of_plain options_plain op) hstep hw.small
  · rw [Machine.step_view hc.inv h.sound (hc.current.serial op) hstep hw.small, hes, h.shows.view]

/-- An operation that writes nothing. -/
theorem Serves.op_of_written (h : Serves E log c es) (hE : E.Bounded) (hio : io.Lawful log)
    {op : Op Unit} (hs : op.Storable) (hno : ∀ k, op.written k = none)
    (hstep : c.step E io op = some c') : Serves E log c' es :=
  h.op hE hio hs hstep h.shows.sorted h.shows.value_ne fun k => by rw [hno]; rfl

/-- A flush changes no entries. -/
theorem Serves.flush (h : Serves E log c es) (hE : E.Bounded) (hio : io.Lawful log) :
    Serves E log { c with store := (c.store.forceFlushNextImmMemtable E io).2 } es :=
  h.op_of_written hE hio (show (Op.flush : Op Unit).Storable from trivial) (fun _ => rfl) rfl

/-- `sync` changes no entry. -/
theorem Serves.sync (h : Serves E log c es) :
    Serves E log { c with store := c.store.sync } es := by
  refine ⟨h.session.sync, h.sound, h.weighed.sync h.session.inv.store, h.shows.congr fun k => ?_⟩
  rw [LsmStorageState.view_eq, LsmStorageState.view_eq, sync_memtables]
  rfl

/-- The program has logs, which `close` passes on. -/
theorem Serves.close (h : Serves E log c es) :
    Serves E log { c with store := (c.store.close E io).2 } es := by
  rw [close_of_wal (by rw [h.session.options_eq]; rfl)]
  exact h.sync

/-- A new directory, or one in which a store has been closed, can be opened. -/
theorem Stored.open (h : Stored E io log disk es) (hE : E.Bounded) (hio : io.Lawful log) :
    ∃ t, LsmStorageInner.open E io disk options = .ok t ∧ Serves E log ⟨t, fun _ => none⟩ es := by
  rcases h with ⟨rfl, rfl⟩ | ⟨c, hc, hidle, rfl⟩
  · refine ⟨openFresh io Disk.empty options, rfl, ?_, by simp [Machine.Sound], ?_, ?_⟩
    · exact Machine.Session.start hio (by decide) options_plain.valid
    · exact Machine.start_weighed E io (by decide)
    · exact ⟨List.Pairwise.nil, by simp, fun k => openFresh_view io Disk.empty options k⟩
  · have hsmall := hc.session.closesSmall hE hio hc.weighed.toLight
    obtain ⟨-, -, -, t, -, -, hopen, -, hview, ht⟩ := hc.session.restart hio hsmall
    have hw := hc.session.restart_weighed hE hio hc.weighed hopen
    rw [hc.session.options_eq] at hopen
    exact ⟨t, hopen, ht, by simp [Machine.Sound], hw, hc.shows.congr hview⟩

/-! ## Commands on a store -/

variable {s : LsmStorageInner M}

/-- The entries of a store are the non-empty values. -/
theorem Shows.mem_iff (h : Shows E s es) {k v : Bytes} :
    (k, v) ∈ es ↔ s.state.view E k = v ∧ v ≠ [] := by
  rw [h.view, ← Assoc.lookup_eq_some_iff h.sorted]
  constructor
  · intro hv
    rw [hv]
    exact ⟨rfl, h.value_ne _ (Assoc.mem_of_lookup hv)⟩
  · rintro ⟨hv, hne⟩
    rcases hl : Assoc.lookup k es with _ | w
    · rw [hl] at hv
      exact absurd hv.symm hne
    · rw [hl] at hv
      exact congrArg some hv

/-- The loop of `scan` prints what its iterator yields. -/
theorem printLoop_yields {ι : Type} [Cursor ι Bytes Bytes Error] {n : ℕ} {it : ι}
    {l : List (Bytes × Bytes)} (hy : Yields it l) (hn : l.length < n) :
    printLoop n it = (l.flatMap fun e => row e.1 e.2, none) := by
  induction n generalizing it l with
  | zero => simp at hn
  | succ n ih =>
    unfold printLoop
    rcases l with _ | ⟨e, l⟩
    · rw [if_neg (by simp [hy.isValid_nil])]
      rfl
    · obtain ⟨hv, hkey, hval, -, it', hnext, hy'⟩ := hy.isValid_cons
      rw [if_pos hv, hnext, hkey, hval]
      dsimp only
      rw [ih hy' (by simpa using hn)]
      rfl

/-- Texts are printed one after the other. -/
theorem print_print (c : Cli M δ) (text text' : Bytes) :
    (c.print text).print text' = c.print (text ++ text') := by
  unfold print
  dsimp only
  rw [List.append_assoc]

/-- A scan prints the entries within its bounds. -/
theorem printScan_eq (hs : s.state.Readable E) (h : Shows E s es) (c : Cli M δ) (l u : Bytes) :
    c.printScan E s l u = c.print (Dictionaries.execDb es (.scan (some (l, u)))).2 := by
  obtain ⟨it, hit, ls, hy, hls, hmem⟩ := scan_spec hs (lowerBound l) (upperBound u)
  have heq : ls = es.filter fun e => (lowerBound l).above e.1 && (upperBound u).below e.1 := by
    refine Assoc.ext_of_lookup hls (List.Pairwise.filter _ h.sorted) fun k => Option.ext fun v => ?_
    rw [Assoc.lookup_eq_some_iff hls, Assoc.lookup_eq_some_iff (List.Pairwise.filter _ h.sorted),
      hmem, List.mem_filter, h.mem_iff, Bool.and_eq_true]
    tauto
  have hlen := hy.length_le
  unfold printScan
  rw [hit]
  dsimp only
  rw [printLoop_yields hy (by omega), heq]
  exact print_print c _ ok

/-- How far the main thread is from the end of its compaction. -/
def phase (c : Machine M Unit) : ℕ :=
  match c.calls () with
  | none => 0
  | some call => if call.sstables.isNone then 2 else 1

/-- What is printed at the end of the compaction in flight. -/
def owed (c : Machine M Unit) : Bytes := if phase c = 0 then [] else ok

/-- A thread that is idle is before its first step. -/
theorem phase_of_idle (h : c.calls () = none) : phase c = 0 := by
  unfold phase
  rw [h]

/-- A thread that is idle owes no steps. -/
theorem owed_of_idle (h : c.calls () = none) : owed c = [] := if_pos (phase_of_idle h)

/-- What a step of the main thread does to the store that is open: the entries it has then, and what
is printed, with what the compaction still owes. -/
def Did (E : Extern) (log : M → List ManifestRecord) (c : Cli M δ) (db : Db M δ)
    (es : List (Bytes × Bytes)) (text : Bytes) (c' : Cli M δ) : Prop :=
  ∃ machine printed, c' = { c with
    db := some { db with machine := machine }
    output := c.output ++ printed } ∧ Serves E log machine es ∧ printed ++ owed machine = text ∧
    phase machine ≤ 2 ∧ (phase db.machine ≠ 0 → phase machine < phase db.machine)

/-- A command that only prints. -/
theorem Did.print {c : Cli M δ} {db : Db M δ} (hdb : c.db = some db)
    (hs : Serves E log db.machine es) (hidle : db.machine.calls () = none) (text : Bytes) :
    Did E log c db es text (c.print text) := by
  refine ⟨db.machine, text, ?_, hs, by rw [owed_of_idle hidle, List.append_nil], ?_, ?_⟩
  · unfold Cli.print
    rw [← hdb]
  · rw [phase_of_idle hidle]
    exact Nat.zero_le _
  · exact fun hne => absurd (phase_of_idle hidle) hne

/-- A command that changes the store. -/
theorem Did.withStore {c : Cli M δ} {db : Db M δ} {s : LsmStorageInner M}
    (hs : Serves E log { db.machine with store := s } es)
    (hidle : db.machine.calls () = none) (text : Bytes) :
    Did E log c db es text ((c.withStore db s).print text) := by
  have hidle' : ({ db.machine with store := s } : Machine M Unit).calls () = none := hidle
  refine ⟨_, text, rfl, hs, by rw [owed_of_idle hidle', List.append_nil], ?_, ?_⟩
  · rw [phase_of_idle hidle']
    exact Nat.zero_le _
  · exact fun hne => absurd (phase_of_idle hidle) hne

/-- A command does to the store what it does to the dictionary. -/
theorem execDb_spec (hE : E.Bounded) (hio : io.Lawful log) {c : Cli M δ} {db : Db M δ}
    (hdb : c.db = some db) (h : Serves E log db.machine es) (hidle : db.machine.calls () = none)
    {cmd : DbCommand} (hw : cmd.Words) (hf : cmd.Fits) :
    ∃ c', c.execDb E io db cmd = some c' ∧
      Did E log c db (Dictionaries.execDb es cmd).1 (Dictionaries.execDb es cmd).2 c' := by
  have hread := h.session.inv.store.readable
  cases cmd with
  | put entry =>
    rcases entry with _ | ⟨k, v⟩
    · exact ⟨_, rfl, .print hdb h hidle _⟩
    · refine ⟨_, rfl, .withStore ?_ hidle _⟩
      refine h.op hE hio (show (Op.put k v : Op Unit).Storable from ⟨hw.1, hf⟩) rfl
        (h.shows.sorted.insert k v) (fun e he => ?_) fun q => ?_
      · rcases Assoc.mem_insert he with rfl | he
        · exact hw.2
        · exact h.shows.value_ne e he
      · change (Assoc.lookup q (Assoc.insert k v es)).getD [] = _
        rw [Assoc.lookup_insert k q v h.shows.sorted, Op.written]
        split_ifs <;> rfl
  | get key =>
    rcases key with _ | k
    · exact ⟨_, rfl, .print hdb h hidle _⟩
    · have hget := get_spec hread k
      rw [h.shows.view] at hget
      refine ⟨_, ?_, .print hdb h hidle _⟩
      rw [execDb, hget]
      rfl
  | delete key =>
    rcases key with _ | k
    · exact ⟨_, rfl, .print hdb h hidle _⟩
    · refine ⟨_, rfl, .withStore ?_ hidle _⟩
      refine h.op hE hio (show (Op.del k : Op Unit).Storable from ⟨hw, hf, by simp⟩) rfl
        (List.Pairwise.filter _ h.shows.sorted)
        (fun e he => h.shows.value_ne e (List.mem_of_mem_filter he)) fun q => ?_
      -- A `del` writes the empty value, which the dictionary does not have.
      change (Assoc.lookup q (es.filter fun e => decide (e.1 ≠ k))).getD [] = _
      rw [Assoc.lookup_filter q _ h.shows.sorted, Op.written]
      by_cases hq : q = k
      · rw [if_pos hq.symm]
        simp [hq]
      · rw [if_neg (Ne.symm hq)]
        rcases Assoc.lookup q es with _ | v
        · rfl
        · simp [Option.filter, hq]
  | scan bounds =>
    rcases bounds with _ | ⟨l, u⟩
    · exact ⟨_, rfl, .print hdb h hidle _⟩
    · refine ⟨_, rfl, ?_⟩
      rw [printScan_eq hread h.shows]
      exact .print hdb h hidle _
  | flush =>
    have hs := h.flush hE hio
    -- The memtables are small, so that the flush does not throw.
    have hok : (db.machine.store.forceFlushNextImmMemtable E io).1 = .ok () := by
      by_cases himm : db.machine.store.state.imm_memtables = []
      · rw [flush_of_imm_nil E io himm]
      · exact (flush_spec h.session.inv.store himm hs.weighed.small).1
    refine ⟨_, ?_, .withStore hs hidle _⟩
    rw [execDb, hok]
    rfl
  | compact =>
    -- The command only begins the compaction: `OK` is printed behind its last step.
    have hfull : db.machine.store.fullTask =
        .ok ⟨db.machine.store.state.l0_sstables, db.machine.store.state.levelIds 0⟩ := by
      unfold fullTask
      rw [h.session.options_eq, if_neg (by simp [options])]
    obtain ⟨machine, hbegin⟩ : ∃ machine, db.machine.begin () (some (.forceFull
        ⟨db.machine.store.state.l0_sstables, db.machine.store.state.levelIds 0⟩)) = some machine := by
      unfold Machine.begin
      rw [hidle]
      exact ⟨_, rfl⟩
    have hstep : db.machine.step E io (.full ()) = some machine := by
      rw [Machine.step, hfull]
      exact hbegin
    refine ⟨_, ?_, machine, [], rfl, ?_, ?_, ?_, ?_⟩
    · rw [execDb, beginCompaction, hfull]
      dsimp only
      rw [hbegin, List.append_nil]
      rfl
    · exact h.op_of_written hE hio (show (Op.full () : Op Unit).Storable from trivial)
        (fun _ => rfl) hstep
    all_goals
      obtain ⟨-, t, -, rfl⟩ := Machine.begin_eq_some hbegin
    · rfl
    · exact le_rfl
    · exact fun hne => absurd (phase_of_idle hidle) hne

/-- The steps of a compaction owe their output, and then print it. -/
theorem compactStep_spec (hE : E.Bounded) (hio : io.Lawful log) (c : Cli M δ) {db : Db M δ}
    (h : Serves E log db.machine es) {call : Call} (hcall : db.machine.calls () = some call) :
    Did E log c db es ok (c.compactStep E io db call) := by
  have hinv := h.session.inv
  rcases hts : call.sstables with _ | ts
  · have hstep : db.machine.step E io (.compact ()) = some (db.machine.compactStep E () call) := by
      rw [Machine.step, hcall]
      exact if_pos (by rw [hts]; rfl)
    have hs := h.op_of_written hE hio (show (Op.compact () : Op Unit).Storable from trivial)
      (fun _ => rfl) hstep
    -- The tables of the task can be read, so that writing the new ones does not throw.
    have hok := hinv.calls () call hcall (h.session.current () call hcall)
    obtain ⟨ts, hcompact, -⟩ := hok.compact hinv.store hs.weighed.small
    have hcalls : (db.machine.compactStep E () call).calls () =
        some { call with sstables := some ts } := by
      simp only [Machine.compactStep, hcompact, Function.update_self]
      rfl
    have hphase : phase (db.machine.compactStep E () call) = 1 := by
      rw [phase, hcalls]
      rfl
    refine ⟨_, [], ?_, hs, ?_, by omega, fun _ => ?_⟩
    · rw [compactStep, hts]
      dsimp only
      rw [hcompact, List.append_nil]
    · rw [owed, hphase]
      rfl
    · rw [hphase, phase, hcall]
      dsimp only
      rw [hts]
      decide
  · have hstep : db.machine.step E io (.apply ()) =
        some (db.machine.applyStep io () call ts) := by
      rw [Machine.step, hcall]
      dsimp only
      rw [hts, Option.map_some]
    have hs := h.op_of_written hE hio (show (Op.apply () : Op Unit).Storable from trivial)
      (fun _ => rfl) hstep
    have hidle : (db.machine.applyStep io () call ts).calls () = none := by
      simp [Machine.applyStep]
    -- The compaction is over, and what was owed is printed.
    refine ⟨_, ok, ?_, hs, by rw [owed_of_idle hidle, List.append_nil], ?_, fun hne => ?_⟩
    · rw [compactStep, hts]
      rfl
    · rw [phase_of_idle hidle]
      exact Nat.zero_le _
    · rw [phase_of_idle hidle]
      exact Nat.pos_of_ne_zero hne

/-- A flush in progress, which is waited for, changes no entry. -/
theorem Serves.join {db : Db M δ} (h : Serves E log db.machine es) (hE : E.Bounded)
    (hio : io.Lawful log) : Serves E log { db.machine with store := join E io db } es := by
  unfold Cli.join
  split_ifs
  · exact h.flush hE hio
  · exact h

/-! ## The program as dictionaries -/

/-- The store that is open has the entries of the dictionary that is, and the other directories have
those of theirs. -/
structure Simulates (E : Extern) (io : ManifestIO M) (log : M → List ManifestRecord) (c : Cli M δ)
    (d : Dictionaries δ) : Prop where
  current : c.db.map Db.dir = d.current
  serves : ∀ db, c.db = some db → Serves E log db.machine (d.entries db.dir)
  stored : ∀ dir, d.current ≠ some dir → Stored E io log (c.dirs dir) (d.entries dir)

/-- There is no compaction in flight. -/
def Idle (c : Cli M δ) : Prop := ∀ db, c.db = some db → db.machine.calls () = none

/-- What the compaction in flight has yet to print. -/
def pending (c : Cli M δ) : Bytes := c.db.elim [] fun db => owed db.machine

/-- A bound on the steps that the main thread has yet to take. -/
def work (c : Cli M δ) : ℕ :=
  3 * c.input.length + (c.db.elim 0 fun db => phase db.machine) + if c.running then 1 else 0

/-- An idle program has nothing to print. -/
theorem Idle.pending_eq {c : Cli M δ} (h : c.Idle) : c.pending = [] := by
  unfold pending
  rcases hdb : c.db with _ | db
  · rfl
  · exact owed_of_idle (h db hdb)

variable {c c' : Cli M δ} {d : Dictionaries δ} {db : Db M δ} {resolve : Bytes → δ}

/-- Printing changes no store. -/
theorem Simulates.print (h : c.Simulates E io log d) (text : Bytes) :
    (c.print text).Simulates E io log d :=
  ⟨h.current, h.serves, h.stored⟩

/-- A store that is closed, while it is not destroyed. -/
theorem Simulates.closed (h : c.Simulates E io log d) (hE : E.Bounded) (hio : io.Lawful log) :
    Simulates E io log { c with db := c.db.map (Cli.close E io) } d := by
  refine ⟨?_, fun db hdb => ?_, h.stored⟩
  · rw [← h.current]
    rcases c.db with _ | db <;> rfl
  · obtain ⟨db', hdb', rfl⟩ := Option.map_eq_some_iff.mp hdb
    exact ((h.serves db' hdb').join hE hio).close

/-- Closing leaves the program idle. -/
theorem Idle.closed (h : c.Idle) : Idle { c with db := c.db.map (Cli.close E io) } := by
  intro db hdb
  obtain ⟨db', hdb', rfl⟩ := Option.map_eq_some_iff.mp hdb
  exact h db' hdb'

variable [DecidableEq δ]

/-- What is done to the store that is open is done to its dictionary. -/
theorem Simulates.withMachine (h : c.Simulates E io log d) (hdb : c.db = some db)
    {machine : Machine M Unit} (hs : Serves E log machine es') (output : Bytes) :
    Simulates E io log
      { c with db := some { db with machine := machine }, output := output }
      { d with entries := Function.update d.entries db.dir es' } := by
  have hcur : some db.dir = d.current := by
    rw [← h.current, hdb]
    rfl
  refine ⟨hcur, ?_, fun dir hdir => ?_⟩
  · rintro db' hdb'
    cases hdb'
    dsimp only
    rw [Function.update_self]
    exact hs
  · have hne : dir ≠ db.dir := fun heq => hdir (by rw [heq]; exact hcur.symm)
    dsimp only
    rw [Function.update_of_ne hne]
    exact h.stored dir hdir

/-- The directories when the store that is open has been closed and destroyed. -/
theorem Simulates.released (h : c.Simulates E io log d) (hE : E.Bounded) (hio : io.Lawful log)
    (hidle : c.Idle) (dir : δ) : Stored E io log (c.released E io dir) (d.entries dir) := by
  unfold Cli.released
  rcases hdb : c.db with _ | db
  · refine h.stored dir ?_
    rw [← h.current, hdb]
    nofun
  · dsimp only
    by_cases hdir : dir = db.dir
    · rw [hdir, Function.update_self]
      exact .inr ⟨_, (h.serves db hdb).join hE hio, hidle db hdb, rfl⟩
    · rw [Function.update_of_ne hdir]
      refine h.stored dir ?_
      rw [← h.current, hdb]
      exact fun heq => hdir (Option.some.inj heq).symm

/-- At the end of the program no store is open. -/
theorem Simulates.finish (h : c.Simulates E io log d) (hE : E.Bounded) (hio : io.Lawful log)
    (hidle : c.Idle) : (c.finish E io).Simulates E io log { d with current := none } :=
  ⟨rfl, nofun, fun dir _ => h.released hE hio hidle dir⟩

/-- A directory that is not in use can be opened, and so can the one in use, where no frozen
memtable has writes in the buffer of its log. -/
theorem Simulates.openDb (h : c.Simulates E io log d) (hE : E.Bounded) (hio : io.Lawful log)
    (hidle : c.Idle) {dir : δ} (hbusy : c.busy E io dir = false) :
    ∃ c', c.openDb E io dir = some c' ∧
      c'.Simulates E io log { d with current := some dir } ∧ c'.Idle ∧
      c'.output = c.output ++ ok ∧ c'.input = c.input ∧ c'.running = c.running := by
  obtain ⟨t, hopen, ht⟩ := (h.released hE hio hidle dir).open hE hio
  refine ⟨Cli.print { c with
      dirs := c.released E io
      db := some ⟨dir, ⟨t, fun _ => none⟩, .waiting⟩ } ok, ?_,
    ⟨rfl, ?_, fun dir' _ => h.released hE hio hidle dir'⟩, ?_, rfl, rfl, rfl⟩
  · unfold Cli.openDb
    rw [hbusy, if_neg Bool.false_ne_true, hopen]
  · rintro db hdb
    cases hdb
    exact ht
  · rintro db hdb
    cases hdb
    rfl

/-- A step of the main thread that does not end the program: what becomes of the dictionaries, and
what is printed, with what the compaction still owes. -/
structure Goes (E : Extern) (io : ManifestIO M) (log : M → List ManifestRecord) (c : Cli M δ)
    (d' : Dictionaries δ) (text : Bytes) (c' : Cli M δ) : Prop where
  simulates : c'.Simulates E io log d'
  output : c'.output ++ c'.pending = c.output ++ text
  input : c'.input = c.input
  running : c'.running = c.running
  work : c'.work ≤ c.work + 2

omit [DecidableEq δ] in
/-- A line that only prints is read. -/
theorem Simulates.goes_print (h : c.Simulates E io log d) (hidle : c.Idle) (text : Bytes) :
    Goes E io log c d text (c.print text) := by
  refine ⟨h.print text, ?_, rfl, rfl, Nat.le_add_right _ _⟩
  rw [show (c.print text).pending = c.pending from rfl, hidle.pending_eq, List.append_nil]
  rfl

omit [DecidableEq δ] in
/-- The work of a program whose compaction is `n` steps from its end. -/
theorem work_of_db (hdb : c.db = some db) :
    c.work = 3 * c.input.length + phase db.machine + if c.running then 1 else 0 := by
  unfold work
  rw [hdb]
  rfl

/-- A line that works on the store is read. -/
theorem Simulates.goes_did (h : c.Simulates E io log d) (hdb : c.db = some db) {text : Bytes}
    (hdid : Did E log c db es' text c') :
    Goes E io log c { d with entries := Function.update d.entries db.dir es' } text c' ∧
      (phase db.machine ≠ 0 → c'.work < c.work) := by
  obtain ⟨machine, printed, rfl, hs, rfl, hle, hlt⟩ := hdid
  refine ⟨⟨h.withMachine hdb hs _, List.append_assoc _ _ _, rfl, rfl, ?_⟩, fun hne => ?_⟩
  all_goals rw [work_of_db hdb, work_of_db rfl]
  · dsimp only
    omega
  · have := hlt hne
    dsimp only
    omega

variable (resolve) in
/-- A command does what it does to the dictionaries. -/
theorem exec_spec (hE : E.Bounded) (hio : io.Lawful log) (h : c.Simulates E io log d)
    (hidle : c.Idle) {cmd : Command} (hw : ∀ cmd', cmd = .db cmd' → cmd'.Words) (hf : cmd.Fits)
    (hquit : cmd ≠ .quit)
    (hbusy : ∀ path, cmd = .open (some path) → c.busy E io (resolve path) = false) :
    ∃ c', c.exec E io resolve cmd = some c' ∧
      Goes E io log c (d.exec resolve cmd).1 (d.exec resolve cmd).2 c' := by
  cases cmd with
  | quit => exact absurd rfl hquit
  | «open» path =>
    rcases path with _ | path
    · exact ⟨_, rfl, h.goes_print hidle _⟩
    · obtain ⟨c', heq, hsim, hidle', hout, hin, hrun⟩ := h.openDb hE hio hidle (hbusy path rfl)
      refine ⟨c', heq, hsim, by rw [hidle'.pending_eq, List.append_nil, hout]; rfl, hin, hrun, ?_⟩
      have hphase : ∀ c : Cli M δ, c.Idle → (c.db.elim 0 fun db => phase db.machine) = 0 := by
        intro c hc
        rcases hdb : c.db with _ | db
        · rfl
        · exact phase_of_idle (hc db hdb)
      unfold work
      rw [hphase c hidle, hphase c' hidle', hin, hrun]
      exact Nat.le_add_right _ _
  | unknown cmd => exact ⟨_, rfl, h.goes_print hidle _⟩
  | db cmd =>
    have hcur := h.current
    rcases hdb : c.db with _ | db
    · rw [hdb] at hcur
      refine ⟨c.print notOpened, ?_, ?_⟩
      · rw [exec, hdb]
      · rw [Dictionaries.exec, ← hcur]
        exact h.goes_print hidle _
    · rw [hdb] at hcur
      obtain ⟨c', heq, hdid⟩ := execDb_spec hE hio hdb (h.serves db hdb) (hidle db hdb) (hw cmd rfl) hf
      refine ⟨c', ?_, ?_⟩
      · rw [exec, hdb]
        exact heq
      · rw [Dictionaries.exec_db_of_current resolve hcur.symm]
        exact (h.goes_did hdb hdid).1

/-- What the rest of the input does to the dictionaries, and what it prints. -/
def rest (resolve : Bytes → δ) (c : Cli M δ) (d : Dictionaries δ) : Dictionaries δ × Bytes :=
  if c.running then d.run resolve c.input else (d, [])

/-- The next line opens the directory in use, and the logs of its frozen memtables have not been
passed on. -/
def Blocked (E : Extern) (io : ManifestIO M) (resolve : Bytes → δ) (c : Cli M δ) : Prop :=
  ∃ line input path, c.input = line :: input ∧ Command.parse line = .open (some path) ∧
    c.busy E io (resolve path) = true

/-- A step of the main thread keeps what will have been printed, and what will be in the
directories. -/
structure Keeps (E : Extern) (io : ManifestIO M) (log : M → List ManifestRecord)
    (resolve : Bytes → δ) (c : Cli M δ) (d : Dictionaries δ) (c' : Cli M δ) (d' : Dictionaries δ) :
    Prop where
  simulates : c'.Simulates E io log d'
  halted : c'.running = false → c'.db = none
  input : ∀ line ∈ c'.input, line ∈ c.input
  work : c'.work < c.work
  entries : (rest resolve c' d').1 = (rest resolve c d).1
  output : c'.output ++ c'.pending ++ (rest resolve c' d').2 =
    c.output ++ c.pending ++ (rest resolve c d).2

/-- The end of the program, at the end of the input or where a line quits. -/
theorem Keeps.finish (hE : E.Bounded) (hio : io.Lawful log) (hrun : c.running = true)
    (hidle : c.Idle) (h' : c'.Simulates E io log d) (hidle' : c'.Idle) (hout : c'.output = c.output)
    (hin : ∀ line ∈ c'.input, line ∈ c.input)
    (hlen : c'.input.length ≤ c.input.length)
    (heq : d.run resolve c.input = ({ d with current := none }, [])) :
    Keeps E io log resolve c d (c'.finish E io) { d with current := none } := by
  have hrest : rest resolve c d = d.run resolve c.input := if_pos hrun
  refine ⟨h'.finish hE hio hidle', fun _ => rfl, hin, ?_, by rw [hrest, heq]; rfl, ?_⟩
  · unfold Cli.work
    rw [hrun, show (c'.finish E io).input = c'.input from rfl]
    change 3 * c'.input.length + 0 + 0 < _ + 1
    omega
  · rw [hrest, heq, hidle.pending_eq, show (c'.finish E io).output = c'.output from rfl, hout]
    rfl

/-- A line that does not end the program. -/
theorem Keeps.line (hrun : c.running = true) (hidle : c.Idle) {line : Bytes} {input : List Bytes}
    (hinput : c.input = line :: input) {d' : Dictionaries δ} {text : Bytes}
    (hgoes : Goes E io log { c with input := input } d' text c')
    (heq : d.run resolve c.input = ((d'.run resolve input).1, text ++ (d'.run resolve input).2)) :
    Keeps E io log resolve c d c' d' := by
  have hrest : rest resolve c d = d.run resolve c.input := if_pos hrun
  have hrun' : c'.running = true := hgoes.running.trans hrun
  have hrest' : rest resolve c' d' = d'.run resolve input := by
    unfold rest
    rw [hrun', if_pos rfl, hgoes.input]
  refine ⟨hgoes.simulates, fun hoff => ?_, ?_, ?_, by rw [hrest, hrest', heq], ?_⟩
  · rw [hrun'] at hoff
    cases hoff
  · rw [hgoes.input, hinput]
    exact fun l hl => List.mem_cons_of_mem _ hl
  · have hle := hgoes.work
    unfold Cli.work at hle ⊢
    rw [hinput, List.length_cons]
    dsimp only at hle
    omega
  · rw [hrest, hrest', heq, hidle.pending_eq, hgoes.output, List.append_nil, List.append_assoc]

/-- The main thread reads a line. It cannot go on where the line is `Blocked`. -/
theorem readLine_spec (hE : E.Bounded) (hio : io.Lawful log) (h : c.Simulates E io log d)
    (hrun : c.running = true) (hidle : c.Idle)
    (hfits : ∀ line ∈ c.input, (Command.parse line).Fits) :
    (c.readLine E io resolve = none ∧ c.Blocked E io resolve) ∨
      ∃ c' d', c.readLine E io resolve = some c' ∧ Keeps E io log resolve c d c' d' := by
  unfold readLine
  rcases hinput : c.input with _ | ⟨line, input⟩
  -- At the end of the input the program stops and its store is destroyed.
  · exact .inr ⟨_, _, rfl, .finish hE hio hrun hidle h hidle rfl (fun _ hl => hl) le_rfl
      (by rw [hinput]; rfl)⟩
  · rw [hinput, List.forall_mem_cons] at hfits
    have h₁ : Simulates E io log { c with input := input } d := ⟨h.current, h.serves, h.stored⟩
    have hidle₁ : Idle { c with input := input } := hidle
    have hmem : ∀ l ∈ input, l ∈ c.input := fun l hl => by
      rw [hinput]
      exact List.mem_cons_of_mem _ hl
    dsimp only
    -- An empty line is skipped, and `quit` closes the store. A directory that is busy blocks
    -- `open`.
    split_ifs with hempty
    · have hgoes : Goes E io log { c with input := input } d [] { c with input := input } :=
        ⟨h₁, by rw [hidle₁.pending_eq], rfl, rfl, Nat.le_add_right _ _⟩
      refine .inr ⟨_, d, rfl, .line hrun hidle hinput hgoes ?_⟩
      rw [hinput, Dictionaries.run, if_pos hempty]
      rfl
    · by_cases hquit : Command.parse line = .quit
      · rw [hquit]
        refine .inr ⟨_, _, rfl, .finish hE hio hrun hidle (h₁.closed hE hio) hidle₁.closed rfl hmem
          ?_ ?_⟩
        · rw [hinput]
          exact Nat.le_succ _
        · rw [hinput, Dictionaries.run, if_neg hempty, if_pos hquit]
      · by_cases hbusy : ∃ path, Command.parse line = .open (some path) ∧
          c.busy E io (resolve path) = true
        · obtain ⟨path, hparse, hbusy⟩ := hbusy
          refine .inl ⟨?_, line, input, path, hinput, hparse, hbusy⟩
          rw [hparse]
          exact if_pos hbusy
        · obtain ⟨c', heq, hgoes⟩ := exec_spec resolve hE hio h₁ hidle₁
            (fun _ hcmd => Command.parse_words hcmd) hfits.1 hquit fun path hparse =>
              Bool.eq_false_iff.mpr fun hb => hbusy ⟨path, hparse, hb⟩
          refine .inr ⟨c', _, heq, .line hrun hidle hinput hgoes ?_⟩
          rw [hinput, Dictionaries.run, if_neg hempty, if_neg hquit]

variable (resolve) in
/-- A step of the main thread: the next one of a compaction, or the next line. -/
theorem main_spec (hE : E.Bounded) (hio : io.Lawful log) (h : c.Simulates E io log d)
    (hrun : c.running = true) (hfits : ∀ line ∈ c.input, (Command.parse line).Fits) :
    (c.step E io resolve .main = none ∧ c.Blocked E io resolve) ∨
      ∃ c' d', c.step E io resolve .main = some c' ∧ Keeps E io log resolve c d c' d' := by
  unfold step
  dsimp only
  rw [if_pos hrun]
  rcases hcall : c.db.bind fun db => (db.machine.calls ()).map fun call => (db, call)
    with _ | ⟨db, call⟩
  · have hidle : c.Idle := by
      intro db hdb
      rw [hdb, Option.bind_some, Option.map_eq_none_iff] at hcall
      exact hcall
    exact readLine_spec hE hio h hrun hidle hfits
  · obtain ⟨db', hdb, hmap⟩ := Option.bind_eq_some_iff.mp hcall
    obtain ⟨call', hcall', heq⟩ := Option.map_eq_some_iff.mp hmap
    cases heq
    have hphase : phase db.machine ≠ 0 := by
      unfold phase
      rw [hcall']
      dsimp only
      split_ifs <;> decide
    obtain ⟨hgoes, hwork⟩ := h.goes_did hdb (compactStep_spec hE hio c (h.serves db hdb) hcall')
    rw [Function.update_eq_self] at hgoes
    have hrest : rest resolve (c.compactStep E io db call) d = rest resolve c d := by
      unfold rest
      rw [hgoes.input, hgoes.running]
    refine .inr ⟨_, d, rfl, hgoes.simulates, fun hoff => ?_, ?_, hwork hphase, by rw [hrest], ?_⟩
    · rw [hgoes.running, hrun] at hoff
      cases hoff
    · rw [hgoes.input]
      exact fun _ hl => hl
    · have hpending : c.pending = ok := by
        unfold pending
        rw [hdb]
        exact if_neg hphase
      rw [hrest, hgoes.output, hpending]

/-- The flush thread changes nothing that is printed. -/
theorem flush_spec (hE : E.Bounded) (hio : io.Lawful log) (h : c.Simulates E io log d)
    (hstep : c.step E io resolve .flush = some c') :
    c.db ≠ none ∧ c'.Simulates E io log d ∧ c'.output = c.output ∧ c'.pending = c.pending ∧
      c'.input = c.input ∧ c'.running = c.running ∧ c'.work = c.work := by
  unfold step at hstep
  rcases hdb : c.db with _ | db
  · rw [hdb] at hstep
    cases hstep
  · have hset : ∀ (s : LsmStorageInner M) (thread : FlushThread),
        Serves E log { db.machine with store := s } (d.entries db.dir) →
        let c' := { c with db := some ⟨db.dir, { db.machine with store := s }, thread⟩ }
        some db ≠ none ∧ c'.Simulates E io log d ∧ c'.output = c.output ∧ c'.pending = c.pending ∧
          c'.input = c.input ∧ c'.running = c.running ∧ c'.work = c.work := by
      intro s thread hs
      refine ⟨nofun, ⟨?_, ?_, h.stored⟩, rfl, ?_, rfl, rfl, ?_⟩
      · rw [← h.current, hdb]
        rfl
      · rintro db' hdb'
        cases hdb'
        exact hs
      · unfold pending
        rw [hdb]
        rfl
      · rw [work_of_db hdb, work_of_db rfl]
        rfl
    have hs := h.serves db hdb
    rw [hdb] at hstep
    dsimp only at hstep
    split at hstep
    · cases hstep
    · split_ifs at hstep
      · cases hstep
        exact hset db.machine.store .flushing hs
      · cases hstep
        exact ⟨nofun, h, rfl, rfl, rfl, rfl, rfl⟩
    · cases hstep
      exact hset _ .waiting (hs.flush hE hio)

/-! ## Runs -/

/-- What holds of the program while it runs, once the main thread has taken `n` steps. -/
structure Follows (E : Extern) (io : ManifestIO M) (log : M → List ManifestRecord)
    (resolve : Bytes → δ) (d₀ : Dictionaries δ) (lines : List Bytes) (n : ℕ) (c : Cli M δ)
    (d : Dictionaries δ) : Prop where
  simulates : c.Simulates E io log d
  halted : c.running = false → c.db = none
  fits : ∀ line ∈ c.input, (Command.parse line).Fits
  entries : (rest resolve c d).1 = (d₀.run resolve lines).1
  output : c.output ++ c.pending ++ (rest resolve c d).2 = (d₀.run resolve lines).2
  work : n + c.work ≤ 3 * lines.length + 1

/-- The program begins with its input unread. -/
theorem Follows.start {dirs : δ → Disk M} {entries : δ → List (Bytes × Bytes)} {stdin : Bytes}
    (hstored : ∀ dir, Stored E io log (dirs dir) (entries dir))
    (hfits : ∀ line ∈ getlines stdin, (Command.parse line).Fits) :
    Follows E io log resolve ⟨entries, none⟩ (getlines stdin) 0 (Cli.start dirs stdin)
      ⟨entries, none⟩ :=
  ⟨⟨rfl, nofun, fun dir _ => hstored dir⟩, nofun, hfits, rfl, rfl, by
    rw [Nat.zero_add]
    exact le_rfl⟩

/-- Each step of the main thread reads a line, and the others read none. -/
theorem Follows.step {d₀ : Dictionaries δ} {lines : List Bytes} {n : ℕ} {thread : CliThread}
    (h : Follows E io log resolve d₀ lines n c d) (hE : E.Bounded) (hio : io.Lawful log)
    (hstep : c.step E io resolve thread = some c') :
    ∃ d', Follows E io log resolve d₀ lines (n + [thread].count .main) c' d' := by
  have hw := h.work
  cases thread with
  | main =>
    have hrun : c.running = true := by
      by_contra hoff
      unfold Cli.step at hstep
      dsimp only at hstep
      rw [if_neg hoff] at hstep
      cases hstep
    -- A step of the main thread reads a line, or takes the compaction it is in further.
    rcases main_spec resolve hE hio h.simulates hrun h.fits with ⟨hnone, -⟩ | hsome
    · rw [hnone] at hstep
      cases hstep
    · obtain ⟨c₁, d', heq, hk⟩ := hsome
      obtain rfl := Option.some.inj (heq.symm.trans hstep)
      have hlt := hk.work
      refine ⟨d', hk.simulates, hk.halted, fun l hl => h.fits l (hk.input l hl),
        hk.entries.trans h.entries, hk.output.trans h.output, ?_⟩
      rw [List.count_singleton_self]
      omega
  | flush =>
    obtain ⟨hdb, hs, hout, hpending, hin, hrun, hwork⟩ := flush_spec hE hio h.simulates hstep
    -- A step of the flush thread reads nothing and prints nothing.
    have hrest : rest resolve c' d = rest resolve c d := by
      unfold rest
      rw [hrun, hin]
    refine ⟨d, hs, fun hoff => absurd (h.halted (hrun.symm.trans hoff)) hdb, ?_, ?_, ?_, ?_⟩
    · rw [hin]
      exact h.fits
    · rw [hrest]
      exact h.entries
    · rw [hrest, hout, hpending]
      exact h.output
    · rw [hwork]
      exact hw

/-- However the flush thread runs beside it, the program prints what the dictionaries of its
directories have, and leaves the directories with what the dictionaries become. The main thread can
go on until the input has ended, unless it is `Blocked`, and does so within three steps a line. -/
theorem run_output (hE : E.Bounded) (hio : io.Lawful log) {dirs : δ → Disk M}
    {entries : δ → List (Bytes × Bytes)} (hstored : ∀ dir, Stored E io log (dirs dir) (entries dir))
    {stdin : Bytes} (hfits : ∀ line ∈ getlines stdin, (Command.parse line).Fits)
    {threads : List CliThread}
    (h : Steps (Cli.step E io resolve) (fun _ _ => True) (Cli.start dirs stdin) threads c) :
    c.output <+: ((Dictionaries.mk entries none).run resolve (getlines stdin)).2 ∧
      (c.running = false →
        c.output = ((Dictionaries.mk entries none).run resolve (getlines stdin)).2 ∧
        ∀ dir, Stored E io log (c.dirs dir)
          (((Dictionaries.mk entries none).run resolve (getlines stdin)).1.entries dir)) ∧
      (c.running = true → (c.step E io resolve .main).isSome = true ∨ c.Blocked E io resolve) ∧
      threads.count .main ≤ 3 * (getlines stdin).length + 1 := by
  have hfollows : ∃ d, Follows E io log resolve ⟨entries, none⟩ (getlines stdin)
      (threads.count .main) c d := by
    -- By induction on the steps: what is printed, what is owed and what the rest of the input
    -- prints is together what the dictionaries print.
    induction h with
    | refl => exact ⟨_, .start hstored hfits⟩
    | snoc _ _ hstep ih =>
      obtain ⟨d, hd⟩ := ih
      obtain ⟨d', hd'⟩ := hd.step hE hio hstep
      rw [← List.count_append] at hd'
      exact ⟨d', hd'⟩
  obtain ⟨d, hd⟩ := hfollows
  have hwork := hd.work
  refine ⟨?_, fun hoff => ?_, fun hrun => ?_, by omega⟩
  · rw [← hd.output, List.append_assoc]
    exact List.prefix_append _ _
  -- A program that has stopped owes nothing, and has no rest.
  · have hdb := hd.halted hoff
    have hpending : c.pending = [] := by
      unfold pending
      rw [hdb]
      rfl
    have hrest : rest resolve c d = (d, []) := if_neg (by simp [hoff])
    have hentries := hd.entries
    have houtput := hd.output
    rw [hrest] at hentries houtput
    rw [hpending, List.append_nil, List.append_nil] at houtput
    refine ⟨houtput, fun dir => ?_⟩
    rw [← hentries]
    refine hd.simulates.stored dir ?_
    rw [← hd.simulates.current, hdb]
    nofun
  · rcases main_spec resolve hE hio hd.simulates hrun hd.fits with ⟨-, hb⟩ | hsome
    · exact .inr hb
    · obtain ⟨c', -, heq, -⟩ := hsome
      rw [heq]
      exact .inl rfl

/-- A program that writes to two directories, and compacts one of them. -/
def firstInput : Bytes :=
  ascii "open a\nput k v\n\nput j w\ncompact\ndelete j\nopen b\nput k x\nquit\n"

/-- The next program. -/
def secondInput : Bytes := ascii "get k\nopen a\nget k\nget j\nscan * l"

/-- The flush thread steps within the compaction. -/
def firstThreads : List CliThread :=
  [.main, .main, .flush, .main, .main, .main, .flush, .main, .flush, .main, .main, .main, .main,
    .main]

/-- The threads that take the steps of the second program. -/
def secondThreads : List CliThread := [.main, .main, .main, .flush, .main, .main, .main]

/-- Two programs, one after the other, on the same directories. -/
theorem run_output_two_programs :
    ∃ c c' : Cli (List ManifestRecord) Bytes,
      Steps (Cli.step .lib .list id) (fun _ _ => True) (Cli.start (fun _ => Disk.empty) firstInput)
        firstThreads c ∧
      Steps (Cli.step .lib .list id) (fun _ _ => True) (Cli.start c.dirs secondInput)
        secondThreads c' ∧
      c.output = ascii "OK\nOK\nOK\nOK\nOK\nOK\nOK\n" ∧
      c'.output = notOpened ++ ascii "OK\nv\n(not found)\nk v\nOK\n" := by
  have hexec : ((Steps.exec (Cli.step .lib .list id) (fun _ _ => true)
      (Cli.start (fun _ => Disk.empty) firstInput : Cli (List ManifestRecord) Bytes)
      firstThreads).any fun c => !c.running && (Steps.exec (Cli.step .lib .list id) (fun _ _ => true)
        (Cli.start c.dirs secondInput) secondThreads).any fun c' => !c'.running) = true := by
    decide +kernel
  rcases h₁ : Steps.exec (Cli.step .lib .list id) (fun _ _ => true)
    (Cli.start (fun _ => Disk.empty) firstInput : Cli (List ManifestRecord) Bytes) firstThreads with
    _ | c
  · rw [h₁] at hexec
    cases hexec
  · rw [h₁, Option.any_some, Bool.and_eq_true, Bool.not_eq_true'] at hexec
    obtain ⟨hoff, hexec⟩ := hexec
    have hrun : Steps (Cli.step .lib .list id) (fun _ _ => True)
        (Cli.start (fun _ => Disk.empty) firstInput) firstThreads c :=
      Steps.append_exec (fun _ _ _ => trivial) .refl h₁
    obtain ⟨c', hrun', hoff'⟩ := Steps.of_exec (P := fun _ _ => True) (fun _ _ _ => trivial) hexec
    obtain ⟨-, hend, -⟩ := run_output Extern.lib_bounded ManifestIO.list_lawful
      (fun _ => .inl ⟨rfl, rfl⟩) (by decide +kernel) hrun
    obtain ⟨hout, hstored⟩ := hend hoff
    obtain ⟨-, hend', -⟩ := run_output Extern.lib_bounded ManifestIO.list_lawful hstored
      (by decide +kernel) hrun'
    rw [Bool.not_eq_true'] at hoff'
    refine ⟨c, c', hrun, hrun', hout.trans (by decide +kernel), (hend' hoff').1.trans ?_⟩
    decide +kernel

end Cli

end MiniLsm
