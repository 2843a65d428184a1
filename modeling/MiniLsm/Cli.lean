import MiniLsm.Sessions

/-!
# The command line

`main` of `bin/mini_lsm_cli.cpp`, which reads commands from the standard input and runs them on a
store, beside the thread of the store that flushes. A step is one of the main thread or of the flush
thread. A full compaction takes the main thread several steps, between which the other thread may
flush. The compaction thread does not run, since the options have no controller.

What is read of a line is what its words are (`Command.parse_eq`), and commands that are written one
a line are read as they are (`Command.read_written`).
-/

namespace MiniLsm

open LsmStorageInner Cursor

/-! ## The input -/

/-- The bytes of a text. -/
def ascii (s : String) : Bytes := s.toList.map fun c => c.toNat.toUInt8

/-- `isspace` in the C locale -/
def isspace (b : UInt8) : Bool := b == 32 || (decide (9 ≤ b) && decide (b ≤ 13))

/-- `operator>>` of a stream into a string: the next word, and what is behind it. -/
def nextWord (iss : Bytes) : Option (Bytes × Bytes) :=
  match iss.dropWhile isspace with
  | [] => none
  | iss => some (iss.takeWhile fun b => !isspace b, iss.dropWhile fun b => !isspace b)

/-- What the calls of `std::getline` return, until one fails: the lines, the last of which may have
no newline. -/
def getlines : Bytes → List Bytes
  | [] => []
  | b :: input =>
    if b = 10 then [] :: getlines input
    else
      match getlines input with
      | [] => [[b]]
      | line :: lines => (b :: line) :: lines

/-- The commands on a store that is open. Of an argument that is missing there is none. -/
inductive DbCommand where
  | put (entry : Option (Bytes × Bytes))
  | get (key : Option Bytes)
  | delete (key : Option Bytes)
  | scan (bounds : Option (Bytes × Bytes))
  | flush
  | compact
  deriving DecidableEq

/-- A line, as the branches of `main` read it. -/
inductive Command where
  | quit
  | «open» (path : Option Bytes)
  | db (cmd : DbCommand)
  | unknown (cmd : Bytes)
  deriving DecidableEq

namespace Command

/-- `iss >> k` -/
def oneWord (iss : Bytes) : Option Bytes := (nextWord iss).map Prod.fst

/-- `iss >> k >> v` -/
def twoWords (iss : Bytes) : Option (Bytes × Bytes) := do
  let (k, iss) ← nextWord iss
  let (v, _) ← nextWord iss
  some (k, v)

/-- The command in a line, which is empty where the line is blank. -/
def parse (line : Bytes) : Command :=
  let (cmd, iss) := (nextWord line).getD ([], [])
  if cmd = ascii "quit" ∨ cmd = ascii "exit" then .quit
  else if cmd = ascii "open" then .open (oneWord iss)
  else if cmd = ascii "put" then .db (.put (twoWords iss))
  else if cmd = ascii "get" then .db (.get (oneWord iss))
  else if cmd = ascii "delete" then .db (.delete (oneWord iss))
  else if cmd = ascii "scan" then .db (.scan (twoWords iss))
  else if cmd = ascii "flush" then .db .flush
  else if cmd = ascii "compact" then .db .compact
  else .unknown cmd

end Command

/-- The bounds of a scan. -/
def lowerBound (l : Bytes) : Bound := if l = ascii "*" then .unbounded else .included l

/-- The upper bound is excluded. -/
def upperBound (u : Bytes) : Bound := if u = ascii "*" then .unbounded else .excluded u

/-! ## The program -/

/-- Where the flush thread of a store is. -/
inductive FlushThread where
  /-- It has not been started, or it has ended. -/
  | stopped
  /-- It has yet to look at the memtables. -/
  | waiting
  /-- `LsmStorageInner::trigger_flush` has found enough of them. -/
  | flushing
  deriving DecidableEq

/-- A store that the program has open, and its directory. The compaction in flight, if there is one,
is the main thread's. -/
structure Db (M δ : Type) where
  dir : δ
  machine : Machine M Unit
  flush_thread : FlushThread

/-- The program: the directories on the disk, where no store is open, what it has yet to read, and
what it has printed. -/
structure Cli (M δ : Type) where
  dirs : δ → Disk M
  db : Option (Db M δ)
  input : List Bytes
  output : Bytes
  running : Bool

/-- The two threads. -/
inductive CliThread where
  | main
  | flush
  deriving DecidableEq

namespace Cli

/-- The options of the program. -/
def options : LsmStorageOptions := { enable_wal := true }

/-- `what` of an exception -/
def what : Error → Bytes
  | .runtimeError text => ascii text
  | .undefined text => ascii text

/-- What is printed where an argument is missing. -/
def usage (text : String) : Bytes := ascii "Usage: " ++ ascii text ++ ascii "\n"

/-- What is printed where no store is open. -/
def notOpened : Bytes := ascii "Error: DB not opened. Run 'open <path>' first.\n"

/-- What is printed where a command has been carried out. -/
def ok : Bytes := ascii "OK\n"

/-- What a `get` prints. -/
def shown (value : Bytes) : Bytes :=
  if value.isEmpty then ascii "(not found)\n" else value ++ ascii "\n"

/-- What a `scan` prints of an entry. -/
def row (key value : Bytes) : Bytes := key ++ ascii " " ++ value ++ ascii "\n"

variable {M δ : Type}

/-- `std::cout` -/
def print (c : Cli M δ) (text : Bytes) : Cli M δ := { c with output := c.output ++ text }

/-- The branch of the exceptions. -/
def fail (c : Cli M δ) (e : Error) : Cli M δ :=
  c.print (ascii "Error: " ++ what e ++ ascii "\n")

/-- The store after an operation. -/
def withStore (c : Cli M δ) (db : Db M δ) (s : LsmStorageInner M) : Cli M δ :=
  { c with db := some { db with machine := { db.machine with store := s } } }

/-- The loop of `scan`, with a number of rounds: what it prints, and the exception that ends it. -/
def printLoop {ι : Type} [Cursor ι Bytes Bytes Error] : ℕ → ι → Bytes × Option Error
  | 0, _ => ([], some (.undefined "more moves than entries"))
  | n + 1, iter =>
    if Cursor.isValid iter then
      let line := row (Cursor.key iter) (Cursor.value iter)
      match Cursor.next iter with
      | .error e => (line, some e)
      | .ok iter => (line ++ (printLoop n iter).1, (printLoop n iter).2)
    else ([], none)

/-- The branch of `scan`. -/
def printScan (E : Extern) (c : Cli M δ) (s : LsmStorageInner M) (l u : Bytes) : Cli M δ :=
  match s.scan E (lowerBound l) (upperBound u) with
  | .error e => c.fail e
  | .ok iter =>
    match printLoop (Cursor.bound iter + 1) iter with
    | (text, none) => (c.print text).print ok
    | (text, some e) => (c.print text).fail e

/-- The store when its flush thread has ended. -/
def join (E : Extern) (io : ManifestIO M) (db : Db M δ) : LsmStorageInner M :=
  if db.flush_thread = .flushing then (db.machine.store.forceFlushNextImmMemtable E io).2
  else db.machine.store

/-- `MiniLsm::close` of the store that is open. -/
def close (E : Extern) (io : ManifestIO M) (db : Db M δ) : Db M δ :=
  { db with
    machine := { db.machine with store := ((join E io db).close E io).2 }
    flush_thread := .stopped }

/-- The directories when the store that is open has been closed and destroyed. -/
def released [DecidableEq δ] (E : Extern) (io : ManifestIO M) (c : Cli M δ) : δ → Disk M :=
  match c.db with
  | none => c.dirs
  | some db => Function.update c.dirs db.dir ((join E io db).shutdown E io)

/-- The directory is in use, and there are writes in the buffer of the log of a frozen memtable,
which `close` does not pass on. What the next `open` finds of them depends on the C library. -/
def busy [DecidableEq δ] (E : Extern) (io : ManifestIO M) (c : Cli M δ) (dir : δ) : Bool :=
  c.db.any fun db => decide (db.dir = dir) && !(join E io db).state.imm_memtables.all fun m =>
    m.wal.all fun w => w.buffered.isEmpty

/-- The branch of `open`. The store that was open is destroyed once the new one is. -/
def openDb [DecidableEq δ] (E : Extern) (io : ManifestIO M) (c : Cli M δ) (dir : δ) :
    Option (Cli M δ) :=
  if c.busy E io dir then none
  else
    match LsmStorageInner.open E io (c.released E io dir) options with
    | .ok s => some ({ c with
        dirs := c.released E io
        db := some ⟨dir, ⟨s, fun _ => none⟩, .waiting⟩ }.print ok)
    | .error e => some ({ c with db := c.db.map (close E io) }.fail e)

/-- The end of `main`. -/
def finish [DecidableEq δ] (E : Extern) (io : ManifestIO M) (c : Cli M δ) : Cli M δ :=
  { c with dirs := c.released E io, db := none, running := false }

/-- The beginning of `compact`. -/
def beginCompaction (c : Cli M δ) (db : Db M δ) : Option (Cli M δ) :=
  match db.machine.store.fullTask with
  | .error e => some (c.fail e)
  | .ok task => (db.machine.begin () (some (.forceFull task))).map fun machine =>
      { c with db := some { db with machine := machine } }

/-- The command on the store that is open. -/
def execDb (E : Extern) (io : ManifestIO M) (c : Cli M δ) (db : Db M δ) :
    DbCommand → Option (Cli M δ)
  | .put none => some (c.print (usage "put <k> <v>"))
  | .put (some (k, v)) => some ((c.withStore db (db.machine.store.put E io k v)).print ok)
  | .get none => some (c.print (usage "get <k>"))
  | .get (some k) =>
    match db.machine.store.get E k with
    | .error e => some (c.fail e)
    | .ok val => some (c.print (shown val))
  | .delete none => some (c.print (usage "delete <k>"))
  | .delete (some k) => some ((c.withStore db (db.machine.store.del E io k)).print ok)
  | .scan none => some (c.print (usage "scan <lower> <upper>"))
  | .scan (some (l, u)) => some (c.printScan E db.machine.store l u)
  | .flush =>
    let c' := c.withStore db (db.machine.store.forceFlushNextImmMemtable E io).2
    match (db.machine.store.forceFlushNextImmMemtable E io).1 with
    | .error e => some (c'.fail e)
    | .ok _ => some (c'.print ok)
  | .compact => c.beginCompaction db

/-- The branches of `main`. -/
def exec [DecidableEq δ] (E : Extern) (io : ManifestIO M) (resolve : Bytes → δ) (c : Cli M δ) :
    Command → Option (Cli M δ)
  | .quit => some ({ c with db := c.db.map (close E io) }.finish E io)
  | .open none => some (c.print (usage "open <path>"))
  | .open (some path) => c.openDb E io (resolve path)
  | .unknown cmd => some (c.print (ascii "Unknown command: " ++ cmd ++ ascii "\n"))
  | .db cmd =>
    match c.db with
    | none => some (c.print notOpened)
    | some db => c.execDb E io db cmd

/-- The next step of `force_full_compaction`. -/
def compactStep (E : Extern) (io : ManifestIO M) (c : Cli M δ) (db : Db M δ) (call : Call) :
    Cli M δ :=
  match call.sstables with
  | none =>
    let c' := { c with db := some { db with machine := db.machine.compactStep E () call } }
    match (db.machine.store.compact E call.task).1 with
    | .error e => c'.fail e
    | .ok _ => c'
  | some ts =>
    { c with db := some { db with machine := db.machine.applyStep io () call ts } }.print ok

/-- The loop of `main`, once it has done with the last line. -/
def readLine [DecidableEq δ] (E : Extern) (io : ManifestIO M) (resolve : Bytes → δ) (c : Cli M δ) :
    Option (Cli M δ) :=
  match c.input with
  | [] => some (c.finish E io)
  | line :: input =>
    if line.isEmpty then some { c with input := input }
    else { c with input := input }.exec E io resolve (.parse line)

/-- A step of the program. The path of an `open` names a directory. -/
def step [DecidableEq δ] (E : Extern) (io : ManifestIO M) (resolve : Bytes → δ) (c : Cli M δ) :
    CliThread → Option (Cli M δ)
  | .main =>
    if c.running then
      match c.db.bind fun db => (db.machine.calls ()).map fun call => (db, call) with
      | some (db, call) => some (c.compactStep E io db call)
      | none => c.readLine E io resolve
    else none
  | .flush =>
    match c.db with
    | none => none
    | some db =>
      match db.flush_thread with
      | .stopped => none
      | .waiting =>
        let s := db.machine.store
        if s.state.imm_memtables.length ≥ s.options.num_memtable_limit then
          some { c with db := some { db with flush_thread := .flushing } }
        else some c
      | .flushing =>
        some ({ c with db := some { db with
          machine := { db.machine with store := (db.machine.store.forceFlushNextImmMemtable E io).2 }
          flush_thread := .waiting } })

/-- The program at its start. -/
def start (dirs : δ → Disk M) (stdin : Bytes) : Cli M δ := ⟨dirs, none, getlines stdin, [], true⟩

end Cli

/-! ## Words -/

/-- The words of a line are its pieces between the blanks. -/
def words (line : Bytes) : List Bytes := (line.splitOnP isspace).filter fun w => !w.isEmpty

/-- A word has a character, and none of its characters is a blank. -/
def IsWord (w : Bytes) : Prop := w ≠ [] ∧ ∀ b ∈ w, isspace b = false

/-- Whether bytes are a word can be computed. -/
instance : DecidablePred IsWord := fun w =>
  inferInstanceAs (Decidable (w ≠ [] ∧ ∀ b ∈ w, isspace b = false))

/-- A blank in front does not matter. -/
theorem words_blank {b : UInt8} (hb : isspace b = true) (line : Bytes) :
    words (b :: line) = words line := by
  unfold words
  rw [List.splitOnP_cons_eq_if_modifyHead, if_pos hb]
  rfl

/-- A word ends at a blank, or at the end of the line. -/
theorem words_word {w : Bytes} (hw : IsWord w) {line : Bytes}
    (hline : ∀ b ∈ line.head?, isspace b = true) : words (w ++ line) = w :: words line := by
  obtain ⟨hne, hw⟩ := hw
  rcases line with _ | ⟨b, line⟩
  · unfold words
    rw [List.append_nil, List.splitOnP_eq_singleton hw]
    simp [hne]
  · have hb : isspace b = true := hline b rfl
    rw [words_blank hb]
    unfold words
    rw [List.splitOnP_append_cons_of_forall_mem hw b hb]
    simp [hne]

/-- Nor do any number of them. -/
theorem words_dropWhile (line : Bytes) : words (line.dropWhile isspace) = words line := by
  induction line with
  | nil => rfl
  | cons b line ih =>
    rw [List.dropWhile_cons]
    split_ifs with hb
    · rw [ih, words_blank hb]
    · rfl

/-- No word is empty. -/
theorem words_ne_nil {line w : Bytes} (h : w ∈ words line) : w ≠ [] := by
  have := (List.mem_filter.mp h).2
  rintro rfl
  cases this

/-- `operator>>` takes the first of the words, and leaves the others. -/
theorem nextWord_spec (iss : Bytes) : (words iss = [] ∧ nextWord iss = none) ∨
    ∃ w rest, nextWord iss = some (w, rest) ∧ words iss = w :: words rest := by
  unfold nextWord
  rw [← words_dropWhile]
  rcases hd : iss.dropWhile isspace with _ | ⟨b, bs⟩
  · exact .inl ⟨rfl, rfl⟩
  · refine .inr ⟨_, _, rfl, ?_⟩
    have hb : isspace b = false := by
      have := List.head_dropWhile_not isspace (show iss.dropWhile isspace ≠ [] by rw [hd]; simp)
      simpa [hd] using this
    have hword : IsWord ((b :: bs).takeWhile fun b => !isspace b) :=
      ⟨by simp [hb], fun b hb => by simpa using List.mem_takeWhile_imp hb⟩
    have hrest : ∀ b' ∈ ((b :: bs).dropWhile fun b => !isspace b).head?, isspace b' = true := by
      intro b' hb'
      have := List.head?_dropWhile_not (fun b => !isspace b) (b :: bs)
      rw [Option.mem_def.mp hb'] at this
      simpa using this
    rw [← words_word hword hrest, List.takeWhile_append_dropWhile]

/-- The first two of the words. -/
def firstTwo : List Bytes → Option (Bytes × Bytes)
  | k :: v :: _ => some (k, v)
  | _ => none

namespace Command

/-- The command that the words are. -/
def ofWords (ws : List Bytes) : Command :=
  let cmd := ws.headD []
  let args := ws.tail
  if cmd = ascii "quit" ∨ cmd = ascii "exit" then .quit
  else if cmd = ascii "open" then .open args.head?
  else if cmd = ascii "put" then .db (.put (firstTwo args))
  else if cmd = ascii "get" then .db (.get args.head?)
  else if cmd = ascii "delete" then .db (.delete args.head?)
  else if cmd = ascii "scan" then .db (.scan (firstTwo args))
  else if cmd = ascii "flush" then .db .flush
  else if cmd = ascii "compact" then .db .compact
  else .unknown cmd

/-- One argument is the first word. -/
theorem oneWord_eq (iss : Bytes) : oneWord iss = (words iss).head? := by
  unfold oneWord
  rcases nextWord_spec iss with ⟨hw, hn⟩ | ⟨k, rest, hn, hw⟩ <;> rw [hn, hw] <;> rfl

/-- Two arguments are the first two words. -/
theorem twoWords_eq (iss : Bytes) : twoWords iss = firstTwo (words iss) := by
  unfold twoWords
  rcases nextWord_spec iss with ⟨hw, hn⟩ | ⟨k, rest, hn, hw⟩
  · rw [hn, hw]
    rfl
  · rw [hn, hw, Option.bind_eq_bind, Option.bind_some]
    dsimp only
    rcases nextWord_spec rest with ⟨hw, hn⟩ | ⟨v, rest', hn, hw⟩ <;> rw [hn, hw] <;> rfl

/-- What is read of a line is what its words are. -/
theorem parse_eq (line : Bytes) : parse line = ofWords (words line) := by
  unfold parse ofWords
  rcases nextWord_spec line with ⟨hw, hn⟩ | ⟨cmd, rest, hn, hw⟩
  · rw [hn, hw]
    rfl
  · rw [hn, hw, Option.getD_some]
    dsimp only [List.headD_cons, List.tail_cons]
    rw [oneWord_eq, twoWords_eq]

end Command

/-- The arguments of a command are words. -/
def DbCommand.Words : DbCommand → Prop
  | .put (some (k, v)) => k ≠ [] ∧ v ≠ []
  | .delete (some k) => k ≠ []
  | _ => True

/-- What is read as an argument is a word. -/
theorem Command.parse_words {line : Bytes} {cmd : DbCommand} (h : Command.parse line = .db cmd) :
    cmd.Words := by
  have hargs : ∀ w ∈ (words line).tail, w ≠ [] := fun w hw =>
    words_ne_nil (List.mem_of_mem_tail hw)
  rw [parse_eq] at h
  unfold ofWords at h
  generalize (words line).tail = args at h hargs
  dsimp only at h
  split_ifs at h
  all_goals
    cases h
    try exact trivial
  · rcases args with _ | ⟨k, _ | ⟨v, args⟩⟩
    · exact trivial
    · exact trivial
    · exact ⟨hargs k (by simp), hargs v (by simp)⟩
  · rcases args with _ | ⟨k, args⟩
    · exact trivial
    · exact hargs k (by simp)

/-! ## Scripts -/

/-- The words of a command. -/
def DbCommand.spelling : DbCommand → List Bytes
  | .put none => [ascii "put"]
  | .put (some (k, v)) => [ascii "put", k, v]
  | .get key => ascii "get" :: key.toList
  | .delete key => ascii "delete" :: key.toList
  | .scan none => [ascii "scan"]
  | .scan (some (l, u)) => [ascii "scan", l, u]
  | .flush => [ascii "flush"]
  | .compact => [ascii "compact"]

namespace Command

/-- The words of a line that is written. -/
def spelling : Command → List Bytes
  | .quit => [ascii "quit"]
  | .open path => ascii "open" :: path.toList
  | .db cmd => cmd.spelling
  | .unknown cmd => [cmd]

/-- No argument is missing. -/
def complete : Command → Bool
  | .open path => path.isSome
  | .db (.put entry) => entry.isSome
  | .db (.get key) => key.isSome
  | .db (.delete key) => key.isSome
  | .db (.scan bounds) => bounds.isSome
  | _ => true

/-- The names of the commands. -/
def names : List Bytes :=
  ["quit", "exit", "open", "put", "get", "delete", "scan", "flush", "compact"].map ascii

/-- The words of the command are words, of which an unknown one is none of the names. -/
structure WellFormed (cmd : Command) : Prop where
  isWord : ∀ w ∈ cmd.spelling, IsWord w
  unknown : ∀ name, cmd = .unknown name → name ∉ names

/-- The words in which a command is written. `exit` is another name of `quit`. -/
def Spelled (cmd : Command) (ws : List Bytes) : Prop :=
  ws = cmd.spelling ∨ cmd = .quit ∧ ws = [ascii "exit"]

/-- A line in which the command is written, with any blanks. What is behind its last argument is not
read. -/
def Written (cmd : Command) (line : Bytes) : Prop :=
  10 ∉ line ∧ ∃ ws more, cmd.Spelled ws ∧ words line = ws ++ more ∧
    (more = [] ∨ cmd.complete = true)

/-- The command with a blank between its words. -/
def render (cmd : Command) : Bytes := [32].intercalate cmd.spelling

/-- The words of a command are read as the command, where words behind them are not looked at. -/
theorem ofWords_spelling {cmd : Command} (h : cmd.WellFormed) {more : List Bytes}
    (hmore : more = [] ∨ cmd.complete = true) : ofWords (cmd.spelling ++ more) = cmd := by
  have hnone : cmd.complete = false → more = [] := fun hc => by simpa [hc] using hmore
  match cmd with
  | .quit => rfl
  | .open (some _) | .db (.put (some _)) | .db (.get (some _)) | .db (.delete (some _))
  | .db (.scan (some _)) | .db .flush | .db .compact => rfl
  | .open none | .db (.put none) | .db (.get none) | .db (.delete none) | .db (.scan none) =>
    rw [hnone rfl]
    rfl
  | .unknown cmd =>
    have hname := h.unknown cmd rfl
    simp only [names, List.map_cons, List.map_nil, List.mem_cons, List.not_mem_nil, or_false,
      not_or] at hname
    obtain ⟨h₁, h₂, h₃, h₄, h₅, h₆, h₇, h₈, h₉⟩ := hname
    simp [ofWords, spelling, h₁, h₂, h₃, h₄, h₅, h₆, h₇, h₈, h₉]

/-- The other spelling is read as the same command. -/
theorem ofWords_spelled {cmd : Command} (h : cmd.WellFormed) {ws more : List Bytes}
    (hws : cmd.Spelled ws) (hmore : more = [] ∨ cmd.complete = true) :
    ofWords (ws ++ more) = cmd := by
  rcases hws with rfl | ⟨rfl, rfl⟩
  · exact ofWords_spelling h hmore
  · rfl

/-- A line in which the command is written is read as the command. -/
theorem parse_of_written {cmd : Command} (h : cmd.WellFormed) {line : Bytes}
    (hline : cmd.Written line) : parse line = cmd := by
  obtain ⟨-, ws, more, hws, hwords, hmore⟩ := hline
  rw [parse_eq, hwords, ofWords_spelled h hws hmore]

end Command

/-- Words with a blank between them are read as they are. -/
theorem words_intercalate {ws : List Bytes} (h : ∀ w ∈ ws, IsWord w) :
    words ([32].intercalate ws) = ws := by
  induction ws with
  | nil => rfl
  | cons w ws ih =>
    rw [List.forall_mem_cons] at h
    rcases ws with _ | ⟨w', ws⟩
    · have hw := words_word h.1 (show ∀ b ∈ ([] : Bytes).head?, isspace b = true by simp)
      rw [List.append_nil] at hw
      rw [List.intercalate_singleton, hw]
      rfl
    · rw [List.intercalate_cons_cons, List.append_assoc, words_word h.1 (by simp; decide),
        List.singleton_append, words_blank (by decide), ih h.2]

/-- They are on one line. -/
theorem newline_notMem_intercalate {ws : List Bytes} (h : ∀ w ∈ ws, IsWord w) :
    10 ∉ [32].intercalate ws := by
  induction ws with
  | nil => nofun
  | cons w ws ih =>
    rw [List.forall_mem_cons] at h
    have hw : 10 ∉ w := fun hmem => absurd (h.1.2 10 hmem) (by decide)
    rcases ws with _ | ⟨w', ws⟩
    · rw [List.intercalate_singleton]
      exact hw
    · rw [List.intercalate_cons_cons, List.mem_append, List.mem_append]
      rintro ((hmem | hmem) | hmem)
      · exact hw hmem
      · exact absurd hmem (by decide)
      · exact ih h.2 hmem

/-- A newline ends a line. -/
theorem getlines_append {line : Bytes} (h : 10 ∉ line) (input : Bytes) :
    getlines (line ++ 10 :: input) = line :: getlines input := by
  induction line with
  | nil => rfl
  | cons b line ih =>
    rw [List.mem_cons, not_or] at h
    rw [List.cons_append, getlines, if_neg (Ne.symm h.1), ih h.2]

/-- The last line may have no newline. -/
theorem getlines_last {line : Bytes} (h : 10 ∉ line) (hne : line ≠ []) : getlines line = [line] := by
  induction line with
  | nil => exact absurd rfl hne
  | cons b line ih =>
    rw [List.mem_cons, not_or] at h
    rw [getlines, if_neg (Ne.symm h.1)]
    rcases line with _ | ⟨b', line⟩
    · rfl
    · rw [ih h.2 (List.cons_ne_nil _ _)]

/-- Lines with a newline at the end of each are read as they are. -/
theorem getlines_flatMap {lines : List Bytes} (h : ∀ line ∈ lines, 10 ∉ line) :
    getlines (lines.flatMap fun line => line ++ [10]) = lines := by
  induction lines with
  | nil => rfl
  | cons line lines ih =>
    rw [List.forall_mem_cons] at h
    rw [List.flatMap_cons, List.append_assoc, List.singleton_append, getlines_append h.1, ih h.2]

/-- So are lines with a newline between them, when none of them is empty. -/
theorem getlines_intercalate {lines : List Bytes} (h : ∀ line ∈ lines, 10 ∉ line ∧ line ≠ []) :
    getlines ([10].intercalate lines) = lines := by
  induction lines with
  | nil => rfl
  | cons line lines ih =>
    rw [List.forall_mem_cons] at h
    rcases lines with _ | ⟨line', lines⟩
    · rw [List.intercalate_singleton, getlines_last h.1.1 h.1.2]
    · rw [List.intercalate_cons_cons, List.append_assoc, List.singleton_append,
        getlines_append h.1.1, ih h.2]

namespace Command

/-- A command has a word. -/
theorem spelling_ne_nil (cmd : Command) : cmd.spelling ≠ [] := by
  match cmd with
  | .quit | .open _ | .unknown _ => nofun
  | .db (.put none) | .db (.put (some _)) | .db (.get _) | .db (.delete _) => nofun
  | .db (.scan none) | .db (.scan (some _)) | .db .flush | .db .compact => nofun

/-- A line with a command is not empty. -/
theorem Written.ne_nil {cmd : Command} {line : Bytes} (h : cmd.Written line) : line ≠ [] := by
  obtain ⟨-, ws, more, hws, hwords, -⟩ := h
  rintro rfl
  have hnil : ws = [] := (List.append_eq_nil_iff.mp hwords.symm).1
  rcases hws with rfl | ⟨-, rfl⟩
  · exact spelling_ne_nil cmd hnil
  · cases hnil

/-- The command can be written with a blank between its words. -/
theorem render_written {cmd : Command} (h : cmd.WellFormed) : cmd.Written cmd.render :=
  ⟨newline_notMem_intercalate h.isWord, _, [], .inl rfl, by
    rw [render, words_intercalate h.isWord, List.append_nil], .inl rfl⟩

/-- However the commands are written, one a line, with or without a newline at the end, they are
what is read. They can be written with a blank between their words. -/
theorem read_written {cmds : List Command} (h : ∀ cmd ∈ cmds, cmd.WellFormed) :
    List.Forall₂ Written cmds (cmds.map render) ∧
      ∀ lines, List.Forall₂ Written cmds lines →
        (getlines (lines.flatMap fun line => line ++ [10])).map parse = cmds ∧
        (getlines ([10].intercalate lines)).map parse = cmds := by
  refine ⟨?_, fun lines hlines => ?_⟩
  · rw [List.forall₂_map_right_iff, List.forall₂_same]
    exact fun cmd hcmd => render_written (h cmd hcmd)
  · have hparse : lines.map parse = cmds := by
      induction hlines with
      | nil => rfl
      | cons hline _ ih =>
        rw [List.forall_mem_cons] at h
        rw [List.map_cons, parse_of_written h.1 hline, ih h.2]
    have hmem : ∀ line ∈ lines, 10 ∉ line ∧ line ≠ [] := by
      clear hparse
      induction hlines with
      | nil => nofun
      | cons hline _ ih =>
        rw [List.forall_mem_cons] at h
        exact List.forall_mem_cons.mpr ⟨⟨hline.1, hline.ne_nil⟩, ih h.2⟩
    rw [getlines_flatMap fun line hline => (hmem line hline).1, getlines_intercalate hmem]
    exact ⟨hparse, hparse⟩

/-- A script with more blanks than it needs, and with an argument that is not read. -/
def blanks : List Bytes :=
  [ascii "  put\tk v w ", ascii "get", ascii "scan\t* k", ascii "stop", ascii " exit now"]

/-- Its commands. -/
def blanksRead : List Command :=
  [.db (.put (some (ascii "k", ascii "v"))), .db (.get none),
    .db (.scan (some (ascii "*", ascii "k"))), .unknown (ascii "stop"), .quit]

/-- The script is read as its five commands. -/
theorem read_written_blanks : (getlines ([10].intercalate blanks)).map parse = blanksRead := by
  have hwf : ∀ cmd ∈ blanksRead, cmd.WellFormed := by
    unfold blanksRead
    rw [List.forall_mem_cons, List.forall_mem_cons, List.forall_mem_cons, List.forall_mem_cons,
      List.forall_mem_singleton]
    refine ⟨⟨by decide +kernel, nofun⟩, ⟨by decide +kernel, nofun⟩, ⟨by decide +kernel, nofun⟩,
      ⟨by decide +kernel, ?_⟩, ⟨by decide +kernel, nofun⟩⟩
    rintro name hname
    cases hname
    decide +kernel
  refine ((read_written hwf).2 blanks ?_).2
  exact .cons ⟨by decide +kernel, _, [ascii "w"], .inl rfl, by decide +kernel, .inr rfl⟩
    (.cons ⟨by decide +kernel, _, [], .inl rfl, by decide +kernel, .inl rfl⟩
      (.cons ⟨by decide +kernel, _, [], .inl rfl, by decide +kernel, .inl rfl⟩
        (.cons ⟨by decide +kernel, _, [], .inl rfl, by decide +kernel, .inl rfl⟩
          (.cons ⟨by decide +kernel, _, [ascii "now"], .inr ⟨rfl, rfl⟩, by decide +kernel, .inr rfl⟩
            .nil))))

end Command

end MiniLsm
