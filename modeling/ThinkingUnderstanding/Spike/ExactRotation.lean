import Mathlib
import ThinkingUnderstanding.Semantics.PartOfState
import ThinkingUnderstanding.Spike.SpikeGenerator

/-!
# When the spike files are rotated

`validateFile` reads the clock, and opens another file when the date of the current one and the
interval add up to an earlier time. The sum is that of `Long`, so it wraps around: with an interval
that ends after the last time there is, the file is outdated at once, and another one of the same
name may be opened. The date before the first file is `Long.MinValue`, which the interval brings to
a time that is negative in any case.

The clock is a sequence of readings, none earlier than the one before. Besides the writer, the state
of a run has the number of readings so far, a record of each check, and the time at which each
record is written. No method depends on these records.

## Main definitions

* `Clocked.validateFile`, `Clocked.apply` — the methods, with a clock that runs
* `Clocked.Due` — what the check should tell, in exact arithmetic
* `Clocked.RotationExact` — the contract of a run
* `Clocked.Timely` — an application whose times stay within the range of `Long`

## Main results

* `Clocked.forget_apply` — without the records, the method is that of the generator
* `Clocked.outdated_iff_due_iff` — when one check is right
* `Clocked.rotationExact_iff` — when all are, in every state of a run
-/

namespace ThinkingUnderstanding.SpikeGenerator

open Semantics

/-- One check of `validateFile`: the file that is open, the time, and the file that is opened. -/
structure Check where
  current : Option SpikeFile
  now : ℤ
  opened : Option SpikeFile

/-- The writer, how often the clock has been read, the checks, and the files of the records that
were written, each with the time of writing. -/
structure ClockedWriter where
  writer : Writer := {}
  ticks : ℕ := 0
  checks : List Check := []
  stamped : List (SpikeFile × ℤ) := []

/-- A method that may read the clock. -/
abbrev ClockedProgram (α : Type) := EStateM String ClockedWriter α

namespace Clocked

/-- A method that does not read the clock. -/
def onWriter {α : Type} (p : SpikeProgram α) : ClockedProgram α := fun s =>
  match p.run s.writer with
  | .ok a w => .ok a { s with writer := w }
  | .error e w => .error e { s with writer := w }

section

variable (clock : ℕ → ℤ) (settings : Settings)

/-- `System.currentTimeMillis()`. -/
def currentTimeMillis : ClockedProgram ℤ :=
  modifyGet fun s => (clock s.ticks, { s with ticks := s.ticks + 1 })

/-- `validateFile()`. -/
def validateFile : ClockedProgram Unit := do
  let w := (← get).writer
  let now ← currentTimeMillis clock
  if Long.add w.creationDate settings.interval < now then
    if w.jsonGenerator.isSome then onWriter closeFile
    let created ← currentTimeMillis clock
    onWriter (createFile settings created)
    modify fun s => { s with
      checks := s.checks ++ [⟨w.jsonGenerator, now, s.writer.jsonGenerator⟩] }
  else modify fun s => { s with checks := s.checks ++ [⟨w.jsonGenerator, now, none⟩] }

/-- The body of the loop of `apply`. The clock is read for the time of writing. -/
def writeRecord (r : SpikeRecord) : ClockedProgram Unit := do
  let now ← currentTimeMillis clock
  onWriter (SpikeGenerator.writeRecord r)
  modify fun s => { s with
    stamped := s.stamped ++ s.writer.jsonGenerator.toList.map fun file => (file, now) }

/-- `SpikeGeneratorWay2Think.apply`. -/
def apply (container : Option RoboticDataContainer) : ClockedProgram Unit :=
  match container with
  | some container =>
      match channelMapping container.channel with
      | some family => do
          validateFile clock settings
          forM (recordsOf family container) (writeRecord clock)
      | none => pure ()
  | none => pure ()

end

/-- No file is open, or more than the interval has passed since the current one was opened. -/
def Due (interval now : ℤ) (current : Option SpikeFile) : Prop :=
  ∀ file, current = some file → file.creationDate + interval < now

/-- A file is opened exactly when one is due, every record is written within the time range of the
name of its file, and no name is opened twice. -/
structure RotationExact (settings : Settings) (s : ClockedWriter) : Prop where
  opens : ∀ check ∈ s.checks,
    check.opened.isSome ↔ Due settings.interval check.now check.current
  within : ∀ entry ∈ s.stamped, entry.1.creationDate ≤ entry.2 ∧ entry.2 ≤ entry.1.endDate
  once : (s.checks.filterMap Check.opened).Nodup

instance (interval now : ℤ) (current : Option SpikeFile) : Decidable (Due interval now current) :=
  match current with
  | none => isTrue fun _ present => nomatch present
  | some file => decidable_of_iff (file.creationDate + interval < now)
      ⟨fun passed _ same => Option.some.inj same ▸ passed, fun due => due file rfl⟩

/-- The readings of the next check. -/
def reading (clock : ℕ → ℤ) (s : ClockedWriter) : Clock where
  checked := clock s.ticks
  created := clock (s.ticks + 1)

/-- The date of the file that the next records should be written to. -/
def date (clock : ℕ → ℤ) (interval : ℤ) (s : ClockedWriter) : ℤ :=
  if Due interval (clock s.ticks) s.writer.jsonGenerator then clock (s.ticks + 1)
  else s.writer.creationDate

/-- The number of the first reading for one of these records. -/
def firstTick (clock : ℕ → ℤ) (interval : ℤ) (s : ClockedWriter) : ℕ :=
  s.ticks + if Due interval (clock s.ticks) s.writer.jsonGenerator then 2 else 1

/-- If there is no file, the interval after `Long.MinValue` has passed; otherwise the end of the
current file is within `Long`. The records are written before the end of the file they should be
written to, which is within `Long` too. -/
structure Timely (clock : ℕ → ℤ) (settings : Settings) (s : ClockedWriter)
    (container : Option RoboticDataContainer) : Prop where
  first : s.writer.jsonGenerator = none → Long.minValue + settings.interval < clock s.ticks
  ends : s.writer.jsonGenerator.isSome → s.writer.creationDate + settings.interval < 2 ^ 63
  written : ∀ i < (requested container).length,
    date clock settings.interval s + settings.interval < 2 ^ 63 ∧
      clock (firstTick clock settings.interval s + i) ≤
        date clock settings.interval s + settings.interval

variable {clock : ℕ → ℤ} {settings : Settings} {s : ClockedWriter}
  {container : Option RoboticDataContainer}

instance : Decidable (Timely clock settings s container) :=
  decidable_of_iff
    ((s.writer.jsonGenerator = none → Long.minValue + settings.interval < clock s.ticks) ∧
      (s.writer.jsonGenerator.isSome → s.writer.creationDate + settings.interval < 2 ^ 63) ∧
      ∀ i < (requested container).length,
        date clock settings.interval s + settings.interval < 2 ^ 63 ∧
          clock (firstTick clock settings.interval s + i) ≤
            date clock settings.interval s + settings.interval)
    ⟨fun ⟨first, ends, written⟩ => ⟨first, ends, written⟩,
      fun timely => ⟨timely.first, timely.ends, timely.written⟩⟩

/-! ### Without the records -/

theorem onPart_onWriter {α : Type} (p : SpikeProgram α) :
    OnPart ClockedWriter.writer (fun s w => { s with writer := w }) (onWriter p) p where
  run_of_ok {s a t} run := by
    change onWriter _ s = _
    rw [onWriter, run]
  run_of_error {s e t} run := by
    change onWriter _ s = _
    rw [onWriter, run]

theorem forgets_onWriter {α : Type} (p : SpikeProgram α) :
    Forgets ClockedWriter.writer id (onWriter p) p :=
  (onPart_onWriter p).forgets fun _ _ => rfl

theorem forgets_writeRecord (clock : ℕ → ℤ) (r : SpikeRecord) :
    Forgets ClockedWriter.writer id (writeRecord clock r) (SpikeGenerator.writeRecord r) := by
  intro s
  have forgets := forgets_onWriter (SpikeGenerator.writeRecord r) { s with ticks := s.ticks + 1 }
  rw [← forgets]
  change forget _ _ (((onWriter (SpikeGenerator.writeRecord r)) >>= fun _ => _).run _) = _
  rw [EStateM.run_bind]
  cases (onWriter (SpikeGenerator.writeRecord r)).run { s with ticks := s.ticks + 1 } with
  | ok a t => rfl
  | error e t => rfl

theorem forgets_writeRecords (clock : ℕ → ℤ) (records : List SpikeRecord) :
    Forgets ClockedWriter.writer id (forM records (writeRecord clock))
      (forM records SpikeGenerator.writeRecord) := by
  induction records with
  | nil => exact Forgets.pure rfl
  | cons r rest ih =>
    rw [List.forM_cons, List.forM_cons]
    exact (forgets_writeRecord clock r).bind fun _ => ih

/-- The state after the check is recorded. -/
def checked (clock : ℕ → ℤ) (s : ClockedWriter) (w : Writer) (more : ℕ)
    (opened : Option SpikeFile) : ClockedWriter :=
  { s with
    writer := w
    ticks := s.ticks + more
    checks := s.checks ++ [⟨s.writer.jsonGenerator, clock s.ticks, opened⟩] }

theorem run_validateFile_of_current
    (current : ¬ s.writer.Outdated settings (reading clock s)) :
    (validateFile clock settings).run s = .ok () (checked clock s s.writer 1 none) := by
  have test : ¬ Long.add s.writer.creationDate settings.interval < clock s.ticks := current
  change ((if Long.add s.writer.creationDate settings.interval < clock s.ticks then _ else _ :
    ClockedProgram Unit)).run { s with ticks := s.ticks + 1 } = _
  rw [if_neg test]
  rfl

/-- An outdated file is closed; then the clock is read again, and another file is created. -/
theorem run_validateFile_of_outdated
    (outdated : s.writer.Outdated settings (reading clock s)) :
    (validateFile clock settings).run s =
      (onWriter (createFile settings (clock (s.ticks + 1))) >>= fun _ =>
        modify fun t => { t with
          checks := t.checks ++
            [⟨s.writer.jsonGenerator, clock s.ticks, t.writer.jsonGenerator⟩] }).run
        { s with writer := s.writer.closed, ticks := s.ticks + 2 } := by
  have test : Long.add s.writer.creationDate settings.interval < clock s.ticks := outdated
  change ((if Long.add s.writer.creationDate settings.interval < clock s.ticks then _ else _ :
    ClockedProgram Unit)).run { s with ticks := s.ticks + 1 } = _
  rw [if_pos test]
  cases generator : s.writer.jsonGenerator with
  | none =>
    rw [Writer.closed, generator]
    rfl
  | some file =>
    have closed : (onWriter closeFile).run { s with ticks := s.ticks + 1 } =
        .ok () { s with writer := s.writer.append file [.endArray], ticks := s.ticks + 1 } :=
      (onPart_onWriter _).run_of_ok (run_write generator .endArray)
    rw [Writer.closed, generator, Option.elim_some]
    change (onWriter closeFile >>= fun _ => _).run { s with ticks := s.ticks + 1 } = _
    rw [EStateM.run_bind, closed]
    rfl

/-- The check, seen without the records, is that of the generator with the next two readings. -/
theorem forget_validateFile (clock : ℕ → ℤ) (settings : Settings) (s : ClockedWriter) :
    forget ClockedWriter.writer id ((validateFile clock settings).run s) =
      (SpikeGenerator.validateFile settings (reading clock s)).run s.writer := by
  by_cases outdated : s.writer.Outdated settings (reading clock s)
  · rw [run_validateFile_of_outdated outdated, SpikeGenerator.run_validateFile_of_outdated outdated]
    exact (forgets_onWriter (createFile settings (clock (s.ticks + 1)))).bind_unseen
      (fun _ => fun _ => rfl) { s with writer := s.writer.closed, ticks := s.ticks + 2 }
  · rw [run_validateFile_of_current outdated, SpikeGenerator.run_validateFile_of_current outdated]
    rfl

theorem apply_of_unmapped (clock : ℕ → ℤ) (settings : Settings)
    (unmapped : family container = none) : apply clock settings container = pure () :=
  applyWith_of_unmapped (validateFile clock settings) (writeRecord clock) unmapped

theorem apply_of_mapped (clock : ℕ → ℤ) (settings : Settings)
    (mapped : (family container).isSome) :
    apply clock settings container =
      (validateFile clock settings >>= fun _ => forM (requested container) (writeRecord clock)) :=
  applyWith_of_mapped (validateFile clock settings) (writeRecord clock) mapped

/-- So is the application. -/
theorem forget_apply (clock : ℕ → ℤ) (settings : Settings) (s : ClockedWriter)
    (container : Option RoboticDataContainer) :
    forget ClockedWriter.writer id ((apply clock settings container).run s) =
      (SpikeGenerator.apply settings (reading clock s) container).run s.writer := by
  cases data : family container with
  | none =>
    rw [apply_of_unmapped clock settings data, SpikeGenerator.apply_of_unmapped _ _ data]
    rfl
  | some name =>
    have mapped : (family container).isSome := Option.isSome_of_eq_some data
    have same := forget_validateFile clock settings s
    rw [apply_of_mapped clock settings mapped, SpikeGenerator.apply_of_mapped _ _ mapped,
      EStateM.run_bind, EStateM.run_bind, ← same]
    cases (validateFile clock settings).run s with
    | ok a t => exact forgets_writeRecords clock (requested container) t
    | error e t => rfl

/-! ### What an application records -/

/-- The times at which records are written, from a reading on. -/
def stamps (clock : ℕ → ℤ) (file : SpikeFile) (first count : ℕ) : List (SpikeFile × ℤ) :=
  (List.range' first count).map fun tick => (file, clock tick)

theorem run_writeRecord {file : SpikeFile} (current : s.writer.jsonGenerator = some file)
    (clock : ℕ → ℤ) (r : SpikeRecord) : (writeRecord clock r).run s = .ok () { s with
      writer := s.writer.record file [r]
      ticks := s.ticks + 1
      stamped := s.stamped ++ [(file, clock s.ticks)] } := by
  have written : (onWriter (SpikeGenerator.writeRecord r)).run { s with ticks := s.ticks + 1 } =
      .ok () { s with writer := s.writer.record file [r], ticks := s.ticks + 1 } :=
    (onPart_onWriter _).run_of_ok (SpikeGenerator.run_writeRecord current r)
  change (onWriter (SpikeGenerator.writeRecord r) >>= fun _ => modify _).run
    { s with ticks := s.ticks + 1 } = _
  rw [EStateM.run_bind, written]
  change EStateM.Result.ok () { s with
    writer := s.writer.record file [r]
    ticks := s.ticks + 1
    stamped := s.stamped ++
      (s.writer.record file [r]).jsonGenerator.toList.map fun file => (file, clock s.ticks) } = _
  -- the record is noted with the file that is current after it was written, which is the same one
  rw [Writer.record_jsonGenerator, current]
  rfl

/-- The records are written to the current file, one reading after another. -/
theorem run_writeRecords {file : SpikeFile} (current : s.writer.jsonGenerator = some file)
    (clock : ℕ → ℤ) (records : List SpikeRecord) :
    (forM records (writeRecord clock)).run s = .ok () { s with
      writer := s.writer.record file records
      ticks := s.ticks + records.length
      stamped := s.stamped ++ stamps clock file s.ticks records.length } := by
  induction records generalizing s with
  | nil =>
    rw [Writer.record_nil, stamps, List.length_nil, List.range'_zero, List.map_nil, List.append_nil]
    rfl
  | cons r rest ih =>
    rw [List.forM_cons, EStateM.run_bind, run_writeRecord current]
    dsimp only
    rw [ih (Writer.record_jsonGenerator s.writer file [r] ▸ current), Writer.record_record,
      List.singleton_append, stamps, stamps, List.append_assoc, List.length_cons, List.range'_succ,
      Nat.add_right_comm, Nat.add_assoc]
    rfl

/-- Without a file nothing is recorded, but the clock may be read. -/
theorem finalState_writeRecords_of_none (none : s.writer.jsonGenerator = none) (clock : ℕ → ℤ)
    (records : List SpikeRecord) : ∃ ticks ≥ s.ticks,
      finalState ((forM records (writeRecord clock)).run s) = { s with ticks } := by
  cases records with
  | nil => exact ⟨s.ticks, Nat.le_refl _, rfl⟩
  | cons r rest =>
    have failed : (writeRecord clock r).run s =
        .error "java.lang.NullPointerException" { s with ticks := s.ticks + 1 } := by
      have written : (onWriter (SpikeGenerator.writeRecord r)).run { s with ticks := s.ticks + 1 } =
          .error "java.lang.NullPointerException" { s with ticks := s.ticks + 1 } := by
        change onWriter (SpikeGenerator.writeRecord r) { s with ticks := s.ticks + 1 } = _
        rw [onWriter, SpikeGenerator.run_writeRecord_of_none none]
      change (onWriter (SpikeGenerator.writeRecord r) >>= fun _ => modify _).run
        { s with ticks := s.ticks + 1 } = _
      rw [EStateM.run_bind, written]
    refine ⟨s.ticks + 1, Nat.le_succ _, ?_⟩
    rw [List.forM_cons, EStateM.run_bind, failed, finalState_error]

/-- The file that the check opens. -/
def opening (clock : ℕ → ℤ) (settings : Settings) (directory : String) (s : ClockedWriter) :
    Option SpikeFile :=
  if s.writer.Outdated settings (reading clock s) then
    some (settings.file directory (clock (s.ticks + 1)))
  else none

/-- What an application with data does to the file, and what it records. -/
structure Applied (clock : ℕ → ℤ) (settings : Settings) (directory : String) (count : ℕ)
    (s t : ClockedWriter) : Prop where
  generator : t.writer.jsonGenerator =
    (opening clock settings directory s).or s.writer.jsonGenerator
  creationDate : t.writer.creationDate =
    ((opening clock settings directory s).map SpikeFile.creationDate).getD s.writer.creationDate
  checks : t.checks = s.checks ++
    [⟨s.writer.jsonGenerator, clock s.ticks, opening clock settings directory s⟩]
  stamped : t.stamped = s.stamped ++ t.writer.jsonGenerator.toList.flatMap fun file =>
    stamps clock file (s.ticks + if (opening clock settings directory s).isSome then 2 else 1) count
  ticks : s.ticks < t.ticks ∧ ((opening clock settings directory s).isSome → s.ticks + 2 ≤ t.ticks)

section

variable {directory : String} (specified : settings.spikeDirectory = some directory)

include specified

theorem applied_apply (mapped : (family container).isSome) :
    Applied clock settings directory (requested container).length s
      (finalState ((apply clock settings container).run s)) := by
  rw [apply_of_mapped clock settings mapped, EStateM.run_bind]
  by_cases outdated : s.writer.Outdated settings (reading clock s)
  · -- another file is created, and takes the records
    let file := settings.file directory (clock (s.ticks + 1))
    let t := checked clock s (s.writer.closed.started file) 2 (some file)
    have opens : opening clock settings directory s = some file := if_pos outdated
    have created : (onWriter (createFile settings (clock (s.ticks + 1)))).run
        { s with writer := s.writer.closed, ticks := s.ticks + 2 } =
        .ok () { s with writer := s.writer.closed.started file, ticks := s.ticks + 2 } :=
      (onPart_onWriter _).run_of_ok (run_createFile s.writer.closed specified _)
    have validated : (validateFile clock settings).run s = .ok () t := by
      rw [run_validateFile_of_outdated outdated, EStateM.run_bind, created]
      rfl
    rw [validated]
    dsimp only
    rw [@run_writeRecords t file rfl]
    constructor
    case generator => rw [opens]; rfl
    case creationDate => rw [opens]; rfl
    case checks => rw [opens]; rfl
    case stamped => rw [opens]; exact congrArg (s.stamped ++ ·) (List.flatMap_singleton _ _).symm
    case ticks =>
      exact ⟨Nat.lt_add_right _ (Nat.lt_add_of_pos_right Nat.two_pos),
        fun _ => Nat.le_add_right _ _⟩
  · have opens : opening clock settings directory s = none := if_neg outdated
    let t := checked clock s s.writer 1 none
    rw [run_validateFile_of_current outdated]
    dsimp only
    cases generator : s.writer.jsonGenerator with
    | none =>
      obtain ⟨ticks, le, same⟩ :=
        @finalState_writeRecords_of_none t generator clock (requested container)
      rw [same]
      constructor
      case generator => rw [opens]; rfl
      case creationDate => rw [opens]; rfl
      case checks => rw [opens]; rfl
      case stamped =>
        change s.stamped = s.stamped ++ s.writer.jsonGenerator.toList.flatMap _
        rw [generator]
        exact (List.append_nil _).symm
      case ticks =>
        rw [opens]
        exact ⟨le, fun none => nomatch none⟩
    | some file =>
      rw [@run_writeRecords t file generator]
      constructor
      case generator => rw [opens]; rfl
      case creationDate => rw [opens]; rfl
      case checks => rw [opens]; rfl
      case stamped =>
        change _ = s.stamped ++ s.writer.jsonGenerator.toList.flatMap _
        rw [generator, opens]
        exact congrArg (s.stamped ++ ·) (List.flatMap_singleton _ _).symm
      case ticks =>
        rw [opens]
        exact ⟨Nat.lt_add_right _ (Nat.lt_succ_self _), fun none => nomatch none⟩

end

/-! ### Dates -/

/-- The clock is not set back, and shows a `Long`. -/
structure Runs (clock : ℕ → ℤ) : Prop where
  forward : Monotone clock
  least : ∀ n, Long.minValue ≤ clock n
  greatest : ∀ n, clock n < 2 ^ 63

/-- The current file has the date of the writer, which no file that has been opened exceeds. -/
structure Dated (clock : ℕ → ℤ) (settings : Settings) (directory : String) (s : ClockedWriter) :
    Prop where
  range : Long.minValue ≤ s.writer.creationDate ∧ s.writer.creationDate < 2 ^ 63
  idle : s.writer.jsonGenerator = none →
    s.writer.creationDate = Long.minValue ∧ s.checks.filterMap Check.opened = []
  current : ∀ file, s.writer.jsonGenerator = some file →
    file = settings.file directory s.writer.creationDate ∧ s.writer.creationDate ≤ clock s.ticks
  opened : ∀ file ∈ s.checks.filterMap Check.opened, file.creationDate ≤ s.writer.creationDate

theorem dated_initial (clock : ℕ → ℤ) (settings : Settings) (directory : String) :
    Dated clock settings directory {} where
  range := by decide
  idle _ := ⟨rfl, rfl⟩
  current _ present := nomatch present
  opened _ member := nomatch member

section

variable {directory : String} {count : ℕ} {t : ClockedWriter} {file : SpikeFile}

theorem opening_eq_some_iff : opening clock settings directory s = some file ↔
    s.writer.Outdated settings (reading clock s) ∧
      file = settings.file directory (clock (s.ticks + 1)) := by
  unfold opening
  split_ifs with outdated
  · rw [Option.some_inj, and_iff_right outdated, eq_comm]
  · exact iff_of_false (fun none => nomatch none) fun both => outdated both.1

theorem isSome_opening_iff : (opening clock settings directory s).isSome ↔
    s.writer.Outdated settings (reading clock s) := by
  unfold opening
  split_ifs with outdated
  · exact iff_of_true rfl outdated
  · exact iff_of_false Bool.false_ne_true outdated

theorem filterMap_opened_applied (applied : Applied clock settings directory count s t) :
    t.checks.filterMap Check.opened =
      s.checks.filterMap Check.opened ++ (opening clock settings directory s).toList := by
  rw [applied.checks, List.filterMap_append]
  cases opening clock settings directory s <;> rfl

/-- The date is not later than the next reading, unless no file has been opened. -/
theorem Dated.opened_le (dated : Dated clock settings directory s)
    (member : file ∈ s.checks.filterMap Check.opened) :
    file.creationDate ≤ s.writer.creationDate ∧ s.writer.creationDate ≤ clock s.ticks := by
  refine ⟨dated.opened file member, ?_⟩
  cases generator : s.writer.jsonGenerator with
  | none =>
    rw [(dated.idle generator).2] at member
    cases member
  | some current => exact (dated.current current generator).2

/-- Where another file is due, all the files before are dated before the next reading. -/
theorem Dated.not_mem_opened_of_due (dated : Dated clock settings directory s)
    (runs : Runs clock) (forward : 0 ≤ settings.interval)
    (due : Due settings.interval (clock s.ticks) s.writer.jsonGenerator) :
    settings.file directory (clock (s.ticks + 1)) ∉ s.checks.filterMap Check.opened := by
  intro member
  obtain ⟨before, -⟩ := dated.opened_le member
  have before : clock (s.ticks + 1) ≤ s.writer.creationDate := before
  have next := runs.forward (Nat.le_succ s.ticks)
  cases generator : s.writer.jsonGenerator with
  | none =>
    rw [(dated.idle generator).2] at member
    cases member
  | some current =>
    -- the current file is at least an interval older, and all the files before it are older still
    have passed := due current generator
    rw [(dated.current current generator).1] at passed
    have passed : s.writer.creationDate + settings.interval < clock s.ticks := passed
    have next : clock s.ticks ≤ clock (s.ticks + 1) := next
    omega

/-- The dates are kept right by every application, whatever the clock shows. -/
theorem Dated.applied (dated : Dated clock settings directory s) (runs : Runs clock)
    (applied : Applied clock settings directory count s t) :
    Dated clock settings directory t := by
  have generator := applied.generator
  have date := applied.creationDate
  have opened := filterMap_opened_applied applied
  cases opens : opening clock settings directory s with
  | none =>
    rw [opens, Option.none_or] at generator
    rw [opens, Option.map_none, Option.getD_none] at date
    rw [opens, Option.toList_none, List.append_nil] at opened
    constructor
    case range => rw [date]; exact dated.range
    case idle => rw [generator, date, opened]; exact dated.idle
    case current =>
      rw [generator, date]
      intro file present
      obtain ⟨same, le⟩ := dated.current file present
      exact ⟨same, le.trans (runs.forward applied.ticks.1.le)⟩
    case opened => rw [opened, date]; exact dated.opened
  | some file =>
    obtain ⟨-, rfl⟩ := opening_eq_some_iff.mp opens
    rw [opens, Option.some_or] at generator
    rw [opens, Option.map_some, Option.getD_some] at date
    rw [opens, Option.toList_some] at opened
    have now : s.ticks + 1 ≤ t.ticks := applied.ticks.1
    constructor
    case range => rw [date]; exact ⟨runs.least _, runs.greatest _⟩
    case idle => rw [generator]; exact fun none => nomatch none
    case current =>
      rw [generator, date]
      rintro _ ⟨⟩
      exact ⟨rfl, runs.forward now⟩
    case opened =>
      rw [opened, date]
      intro file member
      rcases List.mem_append.mp member with before | new
      · -- a file of before is no younger than the date before, which the clock has passed
        obtain ⟨first, second⟩ := dated.opened_le before
        exact (first.trans second).trans (runs.forward (Nat.le_succ _))
      · exact (congrArg SpikeFile.creationDate (List.mem_singleton.mp new)).le

/-- The check is right when the interval after `Long.MinValue` has passed, or the end of the current
file is within `Long`. -/
theorem outdated_iff_due_iff (dated : Dated clock settings directory s) (runs : Runs clock)
    (interval : 0 ≤ settings.interval ∧ settings.interval < 2 ^ 63) :
    (s.writer.Outdated settings (reading clock s) ↔
      Due settings.interval (clock s.ticks) s.writer.jsonGenerator) ↔
      (s.writer.jsonGenerator = none → Long.minValue + settings.interval < clock s.ticks) ∧
        (s.writer.jsonGenerator.isSome →
          s.writer.creationDate + settings.interval < 2 ^ 63) := by
  have least : Long.minValue = -2 ^ 63 := rfl
  have sum := Long.add_eq_ite dated.range interval
  have outdated : s.writer.Outdated settings (reading clock s) ↔
      Long.add s.writer.creationDate settings.interval < clock s.ticks := Iff.rfl
  rw [outdated, sum]
  cases generator : s.writer.jsonGenerator with
  | none =>
    have due : Due settings.interval (clock s.ticks) none := fun _ present => nomatch present
    rw [(dated.idle generator).1, if_pos (by omega), iff_true_right due]
    exact ⟨fun passed => ⟨fun _ => passed, fun some => nomatch some⟩, fun both => both.1 rfl⟩
  | some file =>
    obtain ⟨same, le⟩ := dated.current file generator
    have due : Due settings.interval (clock s.ticks) (some file) ↔
        s.writer.creationDate + settings.interval < clock s.ticks := by
      have date : file.creationDate = s.writer.creationDate := congrArg SpikeFile.creationDate same
      rw [← date]
      exact ⟨fun due => due file rfl, fun passed _ same => Option.some.inj same ▸ passed⟩
    have late := runs.greatest s.ticks
    rw [due]
    simp only [Option.isSome_some, true_implies, reduceCtorEq, false_implies, true_and]
    -- with an end beyond `Long`, the sum is before the date, so that the file is outdated at once
    split_ifs <;> omega

/-! ### Runs -/

theorem mem_stamps_iff {entry : SpikeFile × ℤ} {first : ℕ} :
    entry ∈ stamps clock file first count ↔ ∃ i < count, (file, clock (first + i)) = entry := by
  simp only [stamps, List.range'_eq_map_range, List.mem_map, List.mem_range,
    exists_exists_and_eq_and]

/-- After a check that is right, the current file is the one to write to. -/
theorem Dated.current_applied (dated : Dated clock settings directory s) (runs : Runs clock)
    (applied : Applied clock settings directory count s t)
    (right : (opening clock settings directory s).isSome ↔
      Due settings.interval (clock s.ticks) s.writer.jsonGenerator) :
    t.stamped = s.stamped ++ stamps clock (settings.file directory (date clock settings.interval s))
        (firstTick clock settings.interval s) count ∧
      (Long.minValue ≤ date clock settings.interval s ∧ date clock settings.interval s < 2 ^ 63) ∧
      date clock settings.interval s ≤ clock (firstTick clock settings.interval s) := by
  have generator := applied.generator
  rw [applied.stamped, generator, date, firstTick]
  cases opens : opening clock settings directory s with
  | none =>
    rw [opens] at right
    -- nothing is due, so that there is a file, and the records go to it
    have early := mt right.mpr Bool.false_ne_true
    rw [if_neg early, if_neg early]
    cases present : s.writer.jsonGenerator with
    | none =>
      rw [present] at early
      exact absurd (fun _ none => nomatch none) early
    | some file =>
      obtain ⟨rfl, le⟩ := dated.current file present
      refine ⟨?_, dated.range, le.trans (runs.forward (Nat.le_succ _))⟩
      exact congrArg (s.stamped ++ ·) (List.flatMap_singleton _ _)
  | some file =>
    obtain ⟨-, rfl⟩ := opening_eq_some_iff.mp opens
    -- the file that was opened has the date of the next reading
    have due := right.mp (Option.isSome_of_eq_some opens)
    rw [if_pos due, if_pos due]
    refine ⟨?_, ⟨runs.least _, runs.greatest _⟩, runs.forward (Nat.le_succ _)⟩
    exact congrArg (s.stamped ++ ·) (List.flatMap_singleton _ _)

/-- A file whose name ends within `Long` has the whole interval as its range; another one has an
empty range. -/
theorem within_iff {date now : ℤ} (range : Long.minValue ≤ date ∧ date < 2 ^ 63) (le : date ≤ now)
    (interval : 0 ≤ settings.interval ∧ settings.interval < 2 ^ 63) :
    date ≤ now ∧ now ≤ (settings.file directory date).endDate ↔
      date + settings.interval < 2 ^ 63 ∧ now ≤ date + settings.interval := by
  have sum : (settings.file directory date).endDate = Long.add date settings.interval := rfl
  rw [sum, Long.add_eq_ite range interval]
  split_ifs <;> omega

/-- One application keeps the rotation exact when it is timely. -/
theorem RotationExact.applied_iff (kept : RotationExact settings s)
    (dated : Dated clock settings directory s) (runs : Runs clock)
    (interval : 0 ≤ settings.interval ∧ settings.interval < 2 ^ 63)
    (applied : Applied clock settings directory (requested container).length s t) :
    RotationExact settings t ↔ Timely clock settings s container := by
  have right_iff : ((opening clock settings directory s).isSome ↔
      Due settings.interval (clock s.ticks) s.writer.jsonGenerator) ↔
      (s.writer.jsonGenerator = none → Long.minValue + settings.interval < clock s.ticks) ∧
        (s.writer.jsonGenerator.isSome →
          s.writer.creationDate + settings.interval < 2 ^ 63) := by
    rw [isSome_opening_iff]
    exact outdated_iff_due_iff dated runs interval
  have in_range : ∀ i,
      date clock settings.interval s ≤ clock (firstTick clock settings.interval s) →
        date clock settings.interval s ≤ clock (firstTick clock settings.interval s + i) :=
    fun i le => le.trans (runs.forward (Nat.le_add_right _ _))
  constructor
  · intro kept'
    have right : (opening clock settings directory s).isSome ↔
        Due settings.interval (clock s.ticks) s.writer.jsonGenerator :=
      -- the new check is one of the checks of the state after it
      kept'.opens ⟨s.writer.jsonGenerator, clock s.ticks, opening clock settings directory s⟩ (by
        rw [applied.checks]
        exact List.mem_append_right _ (List.mem_singleton_self _))
    obtain ⟨stamped, range, le⟩ := dated.current_applied runs applied right
    refine ⟨(right_iff.mp right).1, (right_iff.mp right).2, fun i inside => ?_⟩
    -- each record of this application has its entry, with the time at which it was written
    have new : (settings.file directory (date clock settings.interval s),
        clock (firstTick clock settings.interval s + i)) ∈ t.stamped := by
      rw [stamped]
      exact List.mem_append_right _ (mem_stamps_iff.mpr ⟨i, inside, rfl⟩)
    exact (within_iff range (in_range i le) interval).mp (kept'.within _ new)
  · intro timely
    have right := right_iff.mpr ⟨timely.first, timely.ends⟩
    obtain ⟨stamped, range, le⟩ := dated.current_applied runs applied right
    constructor
    case opens =>
      rw [applied.checks, List.forall_mem_append]
      exact ⟨kept.opens, List.forall_mem_singleton.mpr right⟩
    case within =>
      rw [stamped, List.forall_mem_append]
      refine ⟨kept.within, fun entry member => ?_⟩
      obtain ⟨i, inside, rfl⟩ := mem_stamps_iff.mp member
      exact (within_iff range (in_range i le) interval).mpr (timely.written i inside)
    case once =>
      rw [filterMap_opened_applied applied]
      cases opens : opening clock settings directory s with
      | none =>
        rw [Option.toList_none, List.append_nil]
        exact kept.once
      | some file =>
        obtain ⟨-, rfl⟩ := opening_eq_some_iff.mp opens
        refine List.nodup_append.mpr ⟨kept.once, List.pairwise_singleton _ _, ?_⟩
        rintro old member _ new rfl
        obtain rfl := List.mem_singleton.mp new
        have due := right.mp (Option.isSome_of_eq_some opens)
        -- a name that was used before would be dated before the file became due
        exact dated.not_mem_opened_of_due runs interval.1 due member

theorem rotationExact_initial (settings : Settings) : RotationExact settings {} where
  opens _ member := nomatch member
  within _ member := nomatch member
  once := List.Pairwise.nil

/-- In every state of a run the rotation is exact, exactly when the applications that have data are
timely. -/
theorem rotationExact_iff (specified : settings.spikeDirectory = some directory)
    (interval : 0 ≤ settings.interval ∧ settings.interval < 2 ^ 63) (runs : Runs clock)
    (containers : List (Option RoboticDataContainer)) :
    (∀ before after, containers = before ++ after →
      RotationExact settings (runAll (apply clock settings) before {})) ↔
      AllAllowed (apply clock settings)
        (fun s container => (family container).isSome → Timely clock settings s container)
        containers {} := by
  -- a message without data leaves the generator alone, so that only the others have to be timely
  have idle : ∀ s container, family container = none →
      finalState ((apply clock settings container).run s) = s := by
    intro s container unmapped
    rw [apply_of_unmapped clock settings unmapped]
    rfl
  have referring : ∀ (containers : List (Option RoboticDataContainer)) (s : ClockedWriter),
      AllAllowed (apply clock settings) (fun _ _ => True) containers s := by
    intro containers
    induction containers with
    | nil => exact fun _ => trivial
    | cons container rest ih => exact fun s => ⟨trivial, ih _⟩
  refine forall_runAll_iff (I := Dated clock settings directory) (fun s container dated _ => ?_)
    (fun s container dated _ kept => ?_) (dated_initial clock settings directory)
    (rotationExact_initial settings) (referring containers {})
  · cases data : family container with
    | none => rwa [idle s container data]
    | some name =>
      have mapped : (family container).isSome := Option.isSome_of_eq_some data
      exact dated.applied runs (applied_apply specified mapped)
  · cases data : family container with
    | none =>
      rw [idle s container data]
      exact iff_of_true kept fun none => nomatch none
    | some name =>
      have mapped : (family container).isSome := Option.isSome_of_eq_some data
      rw [kept.applied_iff dated runs interval (applied_apply specified mapped)]
      exact ⟨fun timely _ => timely, fun timely => timely rfl⟩

end

/-! ### The longest interval -/

/-- A container with one datum for the hand. -/
def hand : RoboticDataContainer where
  channel := 0
  values := [{ data := "7", time := 19 }]

/-- Files of a directory, with an interval. -/
def everyInterval (interval : ℤ) : Settings where
  spikeDirectory := some "/tmp"
  spikeInterval := some interval

/-- A clock that shows 300 milliseconds more at each reading, up to a last time. -/
def stepping (n : ℕ) : ℤ := min (300 * n) 100000

theorem runs_stepping : Runs stepping where
  forward m n le := min_le_min_right _ (by omega)
  least n := by
    have : (0 : ℤ) ≤ stepping n := le_min (by omega) (by omega)
    exact le_trans (by decide) this
  greatest n := lt_of_le_of_lt (min_le_right _ _) (by omega)

/-- Four messages and a file for each second: the second message is written to the file of the
first, the third one opens another. -/
theorem rotationExact_hand :
    RotationExact (everyInterval 1000) (runAll (apply stepping (everyInterval 1000))
      [some hand, some hand, some hand, some hand] {}) ∧
    (runAll (apply stepping (everyInterval 1000))
      [some hand, some hand, some hand, some hand] {}).checks.map Check.opened =
        [some ((everyInterval 1000).file "/tmp" 300), none,
          some ((everyInterval 1000).file "/tmp" 1800), none] := by
  refine ⟨?_, by decide +kernel⟩
  have timely : AllAllowed (apply stepping (everyInterval 1000))
      (fun s container => (family container).isSome →
        Timely stepping (everyInterval 1000) s container)
      [some hand, some hand, some hand, some hand] {} := by
    refine ⟨fun _ => ?_, fun _ => ?_, fun _ => ?_, fun _ => ?_, trivial⟩ <;> decide +kernel
  exact (rotationExact_iff rfl ⟨by decide, by decide⟩ runs_stepping _).mpr timely _ []
    (List.append_nil _).symm

/-- With the longest interval, two messages in one millisecond open one file twice. -/
theorem longest_not_rotationExact : Runs (fun _ => 5) ∧
    ¬ RotationExact (everyInterval (2 ^ 63 - 1))
      (runAll (apply (fun _ => 5) (everyInterval (2 ^ 63 - 1))) [some hand, some hand] {}) := by
  refine ⟨⟨fun _ _ _ => le_rfl, fun _ => by decide, fun _ => by decide⟩, fun kept => ?_⟩
  have once := kept.once
  revert once
  decide +kernel

end Clocked

end ThinkingUnderstanding.SpikeGenerator
