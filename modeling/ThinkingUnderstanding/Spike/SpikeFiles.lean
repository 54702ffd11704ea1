import ThinkingUnderstanding.Spike.SpikeGenerator

/-!
# The files of a run of the spike generator

A spike file is well formed when it is one complete array of the records that were written
while it was the current file. The rotation in `validateFile` leaves the earlier files so:
it ends the array before the next file is started. Nothing ends the array of the last file:
`stop`, which the actor calls when it is stopped, only returns `false`. So the files of a
run are well formed exactly when the run creates none.

## Main definitions

* `Application` — a message to the actor, with the readings of the clock
* `Writer.FilesWellFormed` — every file is one complete array
* `Application.StartsFile` — the application creates a file, if there is none before
* `Writer.Rotated` — every file but the current one is complete

## Main results

* `filesWellFormed_iff` — the files of a run that ends with `stop`
* `rotated_runAll` — the rotation closes every file but the last
-/

namespace ThinkingUnderstanding

namespace SpikeGenerator

open Semantics

/-- A message to the actor: the container in the context, and what the clock shows. -/
structure Application where
  clock : Clock
  container : Option RoboticDataContainer

/-- The actor receives a message. An exception is sent back to the sender. -/
def receive (settings : Settings) (a : Application) : SpikeProgram Unit :=
  apply settings a.clock a.container

/-- The state after a run of applications, and the stop of the actor. -/
def afterStop (settings : Settings) (applications : List Application) : Writer :=
  finalState (stop.run (runAll (receive settings) applications {}))

/-- The content of a file that is one complete array. -/
def complete (records : List SpikeRecord) : List Token :=
  .startArray :: (records.flatMap SpikeRecord.tokens ++ [.endArray])

/-- The records written while the file was the current one. -/
def Writer.recordsOf (w : Writer) (file : SpikeFile) : List SpikeRecord :=
  (w.written.filter fun entry => entry.1 = file).map Prod.snd

/-- Every file is one complete array of the records written while it was current. -/
def Writer.FilesWellFormed (w : Writer) : Prop :=
  ∀ file content, w.files file = some content → content = complete (w.recordsOf file)

/-- The application has data for a file, and finds the date `Long.MinValue` outdated. -/
structure Application.StartsFile (settings : Settings) (a : Application) : Prop where
  specified : settings.spikeDirectory.isSome
  mapped : (family a.container).isSome
  outdated : Long.add Long.minValue settings.interval < a.clock.checked

/-- The current file has an array of records that is open. -/
def Writer.ArrayOpen (w : Writer) : Prop :=
  ∃ file, ∃ records : List SpikeRecord, w.jsonGenerator = some file ∧
    w.files file = some (.startArray :: records.flatMap SpikeRecord.tokens)

theorem endArray_notMem_tokens (records : List SpikeRecord) :
    Token.endArray ∉ records.flatMap SpikeRecord.tokens := by
  simp [SpikeRecord.tokens]

/-- An open array is not complete. -/
theorem Writer.ArrayOpen.not_filesWellFormed {w : Writer} (opened : w.ArrayOpen) :
    ¬ w.FilesWellFormed := by
  obtain ⟨file, records, -, content⟩ := opened
  intro wellFormed
  have same := List.tail_eq_of_cons_eq (wellFormed file _ content)
  refine endArray_notMem_tokens records ?_
  rw [same]
  exact List.mem_append_right _ (List.mem_singleton.mpr rfl)

/-- Records added to an open array leave it open. -/
theorem Writer.ArrayOpen.record {w : Writer} {file : SpikeFile} {records : List SpikeRecord}
    (current : w.jsonGenerator = some file)
    (content : w.files file = some (.startArray :: records.flatMap SpikeRecord.tokens))
    (more : List SpikeRecord) : (w.record file more).ArrayOpen := by
  refine ⟨file, records ++ more, current, ?_⟩
  simp [content]

theorem Writer.files_started_self (w : Writer) (file : SpikeFile) :
    (w.started file).files file = some [.startArray] := Function.update_self ..

theorem Writer.files_started_of_ne (w : Writer) {file other : SpikeFile} (ne : other ≠ file) :
    (w.started file).files other = w.files other := Function.update_of_ne ne ..

/-- A file that has been started has an open array, whatever is written next. -/
theorem Writer.arrayOpen_started_record (w : Writer) (file : SpikeFile)
    (records : List SpikeRecord) : ((w.started file).record file records).ArrayOpen := by
  refine ⟨file, records, rfl, ?_⟩
  simp [Writer.files_started_self]

section

variable {settings : Settings} {directory : String}
  (specified : settings.spikeDirectory = some directory)

include specified

/-- A file that was started stays open. -/
theorem arrayOpen_receive {w : Writer} (opened : w.ArrayOpen) (a : Application) :
    (finalState ((receive settings a).run w)).ArrayOpen := by
  cases data : family a.container with
  | none =>
    rw [receive, apply_of_unmapped settings a.clock data]
    exact opened
  | some name =>
    have mapped : (family a.container).isSome := by rw [data]; rfl
    by_cases outdated : w.Outdated settings a.clock
    · rw [receive, run_apply_of_outdated mapped outdated specified]
      exact Writer.arrayOpen_started_record ..
    · obtain ⟨file, records, current, content⟩ := opened
      rw [receive, finalState_apply_of_current mapped outdated, current]
      exact Writer.ArrayOpen.record current content _

theorem arrayOpen_runAll (applications : List Application) {w : Writer} (opened : w.ArrayOpen) :
    (runAll (receive settings) applications w).ArrayOpen := by
  induction applications generalizing w with
  | nil => exact opened
  | cons a rest ih => exact ih (arrayOpen_receive specified opened a)

/-- The first file is started by the first application that can. -/
theorem receive_initial (a : Application) :
    (a.StartsFile settings ∧ (finalState ((receive settings a).run {})).ArrayOpen) ∨
      (¬ a.StartsFile settings ∧ finalState ((receive settings a).run {}) = {}) := by
  cases data : family a.container with
  | none =>
    refine Or.inr ⟨fun starts => ?_, ?_⟩
    · exact absurd starts.mapped (by rw [data]; simp)
    · rw [receive, apply_of_unmapped settings a.clock data]
      rfl
  | some name =>
    have mapped : (family a.container).isSome := by rw [data]; rfl
    by_cases outdated : ({} : Writer).Outdated settings a.clock
    · refine Or.inl ⟨⟨by rw [specified]; rfl, mapped, outdated⟩, ?_⟩
      rw [receive, run_apply_of_outdated mapped outdated specified]
      exact Writer.arrayOpen_started_record ..
    · refine Or.inr ⟨fun starts => outdated starts.outdated, ?_⟩
      rw [receive, finalState_apply_of_current mapped outdated]
      rfl

theorem runAll_initial (applications : List Application) :
    ((∃ a ∈ applications, a.StartsFile settings) ∧
        (runAll (receive settings) applications {}).ArrayOpen) ∨
      ((∀ a ∈ applications, ¬ a.StartsFile settings) ∧
        runAll (receive settings) applications {} = {}) := by
  induction applications with
  | nil => exact Or.inr ⟨List.forall_mem_nil _, rfl⟩
  | cons a rest ih =>
    rw [List.exists_mem_cons_iff, List.forall_mem_cons, runAll]
    rcases receive_initial specified a with ⟨starts, opened⟩ | ⟨idle, unchanged⟩
    · exact Or.inl ⟨Or.inl starts, arrayOpen_runAll specified rest opened⟩
    · rw [unchanged]
      exact ih.imp (And.imp_left Or.inr) (And.imp_left fun later => And.intro idle later)

end

/-- Without a directory no file is created. -/
theorem files_runAll_of_unspecified {settings : Settings}
    (unspecified : settings.spikeDirectory = none) (applications : List Application) {w : Writer}
    (idle : w.jsonGenerator = none) (empty : ∀ file, w.files file = none) :
    ∀ file, (runAll (receive settings) applications w).files file = none := by
  induction applications generalizing w with
  | nil => exact empty
  | cons a rest ih =>
    rw [runAll]
    cases data : family a.container with
    | none =>
      rw [receive, apply_of_unmapped settings a.clock data]
      exact ih idle empty
    | some name =>
      have mapped : (family a.container).isSome := by rw [data]; rfl
      by_cases outdated : w.Outdated settings a.clock
      · rw [receive, finalState_apply_of_unspecified mapped outdated unspecified, Writer.closed,
          idle]
        exact ih idle empty
      · rw [receive, finalState_apply_of_current mapped outdated, idle]
        exact ih idle empty

/-- The files of a run that ends with the stop of the actor are well formed exactly when no
application starts a file: none has data of a mapped channel, later than the interval after
`Long.MinValue`, with a directory to write to. -/
theorem filesWellFormed_iff (settings : Settings) (applications : List Application) :
    (afterStop settings applications).FilesWellFormed ↔
      ∀ a ∈ applications, ¬ a.StartsFile settings := by
  have stopped : afterStop settings applications =
      runAll (receive settings) applications {} := rfl
  rw [stopped]
  cases specified : settings.spikeDirectory with
  | none =>
    have none := files_runAll_of_unspecified specified applications (w := {}) rfl fun _ => rfl
    refine iff_of_true (fun file content present => ?_) fun a _ starts => ?_
    · rw [none file] at present
      cases present
    · exact absurd starts.specified (by rw [specified]; simp)
  | some directory =>
    rcases runAll_initial specified applications with ⟨⟨a, member, starts⟩, opened⟩ | ⟨idle, same⟩
    · exact iff_of_false opened.not_filesWellFormed fun idle => idle a member starts
    · refine iff_of_true ?_ idle
      rw [same]
      exact fun file content present => nomatch present

/-! ### Rotation

The clock runs on from one reading to the next, and the intervals end within `Long`. -/

/-- The clock is not set back below `now`, and the interval of a file dated by it, like that
of the date before the first file, ends within `Long`. -/
def ClockRuns (settings : Settings) : ℤ → List Application → Prop
  | _, [] => True
  | now, a :: rest =>
      now ≤ a.clock.checked ∧ a.clock.checked ≤ a.clock.created ∧
        a.clock.created + settings.interval < 2 ^ 63 ∧ ClockRuns settings a.clock.created rest

/-- Every file but the current one is a complete array, and that of the current one is open;
no file is dated later than the current one. -/
structure Writer.Rotated (w : Writer) : Prop where
  current : ∀ file, w.jsonGenerator = some file → file.creationDate = w.creationDate ∧
    w.files file = some (.startArray :: (w.recordsOf file).flatMap SpikeRecord.tokens)
  earlier : ∀ file content, w.files file = some content → w.jsonGenerator ≠ some file →
    content = complete (w.recordsOf file)
  dated : ∀ file content, w.files file = some content → file.creationDate ≤ w.creationDate
  filed : ∀ entry ∈ w.written, (w.files entry.1).isSome

theorem rotated_initial : ({} : Writer).Rotated where
  current _ present := nomatch present
  earlier _ _ present := nomatch present
  dated _ _ present := nomatch present
  filed _ member := nomatch member

theorem Writer.recordsOf_record_self (w : Writer) (file : SpikeFile) (records : List SpikeRecord) :
    (w.record file records).recordsOf file = w.recordsOf file ++ records := by
  have all : (records.map fun r => (file, r)).filter (fun entry => entry.1 = file) =
      records.map fun r => (file, r) := by
    rw [List.filter_eq_self]
    simp
  simp [Writer.recordsOf, all, Function.comp_def]

theorem Writer.recordsOf_record_of_ne (w : Writer) {file other : SpikeFile} (ne : other ≠ file)
    (records : List SpikeRecord) : (w.record file records).recordsOf other = w.recordsOf other := by
  simp [Writer.recordsOf, ne.symm]

/-- Records of the current file go into its open array. -/
theorem Writer.Rotated.record {w : Writer} (rotated : w.Rotated) {file : SpikeFile}
    (current : w.jsonGenerator = some file) (records : List SpikeRecord) :
    (w.record file records).Rotated := by
  obtain ⟨date, content⟩ := rotated.current file current
  constructor
  case current =>
    intro other now
    obtain rfl : file = other := Option.some.inj (current.symm.trans now)
    refine ⟨date, ?_⟩
    rw [w.recordsOf_record_self, Writer.record_files, Writer.files_append_self, content]
    simp
  case earlier =>
    intro other content' present earlier
    -- the records go to the current file, so that the others stay
    have ne : other ≠ file := fun same => earlier (same ▸ current)
    rw [Writer.record_files, Writer.files_append_of_ne _ _ ne] at present
    rw [w.recordsOf_record_of_ne ne]
    exact rotated.earlier other content' present earlier
  case dated =>
    intro other content' present
    by_cases same : other = file
    · rw [same, date]
      exact Int.le_refl _
    · rw [Writer.record_files, Writer.files_append_of_ne _ _ same] at present
      exact rotated.dated other content' present
  case filed =>
    intro entry member
    have known : (w.files entry.1).isSome := by
      rcases List.mem_append.mp member with old | new
      · exact rotated.filed entry old
      · obtain ⟨r, -, rfl⟩ := List.mem_map.mp new
        rw [content]
        rfl
    by_cases same : entry.1 = file
    · rw [same, Writer.record_files, Writer.files_append_self, content]
      rfl
    · rwa [Writer.record_files, Writer.files_append_of_ne _ _ same]

/-- The files after the current one is closed are all complete. -/
theorem Writer.Rotated.closed {w : Writer} (rotated : w.Rotated) {file : SpikeFile}
    {content : List Token} (present : w.closed.files file = some content) :
    content = complete (w.recordsOf file) ∧ file.creationDate ≤ w.creationDate := by
  unfold Writer.closed at present
  cases generator : w.jsonGenerator with
  | none =>
    rw [generator] at present
    exact ⟨rotated.earlier file content present (by simp [generator]),
      rotated.dated file content present⟩
  | some current =>
    rw [generator, Option.elim_some] at present
    obtain ⟨date, opened⟩ := rotated.current current generator
    by_cases same : file = current
    · rw [same, Writer.files_append_self, opened] at present
      rw [same, date, ← Option.some.inj present]
      exact ⟨rfl, Int.le_refl _⟩
    · rw [Writer.files_append_of_ne _ _ same] at present
      refine ⟨rotated.earlier file content present ?_, rotated.dated file content present⟩
      rw [generator]
      exact fun here => same (Option.some.inj here).symm

theorem Writer.isSome_files_closed (w : Writer) {file : SpikeFile}
    (known : (w.files file).isSome) : (w.closed.files file).isSome := by
  unfold Writer.closed
  cases w.jsonGenerator with
  | none => exact known
  | some current =>
    by_cases same : file = current
    · subst same
      simpa using known
    · rw [Option.elim_some, Writer.files_append_of_ne _ _ same]
      exact known

theorem Writer.written_closed (w : Writer) : w.closed.written = w.written := by
  unfold Writer.closed
  cases w.jsonGenerator <;> rfl

/-- A file dated later than the current one is new, and starts with an open array. -/
theorem Writer.Rotated.started {w : Writer} (rotated : w.Rotated) {file : SpikeFile}
    (later : w.creationDate < file.creationDate) : (w.closed.started file).Rotated := by
  -- the name has a date that no file had before
  have fresh : ∀ content, w.closed.files file ≠ some content :=
    fun content present => absurd (rotated.closed present).2 (by omega)
  have records : ∀ other, (w.closed.started file).recordsOf other = w.recordsOf other := by
    intro other
    rw [Writer.recordsOf, Writer.recordsOf, Writer.started, w.written_closed]
  have known : ∀ entry ∈ w.written, entry.1 ≠ file := by
    rintro entry member rfl
    obtain ⟨content, present⟩ :=
      Option.isSome_iff_exists.mp (w.isSome_files_closed (rotated.filed entry member))
    exact fresh content present
  constructor
  case current =>
    intro other now
    obtain rfl : file = other := Option.some.inj now
    refine ⟨rfl, ?_⟩
    have none : w.recordsOf file = [] := by
      rw [Writer.recordsOf, List.filter_eq_nil_iff.mpr, List.map_nil]
      exact fun entry member => by simpa using known entry member
    rw [records, none]
    exact Writer.files_started_self ..
  case earlier =>
    intro other content present earlier
    have ne : other ≠ file := fun same => earlier (same ▸ rfl)
    rw [Writer.files_started_of_ne _ ne] at present
    rw [records]
    exact (rotated.closed present).1
  case dated =>
    intro other content present
    by_cases same : other = file
    · rw [same]
      exact Int.le_refl _
    · rw [Writer.files_started_of_ne _ same] at present
      have before := (rotated.closed present).2
      change other.creationDate ≤ file.creationDate
      omega
  case filed =>
    intro entry member
    have old : entry ∈ w.written := w.written_closed ▸ member
    rw [Writer.files_started_of_ne _ (known entry old)]
    exact w.isSome_files_closed (rotated.filed entry old)

section

variable {settings : Settings} {directory : String}
  (specified : settings.spikeDirectory = some directory)

include specified

/-- An application keeps the files rotated, and dates a new file by its clock. -/
theorem rotated_receive {w : Writer} (rotated : w.Rotated) (a : Application)
    (ends : Long.add w.creationDate settings.interval = w.creationDate + settings.interval)
    (forward : 0 ≤ settings.interval) (ordered : a.clock.checked ≤ a.clock.created) :
    (finalState ((receive settings a).run w)).Rotated ∧
      ((finalState ((receive settings a).run w)).creationDate = w.creationDate ∨
        (finalState ((receive settings a).run w)).creationDate = a.clock.created) := by
  cases data : family a.container with
  | none =>
    rw [receive, apply_of_unmapped settings a.clock data]
    exact ⟨rotated, Or.inl rfl⟩
  | some name =>
    have mapped : (family a.container).isSome := by rw [data]; rfl
    by_cases outdated : w.Outdated settings a.clock
    · rw [receive, run_apply_of_outdated mapped outdated specified]
      unfold Writer.Outdated at outdated
      have later : w.creationDate < (settings.file directory a.clock.created).creationDate := by
        change w.creationDate < a.clock.created
        omega
      exact ⟨(rotated.started later).record rfl _, Or.inr rfl⟩
    · rw [receive, finalState_apply_of_current mapped outdated]
      cases generator : w.jsonGenerator with
      | none => exact ⟨rotated, Or.inl rfl⟩
      | some file => exact ⟨rotated.record generator _, Or.inl rfl⟩

/-- As long as the clock runs on, every file but the current one is a complete array of the
records written while it was current, and the current one lacks only its end. -/
theorem rotated_runAll (forward : 0 ≤ settings.interval) (applications : List Application)
    {w : Writer} (rotated : w.Rotated) {now : ℤ}
    (ends : Long.add w.creationDate settings.interval = w.creationDate + settings.interval)
    (representable : Long.minValue ≤ now) (runs : ClockRuns settings now applications) :
    (runAll (receive settings) applications w).Rotated := by
  induction applications generalizing w now with
  | nil => exact rotated
  | cons a rest ih =>
    obtain ⟨running, ordered, bounded, later⟩ := runs
    obtain ⟨kept, date⟩ := rotated_receive specified rotated a ends forward ordered
    have least : Long.minValue = -2 ^ 63 := rfl
    refine ih kept ?_ ?_ later
    · rcases date with same | new
      · rwa [same]
      · rw [new]
        exact Long.add_of_le (by omega) bounded
    · omega

end

end SpikeGenerator

/-! ### One record, and a stop -/

/-- One container on channel 0, at time 20: its file is left without an end of the array. -/
theorem SpikeGenerator.last_file_not_ended :
    ¬ (afterStop { spikeDirectory := some "/tmp", spikeInterval := none }
      [{ clock := { checked := 20, created := 20 }
         container := some { channel := 0, values := [{ data := "7", time := 19 }] } }]).FilesWellFormed := by
  intro wellFormed
  have ended := wellFormed { directory := "/tmp", creationDate := 20, endDate := 10020 }
    [.startArray, .startObject, .stringField "family" "hand", .numberField "time" 19,
      .stringField "data" "7", .endObject] (by decide +kernel)
  revert ended
  decide +kernel

end ThinkingUnderstanding
