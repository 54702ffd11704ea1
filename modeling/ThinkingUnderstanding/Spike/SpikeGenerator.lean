import Mathlib.Algebra.Group.Int.Defs
import Mathlib.Algebra.Group.Nat.Defs
import Mathlib.Data.Int.Basic
import Mathlib.Data.List.Basic
import Mathlib.Logic.Function.Basic
import ThinkingUnderstanding.Semantics.StateProgram

/-!
# The spike generator

`SpikeGeneratorWay2Think` writes the data of a `RoboticDataContainer` as JSON objects into
the array of the current spike file. The file is chosen by the clock: when the current one
is older than an interval, its array is closed and another file is created. The generator
and the date of the file are variables of the action, so they are shared by all the
messages its actor receives.

A file holds the tokens that were written to its generator. The clock is read twice in
`validateFile`, to check the file and to date the next one. Times are `Long`, so the end of
an interval wraps around; the first check relies on the date `Long.MinValue`.

The writer keeps, besides what the source has, the records in the order they were written,
each with the file that was current. No operation reads it.

## Main definitions

* `RoboticData`, `RoboticDataContainer` — the input
* `SpikeGenerator.Writer` — the variables of the action, and the files
* `SpikeGenerator.validateFile`, `closeFile`, `apply`, `stop` — the methods

## Main results

* `run_writeRecords` — what writing a container leaves
* `run_validateFile_of_current`, `run_validateFile_of_outdated` — whether the file is changed
-/

namespace ThinkingUnderstanding

/-- The least value of `Long`. -/
def Long.minValue : ℤ := -2 ^ 63

/-- Addition of `Long`s, which wraps around. -/
def Long.add (a b : ℤ) : ℤ := Int.bmod (a + b) (2 ^ 64)

/-- A sum within `Long` is the exact one. -/
theorem Long.add_of_le {a b : ℤ} (low : -2 ^ 63 ≤ a + b) (high : a + b < 2 ^ 63) :
    Long.add a b = a + b := by
  rw [Long.add, Int.bmod_def]
  split_ifs <;> omega

/-- The sum of a `Long` and one that is not negative, which wraps around at most once. -/
theorem Long.add_eq_ite {a b : ℤ} (range : Long.minValue ≤ a ∧ a < 2 ^ 63)
    (bounds : 0 ≤ b ∧ b < 2 ^ 63) :
    Long.add a b = if a + b < 2 ^ 63 then a + b else a + b - 2 ^ 64 := by
  have least : Long.minValue = -2 ^ 63 := rfl
  rw [Long.add, Int.bmod_def]
  split_ifs <;> omega

/-- `RoboticData`. -/
@[ext] structure RoboticData where
  data : String
  time : ℤ
  deriving DecidableEq, Repr

/-- `RoboticDataContainer`, without its URI. -/
structure RoboticDataContainer where
  channel : ℤ
  values : List RoboticData
  deriving DecidableEq, Repr

namespace SpikeGenerator

open Semantics

/-- `CHANNEL_MAPPING`. -/
def channelMapping : ℤ → Option String
  | 0 => some "hand"
  | 1 => some "distance"
  | _ => none

/-- What a `JsonGenerator` is asked to write. -/
inductive Token
  | startArray
  | endArray
  | startObject
  | endObject
  | stringField (name value : String)
  | numberField (name : String) (value : ℤ)
  deriving DecidableEq, Repr

/-- One object of the array. -/
structure SpikeRecord where
  family : String
  time : ℤ
  data : String
  deriving DecidableEq, Repr

/-- The path `spikeDirectory + "/spikes-" + creationDate + "-" + (creationDate + interval)`. -/
structure SpikeFile where
  directory : String
  creationDate : ℤ
  endDate : ℤ
  deriving DecidableEq, Repr

/-- The system properties the action reads. An interval that is no number is left to
`FailedRotation`, where `interval` throws. -/
structure Settings where
  spikeDirectory : Option String
  spikeInterval : Option ℤ
  deriving DecidableEq, Repr

/-- `interval()`: the property, or `SPIKE_FILE_DEFAULT_INTERVAL`. -/
def Settings.interval (settings : Settings) : ℤ := settings.spikeInterval.getD 10000

/-- The readings of the clock in one call of `validateFile`. -/
structure Clock where
  checked : ℤ
  created : ℤ
  deriving DecidableEq, Repr

/-- The variables of the action, the files, and the records written so far. -/
structure Writer where
  jsonGenerator : Option SpikeFile := none
  creationDate : ℤ := Long.minValue
  files : SpikeFile → Option (List Token) := fun _ => none
  written : List (SpikeFile × SpikeRecord) := []

/-- A method of the action. -/
abbrev SpikeProgram (α : Type) := EStateM String Writer α

/-- The writer with the tokens at the end of a file. -/
def Writer.append (w : Writer) (file : SpikeFile) (tokens : List Token) : Writer :=
  { w with files := Function.update w.files file ((w.files file).map (· ++ tokens)) }

/-- A call of the generator that writes one token. -/
def write (token : Token) : SpikeProgram Unit := do
  match (← get).jsonGenerator with
  | some file => modify fun w => w.append file [token]
  | none => throw "java.lang.NullPointerException"

/-- `closeFile()`. -/
def closeFile : SpikeProgram Unit := write .endArray

/-- The second half of `validateFile()`: a new file is dated, created and opened. -/
def createFile (settings : Settings) (created : ℤ) : SpikeProgram Unit := do
  modify fun w => { w with creationDate := created }
  match settings.spikeDirectory with
  | some directory =>
      let spikeFile :=
        { directory, creationDate := created, endDate := Long.add created settings.interval }
      -- the generator empties a file of this name, should there be one
      modify fun w =>
        { w with
          files := Function.update w.files spikeFile (some [])
          jsonGenerator := some spikeFile }
      write .startArray
  | none => throw "Spike Directory not specified. Use -DspikeDirectory=/path/to/directory"

/-- `validateFile()`. -/
def validateFile (settings : Settings) (clock : Clock) : SpikeProgram Unit := do
  let w ← get
  if Long.add w.creationDate settings.interval < clock.checked then
    if w.jsonGenerator.isSome then closeFile
    createFile settings clock.created

/-- The tokens of one object. -/
def SpikeRecord.tokens (r : SpikeRecord) : List Token :=
  [.startObject, .stringField "family" r.family, .numberField "time" r.time,
    .stringField "data" r.data, .endObject]

/-- The body of the loop of `apply`. -/
def writeRecord (r : SpikeRecord) : SpikeProgram Unit := do
  write .startObject
  write (.stringField "family" r.family)
  write (.numberField "time" r.time)
  write (.stringField "data" r.data)
  write .endObject
  modify fun w =>
    { w with written := w.written ++ w.jsonGenerator.toList.map fun file => (file, r) }

/-- The records of a container of the given family. -/
def recordsOf (family : String) (container : RoboticDataContainer) : List SpikeRecord :=
  container.values.map fun spikeData =>
    { family, time := spikeData.time, data := spikeData.data }

/-- `SpikeGeneratorWay2Think.apply`, given the container that the context has under the name
`SPIKE_RESOURCE`. It returns an empty context in every case. -/
def apply (settings : Settings) (clock : Clock) (container : Option RoboticDataContainer) :
    SpikeProgram Unit :=
  match container with
  | some container =>
      match channelMapping container.channel with
      | some family => do
          validateFile settings clock
          forM (recordsOf family container) writeRecord
      | none => pure ()
  | none => pure ()

/-- `SpikeGeneratorWay2Think.stop`. -/
def stop : SpikeProgram Bool := pure false

/-! ### What the methods leave -/

@[simp] theorem Writer.append_jsonGenerator (w : Writer) (file : SpikeFile) (tokens : List Token) :
    (w.append file tokens).jsonGenerator = w.jsonGenerator := rfl

@[simp] theorem Writer.append_creationDate (w : Writer) (file : SpikeFile) (tokens : List Token) :
    (w.append file tokens).creationDate = w.creationDate := rfl

@[simp] theorem Writer.append_written (w : Writer) (file : SpikeFile) (tokens : List Token) :
    (w.append file tokens).written = w.written := rfl

@[simp] theorem Writer.append_append (w : Writer) (file : SpikeFile) (tokens more : List Token) :
    (w.append file tokens).append file more = w.append file (tokens ++ more) := by
  simp [Writer.append, Function.comp_def]

@[simp] theorem Writer.files_append_self (w : Writer) (file : SpikeFile) (tokens : List Token) :
    (w.append file tokens).files file = (w.files file).map (· ++ tokens) :=
  Function.update_self ..

theorem Writer.files_append_of_ne (w : Writer) {file other : SpikeFile} (tokens : List Token)
    (ne : other ≠ file) : (w.append file tokens).files other = w.files other :=
  Function.update_of_ne ne ..

@[simp] theorem Writer.append_nil (w : Writer) (file : SpikeFile) : w.append file [] = w := by
  have same : (fun tokens : List Token => tokens ++ []) = id := by
    funext tokens
    exact List.append_nil tokens
  rw [Writer.append, same, Option.map_id, id_eq, Function.update_eq_self]

/-- The writer after records of a file are written. -/
def Writer.record (w : Writer) (file : SpikeFile) (records : List SpikeRecord) : Writer :=
  { w.append file (records.flatMap SpikeRecord.tokens) with
    written := w.written ++ records.map fun r => (file, r) }

@[simp] theorem Writer.record_jsonGenerator (w : Writer) (file : SpikeFile)
    (records : List SpikeRecord) : (w.record file records).jsonGenerator = w.jsonGenerator := rfl

@[simp] theorem Writer.record_creationDate (w : Writer) (file : SpikeFile)
    (records : List SpikeRecord) : (w.record file records).creationDate = w.creationDate := rfl

@[simp] theorem Writer.record_written (w : Writer) (file : SpikeFile)
    (records : List SpikeRecord) :
    (w.record file records).written = w.written ++ records.map fun r => (file, r) := rfl

@[simp] theorem Writer.record_files (w : Writer) (file : SpikeFile) (records : List SpikeRecord) :
    (w.record file records).files =
      (w.append file (records.flatMap SpikeRecord.tokens)).files := rfl

@[simp] theorem Writer.record_nil (w : Writer) (file : SpikeFile) : w.record file [] = w := by
  simp [Writer.record]

theorem Writer.record_record (w : Writer) (file : SpikeFile) (records more : List SpikeRecord) :
    (w.record file records).record file more = w.record file (records ++ more) := by
  simp [Writer.record, Writer.append, Function.comp_def]

theorem run_write {w : Writer} {file : SpikeFile} (current : w.jsonGenerator = some file)
    (token : Token) : (write token).run w = .ok () (w.append file [token]) := by
  simp only [write, EStateM.run_bind, EStateM.run_get, current]
  rfl

theorem run_writeRecord {w : Writer} {file : SpikeFile} (current : w.jsonGenerator = some file)
    (r : SpikeRecord) : (writeRecord r).run w = .ok () (w.record file [r]) := by
  have written : ∀ (w : Writer), w.jsonGenerator = some file → ∀ token,
      (write token).run w = .ok () (w.append file [token]) := fun _ => run_write
  simp [writeRecord, EStateM.run_bind, written, current, Writer.record, SpikeRecord.tokens]

/-- The records are written to the current file, one after another. -/
theorem run_writeRecords (records : List SpikeRecord) {w : Writer} {file : SpikeFile}
    (current : w.jsonGenerator = some file) :
    (forM records writeRecord).run w = .ok () (w.record file records) := by
  induction records generalizing w with
  | nil => rw [Writer.record_nil]; rfl
  | cons r rest ih =>
    rw [List.forM_cons, EStateM.run_bind, run_writeRecord current]
    change (forM rest writeRecord).run (w.record file [r]) = _
    rw [ih (w.record_jsonGenerator file [r] ▸ current), Writer.record_record, List.singleton_append]

theorem run_writeRecord_of_none {w : Writer} (none : w.jsonGenerator = none) (r : SpikeRecord) :
    (writeRecord r).run w = .error "java.lang.NullPointerException" w := by
  have failed : (write .startObject).run w = .error "java.lang.NullPointerException" w := by
    simp only [write, EStateM.run_bind, EStateM.run_get, none]
    rfl
  rw [writeRecord, EStateM.run_bind, failed]

/-- Without a generator nothing is written. -/
theorem finalState_writeRecords_of_none (records : List SpikeRecord) {w : Writer}
    (none : w.jsonGenerator = none) : finalState ((forM records writeRecord).run w) = w := by
  cases records with
  | nil => rfl
  | cons r rest =>
    rw [List.forM_cons, EStateM.run_bind, run_writeRecord_of_none none, finalState_error]

/-- The current file is older than the interval. -/
def Writer.Outdated (w : Writer) (settings : Settings) (clock : Clock) : Prop :=
  Long.add w.creationDate settings.interval < clock.checked

instance (w : Writer) (settings : Settings) (clock : Clock) :
    Decidable (w.Outdated settings clock) := inferInstanceAs (Decidable (_ < _))

/-- The writer with the array of the current file closed, if there is one. -/
def Writer.closed (w : Writer) : Writer :=
  w.jsonGenerator.elim w fun file => w.append file [.endArray]

/-- The file that is created at a reading of the clock. -/
def Settings.file (settings : Settings) (directory : String) (created : ℤ) : SpikeFile :=
  { directory, creationDate := created, endDate := Long.add created settings.interval }

/-- The writer with a new current file, whose array is open. -/
def Writer.started (w : Writer) (file : SpikeFile) : Writer :=
  { w with
    jsonGenerator := some file
    creationDate := file.creationDate
    files := Function.update w.files file (some [.startArray]) }

theorem run_createFile (w : Writer) {settings : Settings} {directory : String}
    (specified : settings.spikeDirectory = some directory) (created : ℤ) :
    (createFile settings created).run w =
      .ok () (w.started (settings.file directory created)) := by
  simp only [createFile, specified, EStateM.run_bind, EStateM.run_modify]
  refine (run_write rfl .startArray).trans ?_
  simp [Writer.append, Writer.started, Settings.file]

theorem run_validateFile_of_current {w : Writer} {settings : Settings} {clock : Clock}
    (current : ¬ w.Outdated settings clock) : (validateFile settings clock).run w = .ok () w := by
  unfold Writer.Outdated at current
  simp only [validateFile, EStateM.run_bind, EStateM.run_get, if_neg current]
  rfl

theorem run_validateFile_of_outdated {w : Writer} {settings : Settings} {clock : Clock}
    (outdated : w.Outdated settings clock) :
    (validateFile settings clock).run w = (createFile settings clock.created).run w.closed := by
  unfold Writer.Outdated at outdated
  simp only [validateFile, EStateM.run_bind, EStateM.run_get, if_pos outdated]
  cases generator : w.jsonGenerator with
  | none => simp [Writer.closed, generator]
  | some file => simp [EStateM.run_bind, closeFile, run_write generator, Writer.closed, generator]

/-- The application has data for a file: a container of a mapped channel. -/
def family (container : Option RoboticDataContainer) : Option String :=
  container.bind fun c => channelMapping c.channel

/-- The records that an application is asked to write. -/
def requested : Option RoboticDataContainer → List SpikeRecord
  | some container =>
      match channelMapping container.channel with
      | some family => recordsOf family container
      | none => []
  | none => []

/-- The shape of `apply`, in whatever monad the methods that it calls run. -/
def applyWith {m : Type → Type} [Monad m] (validateFile : m Unit)
    (writeRecord : SpikeRecord → m Unit) (container : Option RoboticDataContainer) : m Unit :=
  match container with
  | some container =>
      match channelMapping container.channel with
      | some family => do
          validateFile
          forM (recordsOf family container) writeRecord
      | none => pure ()
  | none => pure ()

section

variable {m : Type → Type} [Monad m] (validateFile : m Unit) (writeRecord : SpikeRecord → m Unit)
  {container : Option RoboticDataContainer}

/-- Without data for a file nothing is done. -/
theorem applyWith_of_unmapped (unmapped : family container = none) :
    applyWith validateFile writeRecord container = pure () := by
  match container, unmapped with
  | none, _ => rfl
  | some c, unmapped =>
    have other : channelMapping c.channel = none := unmapped
    simp only [applyWith, other]

/-- With data, the file is validated, and what is requested is written. -/
theorem applyWith_of_mapped (mapped : (family container).isSome) :
    applyWith validateFile writeRecord container =
      (validateFile >>= fun _ => forM (requested container) writeRecord) := by
  match container, mapped with
  | some c, mapped =>
    obtain ⟨name, named⟩ := Option.isSome_iff_exists.mp mapped
    have found : channelMapping c.channel = some name := named
    simp only [applyWith, requested, found]

end

theorem apply_of_unmapped (settings : Settings) (clock : Clock)
    {container : Option RoboticDataContainer} (unmapped : family container = none) :
    apply settings clock container = pure () :=
  applyWith_of_unmapped (validateFile settings clock) writeRecord unmapped

theorem apply_of_mapped (settings : Settings) (clock : Clock)
    {container : Option RoboticDataContainer} (mapped : (family container).isSome) :
    apply settings clock container =
      (validateFile settings clock >>= fun _ => forM (requested container) writeRecord) :=
  applyWith_of_mapped (validateFile settings clock) writeRecord mapped

/-- The file is current: it takes what is requested, if there is one. -/
theorem finalState_apply_of_current {w : Writer} {settings : Settings} {clock : Clock}
    {container : Option RoboticDataContainer} (mapped : (family container).isSome)
    (current : ¬ w.Outdated settings clock) :
    finalState ((apply settings clock container).run w) =
      w.jsonGenerator.elim w fun file => w.record file (requested container) := by
  rw [apply_of_mapped settings clock mapped, EStateM.run_bind, run_validateFile_of_current current]
  cases generator : w.jsonGenerator with
  | none => exact finalState_writeRecords_of_none _ generator
  | some file => exact congrArg finalState (run_writeRecords _ generator)

/-- The file is outdated: another one is started, and takes what is requested. -/
theorem run_apply_of_outdated {w : Writer} {settings : Settings} {clock : Clock}
    {container : Option RoboticDataContainer} (mapped : (family container).isSome)
    (outdated : w.Outdated settings clock) {directory : String}
    (specified : settings.spikeDirectory = some directory) :
    (apply settings clock container).run w =
      .ok () ((w.closed.started (settings.file directory clock.created)).record
        (settings.file directory clock.created) (requested container)) := by
  rw [apply_of_mapped settings clock mapped, EStateM.run_bind,
    run_validateFile_of_outdated outdated, run_createFile w.closed specified]
  exact run_writeRecords _ rfl

/-- The file is outdated, and there is no directory for another one. -/
theorem finalState_apply_of_unspecified {w : Writer} {settings : Settings} {clock : Clock}
    {container : Option RoboticDataContainer} (mapped : (family container).isSome)
    (outdated : w.Outdated settings clock) (unspecified : settings.spikeDirectory = none) :
    finalState ((apply settings clock container).run w) =
      { w.closed with creationDate := clock.created } := by
  have failed : ∃ e, (validateFile settings clock).run w =
      .error e { w.closed with creationDate := clock.created } := by
    rw [run_validateFile_of_outdated outdated]
    simp only [createFile, unspecified, EStateM.run_bind, EStateM.run_modify]
    exact ⟨_, rfl⟩
  obtain ⟨e, failed⟩ := failed
  rw [apply_of_mapped settings clock mapped, EStateM.run_bind, failed, finalState_error]

end SpikeGenerator

end ThinkingUnderstanding
